import ShellChain.Abi

/-!
# The validator registry

The native contract by which validators vote on their own set, their weights, their stakes and the provers
(`pqvm/src/system_contracts.rs`). Its operations write the state in place: what an operation wrote before an error is still
there after it, so each is an `Effect`.
-/

namespace ShellChain

open Effect

variable {κ : Type}

/-- An operation of a native contract. -/
abbrev NativeM (κ : Type) := Effect (NativeState κ) SystemContractError

namespace Native

def registry : NativeM κ RegistryStorage :=
  read fun s => s.world.registry

/-- A change of the storage of the registry. -/
def modifyRegistry (f : RegistryStorage → RegistryStorage) : NativeM κ Unit :=
  write fun s => { s with world := s.world.mapRegistry f }

/-- A change of the world state that may be impossible. -/
def updateWorld (f : WorldState κ → Option (WorldState κ)) (e : StateError) : NativeM κ Unit :=
  fun s => match f s.world with
    | none => (.error (.storage e), s)
    | some w => (.ok (), { s with world := w })

def getValidators : NativeM κ (List Address) := do
  let r ← registry
  require (r.validators.length ≤ RegistryStorage.maxValidators) (.storage (.validatorCount r.validators.length))
  require r.validators.Nodup (.storage .duplicateValidator)
  pure r.validators

def setValidators (validators : List Address) : NativeM κ Unit := do
  require (validators.length ≤ RegistryStorage.maxValidators) (.storage (.validatorSetSize validators.length))
  require validators.Nodup (.storage .duplicateValidator)
  modifyRegistry fun r => { r with validators := validators }

def setValidatorWeight (validator : Address) (weight : Nat) : NativeM κ Unit := do
  require (weight ≤ maxValidatorWeight) (.storage .weightOutOfRange)
  modifyRegistry fun r => { r with weights := Function.update r.weights validator (max weight 1) }

/-! ## Stake -/

def ensureStakingEnabled : NativeM κ Unit := do
  let r ← registry
  require r.stakingEnabled .stakingDisabled

def derivedWeight (stake : Nat) : NativeM κ Nat := do
  let r ← registry
  require (r.stakeUnit ≠ 0) (.storage .zeroStakeUnit)
  require (r.getMaxValidatorWeight ≠ 0) (.storage .zeroMaxWeight)
  pure (min (stake / r.stakeUnit) r.getMaxValidatorWeight)

/-- `validate_validator_stake_total`: the stake so far and the new total. -/
def validateValidatorStakeTotal (target : Address) (newStake : Nat) : NativeM κ (Nat × Nat) := do
  let r ← registry
  let oldStake := r.stakes target
  if oldStake ≤ newStake then do
    require (r.totalStaked + (newStake - oldStake) ≤ u256Max) (.abiDecode "total staked overflow")
    pure (oldStake, r.totalStaked + (newStake - oldStake))
  else do
    require (oldStake - newStake ≤ r.totalStaked) (.abiDecode "total staked underflow")
    pure (oldStake, r.totalStaked - (oldStake - newStake))

def applyValidatorStake (target : Address) (newStake : Nat) : NativeM κ Unit := do
  let totals ← validateValidatorStakeTotal target newStake
  let weight ← derivedWeight newStake
  require (weight ≠ 0) .stakeTooLow
  modifyRegistry fun r => { r with stakes := Function.update r.stakes target newStake }
  setValidatorWeight target (max weight 1)
  modifyRegistry fun r => { r with totalStaked := totals.2 }

/-! ## Votes of validators -/

/-- The sum of the weights of the validators that meet a condition. -/
def weightOf (r : RegistryStorage) (validators : List Address) (condition : Address → Bool) : Nat :=
  ((validators.filter condition).map r.getValidatorWeight).sum

end Native

/-- The majority that an operation needs: more than half, or more than two thirds to set a weight or a stake. -/
def ValidatorRegistryOp.majority (voted total : Nat) : ValidatorRegistryOp → Bool
  | registerProver | add | remove => total < voted * 2
  | setWeight _ | setStake _ => total * 2 < voted * 3

namespace Native

variable (caller target : Address)

/-- The votes on an operation that are stored for the validators have the majority. -/
def votesReach (r : RegistryStorage) (op : ValidatorRegistryOp) (target : Address) (validators : List Address) : Bool :=
  op.majority (weightOf r validators fun v => r.votes ⟨op, target, v, validators⟩) (weightOf r validators fun _ => true)

/-- `record_validator_vote`: the vote of the caller is stored; the result says whether the majority is reached. -/
def recordValidatorVote (op : ValidatorRegistryOp) (target caller : Address) (validators : List Address) :
    NativeM κ Bool := do
  modifyRegistry fun r => { r with votes := Function.update r.votes ⟨op, target, caller, validators⟩ true }
  let r ← registry
  pure (votesReach r op target validators)

/-- A vote of the caller on an operation, once it passed the checks, and the operation if the vote completes the
majority. -/
def voteAndApply (op : ValidatorRegistryOp) (target caller : Address) (checks : NativeM κ (List Address))
    (apply : List Address → NativeM κ Unit) : NativeM κ Bool := do
  let validators ← checks
  let reached ← recordValidatorVote op target caller validators
  if reached then do
    apply validators
    pure true
  else pure false

/-- The stake of a new validator must give it a weight. -/
def checkNewStake : NativeM κ Unit := do
  let r ← registry
  if r.stakingEnabled then do
    let weight ← derivedWeight (r.stakes target)
    require (weight ≠ 0) .stakeTooLow
  else pure ()

/-- The checks of `add_validator` before the vote. -/
def addValidatorChecks : NativeM κ (List Address) := do
  let validators ← getValidators
  require (caller ∈ validators) .unauthorized
  require (target ∉ validators) (.alreadyExists target)
  let pubkey ← read fun s => s.pubkeys target
  require pubkey.isSome (.validatorPubkeyMissing target)
  checkNewStake target
  pure validators

/-- The new validator, with a weight from its stake or of one. -/
def applyAddValidator (validators : List Address) : NativeM κ Unit := do
  setValidators (validators ++ [target])
  let r ← registry
  if r.stakingEnabled then applyValidatorStake target (r.stakes target) else setValidatorWeight target 1

def addValidator : NativeM κ Bool :=
  voteAndApply .add target caller (addValidatorChecks caller target) (applyAddValidator target)

/-- The checks of `remove_validator` before the vote. -/
def removeValidatorChecks : NativeM κ (List Address) := do
  let validators ← getValidators
  require (caller ∈ validators) .unauthorized
  require (1 < validators.length) .lastValidator
  require (target ∈ validators) (.notFound target)
  pure validators

def removeValidator : NativeM κ Bool :=
  voteAndApply .remove target caller (removeValidatorChecks caller target) fun validators =>
    setValidators (validators.erase target)

/-- The checks of `set_validator_weight_op` before the vote. -/
def setValidatorWeightChecks (newWeight : Nat) : NativeM κ (List Address) := do
  let r ← registry
  require (!r.stakingEnabled) .stakeDerivedWeightsActive
  let validators ← getValidators
  require (caller ∈ validators) .unauthorized
  require (target ∈ validators) (.notFound target)
  require (newWeight ≠ 0) (.abiDecode "validator weight must be at least 1")
  require (newWeight ≤ maxValidatorWeight) (.abiDecode "validator weight must be at most 1000000")
  pure validators

def setValidatorWeightOp (newWeight : Nat) : NativeM κ Bool :=
  voteAndApply (.setWeight newWeight) target caller (setValidatorWeightChecks caller target newWeight) fun _ =>
    setValidatorWeight target newWeight

/-- The balance of a validator whose stake changes. -/
def updatedBalance (balance oldStake newStake : Nat) : Except SystemContractError Nat :=
  if oldStake < newStake then
    if balance < newStake - oldStake then .error (.storage .insufficientBalance) else .ok (balance - (newStake - oldStake))
  else if newStake < oldStake then
    if u256Max < balance + (oldStake - newStake) then .error (.storage .balanceOverflow)
    else .ok (balance + (oldStake - newStake))
  else .ok balance

/-- The checks of `set_validator_stake_op` before the vote. -/
def setValidatorStakeChecks (newStake : Nat) : NativeM κ (List Address) := do
  ensureStakingEnabled
  let validators ← getValidators
  require (caller ∈ validators) .unauthorized
  let weight ← derivedWeight newStake
  require (weight ≠ 0) .stakeTooLow
  pure validators

/-- The new stake, paid from or to the balance of the validator; its checks come after the vote. -/
def applySetValidatorStake (newStake : Nat) : NativeM κ Unit := do
  let totals ← validateValidatorStakeTotal target newStake
  let balance ← read fun s => s.world.balance target
  let updated ← lift (updatedBalance balance totals.1 newStake)
  applyValidatorStake target newStake
  if updated ≠ balance then write fun s => { s with world := s.world.setBalance target updated } else pure ()

def setValidatorStakeOp (newStake : Nat) : NativeM κ Bool :=
  voteAndApply (.setStake newStake) target caller (setValidatorStakeChecks caller newStake) fun _ =>
    applySetValidatorStake target newStake

/-- The checks of `bond_validator_stake` before its first write, with the new stake. -/
def bondChecks (amount : Nat) : NativeM κ Nat := do
  ensureStakingEnabled
  require (caller = target) .unauthorized
  let validators ← getValidators
  require (target ∈ validators) (.notFound target)
  let r ← registry
  let updated := r.stakes target + amount
  require (updated ≤ u256Max) (.abiDecode "validator stake overflow")
  let weight ← derivedWeight updated
  require (weight ≠ 0) .stakeTooLow
  let _ ← validateValidatorStakeTotal target updated
  pure updated

def bondValidatorStake (amount : Nat) : NativeM κ Bool := do
  let updated ← bondChecks caller target amount
  updateWorld (fun w => w.subBalance caller amount) .insufficientBalance
  applyValidatorStake target updated
  pure true

/-- The checks of `unbond_validator_stake` before the stake is applied, with the new stake. -/
def unbondRequest (amount : Nat) : NativeM κ Nat := do
  ensureStakingEnabled
  require (caller = target) .unauthorized
  let validators ← getValidators
  require (target ∈ validators) (.notFound target)
  let r ← registry
  let current := r.stakes target
  require (amount ≤ current) (.abiDecode "cannot unbond more than validator stake")
  let weight ← derivedWeight (current - amount)
  require (weight ≠ 0) .stakeTooLow
  pure (current - amount)

/-- `unbond_validator_stake`: the balance is credited after the stake is lowered. -/
def unbondValidatorStake (amount : Nat) : NativeM κ Bool := do
  let updated ← unbondRequest caller target amount
  applyValidatorStake target updated
  updateWorld (fun w => w.addBalance caller amount) .balanceOverflow
  pure true

def setRegisteredProver (address : Address) (record : RegisteredProver) : NativeM κ Unit := do
  require (record.publicKey ≠ [] ∧ record.publicKey.length ≤ 4096) (.storage .proverKeyLength)
  modifyRegistry fun r => { r with provers := Function.update r.provers address (some record) }

def proverKeyLength : SignatureType → Nat
  | .dilithium3 | .mlDsa65 => 1952
  | .sphincsSha2256f => 64

/-- The checks of `register_prover` before the vote. -/
def registerProverChecks (Γ : Ctx) (caller : Address) (publicKey : Bytes) (algorithm : UInt8) :
    NativeM κ (List Address) := do
  match SignatureType.fromU8 algorithm with
  | none => fail (.invalidAlgorithm algorithm)
  | some signatureType => do
    require (publicKey.length = proverKeyLength signatureType) (.abiDecode "invalid prover public key length")
    let address := Address.fromPublicKey Γ publicKey algorithm
    let validators ← getValidators
    require (caller ∈ validators) .unauthorized
    let r ← registry
    require (r.provers address).isNone (.alreadyExists address)
    pure validators

/-- `register_prover`, once prover registration is enabled. -/
def registerProver (Γ : Ctx) (blockNumber : Nat) (caller : Address) (publicKey : Bytes) (algorithm : UInt8) :
    NativeM κ Bool :=
  let address := Address.fromPublicKey Γ publicKey algorithm
  voteAndApply .registerProver address caller (registerProverChecks Γ caller publicKey algorithm) fun _ =>
    setRegisteredProver address ⟨publicKey, algorithm, blockNumber, 0, 0⟩

end Native

end ShellChain
