import ShellChain.AlgorithmGovernance

/-!
# The account manager

The native contract by which an account replaces its key or its validation code, and by which its guardians recover it
(`pqvm/src/system_contracts.rs`). A recovery waits for the timelock of the account, counted from the head of the chain at
the vote that reaches the threshold.
-/

namespace ShellChain

open Effect

variable {κ : Type}

namespace Native

/-! ## Keys and code -/

/-- The digest that `rotate_key` writes: of the key and its algorithm once keys are bound to algorithms, else of the key. -/
def pubkeyHash (Γ : Ctx) (ctx : ExecContext) (pubkey : Bytes) (algo : SignatureType) : ShellHash :=
  if activeAt ctx.config.registeredKeyAlgorithmHeight ctx.env.number then algorithmHash Γ pubkey algo else Γ.blake3 pubkey

/-- The state in which an account has a key. -/
def withKey (s : NativeState κ) (account : Address) (hash : ShellHash) (pubkey : Bytes) : NativeState κ :=
  { s with
    world := s.world.setAccount account { s.world.account account with pqPubkeyHash := hash }
    pubkeys := Function.update s.pubkeys account (some pubkey) }

def rotateKey (Γ : Ctx) (ctx : ExecContext) (caller : Address) (pubkey : Bytes) (algoId : UInt8) : NativeM κ Unit := do
  require (pubkey ≠ []) .emptyPubkey
  match SignatureType.fromU8 algoId with
  | none => fail (.invalidAlgorithm algoId)
  | some algo => write fun s => withKey s caller (pubkeyHash Γ ctx pubkey algo) pubkey

def writeValidationCode (caller : Address) (codeHash : Option ShellHash) : NativeM κ Unit :=
  write fun s => { s with
    world := s.world.setAccount caller { s.world.account caller with validationCodeHash := codeHash } }

def setValidationCode (caller : Address) (codeHash : ShellHash) : NativeM κ Unit := do
  let known ← read fun s => s.world.codes codeHash
  require known (.validationCodeMissing codeHash)
  writeValidationCode caller (some codeHash)

def clearValidationCode (caller : Address) : NativeM κ Unit :=
  writeValidationCode caller none

/-! ## Recovery -/

/-- `get_guardian_config`. -/
def guardianConfig (account : Address) : NativeM κ (Option GuardianConfig) :=
  read fun s => s.recovery.guardians account

/-- `get_recovery_proposal`. -/
def recoveryProposal (account : Address) : NativeM κ (Option RecoveryProposal) :=
  read fun s => s.recovery.proposals account

/-- `put_recovery_proposal`, or `delete_recovery_proposal` without one. -/
def putRecoveryProposal (account : Address) (proposal : Option RecoveryProposal) : NativeM κ Unit :=
  write fun s => { s with recovery :=
    { s.recovery with proposals := Function.update s.recovery.proposals account proposal } }

/-- `set_guardians`, with the parameters read. -/
def setGuardians (caller : Address) (config : GuardianConfig) : NativeM κ Unit := do
  let active ← recoveryProposal caller
  require active.isNone .recoveryAlreadyActive
  write fun s => { s with recovery :=
    { s.recovery with guardians := Function.update s.recovery.guardians caller (some config) } }

/-- A proposal with one more vote; with the vote that reaches the threshold it gets its maturity. -/
def withVote (proposal : RecoveryProposal) (config : GuardianConfig) (caller : Address) (headNumber : Nat) :
    RecoveryProposal :=
  let voted := { proposal with votes := proposal.votes ++ [caller] }
  if voted.maturityBlock = 0 ∧ config.threshold ≤ voted.votes.length then
    { voted with maturityBlock := saturatingAdd headNumber config.timelock }
  else voted

/-- `submit_recovery`, with the parameters read. -/
def submitRecovery (headNumber : Nat) (caller account : Address) (newPubkey : Bytes) (newAlgo : UInt8) :
    NativeM κ Unit := do
  match ← guardianConfig account with
  | none => fail (.noGuardianConfig account)
  | some config => do
    require (caller ∈ config.guardians) .notAGuardian
    let stored ← recoveryProposal account
    let proposal := stored.getD ⟨newPubkey, newAlgo, [], 0⟩
    require (proposal.newPubkey = newPubkey ∧ proposal.newAlgo = newAlgo) .recoveryAlreadyActive
    if caller ∈ proposal.votes then pure ()
    else putRecoveryProposal account (some (withVote proposal config caller headNumber))

/-- `execute_recovery`: anyone may call it. -/
def executeRecovery (Γ : Ctx) (ctx : ExecContext) (account : Address) : NativeM κ Unit := do
  match ← recoveryProposal account with
  | none => fail (.noRecoveryProposal account)
  | some proposal => do
    require (proposal.maturityBlock ≠ 0) (.recoveryNotMature 0)
    require (proposal.maturityBlock ≤ ctx.headNumber) (.recoveryNotMature proposal.maturityBlock)
    rotateKey Γ ctx account proposal.newPubkey proposal.newAlgo
    putRecoveryProposal account none

/-- `cancel_recovery`: only the account itself. -/
def cancelRecovery (caller account : Address) : NativeM κ Unit := do
  require (caller = account) .unauthorized
  let active ← recoveryProposal account
  require active.isSome (.noRecoveryProposal account)
  putRecoveryProposal account none

end Native

/-! ## Calls -/

/-- A call of the account manager with its parameters. -/
inductive AccountCall
  | rotateKey (pubkey : Bytes) (algoId : UInt8)
  | setValidationCode (codeHash : ShellHash)
  | clearValidationCode
  | setGuardians (config : GuardianConfig)
  | submitRecovery (account : Address) (newPubkey : Bytes) (newAlgo : UInt8)
  | executeRecovery (account : Address)
  | cancelRecovery (account : Address)
  deriving DecidableEq

namespace AccountCall

/-- The reading of the calldata of the account manager. -/
def decode (Γ : Ctx) (caller : Address) (input : Bytes) : Decoded AccountCall := do
  let selector ← decodeSelector input
  let params := input.drop 4
  let is := fun signature => decide (selector = ValidationView.selector Γ signature)
  if is "rotateKey(bytes,uint8)" then (decodeRotateKeyParams params).map fun p => rotateKey p.1 p.2
  else if is "setValidationCode(bytes32)" then (decodeHash params).map setValidationCode
  else if is "clearValidationCode()" then pure clearValidationCode
  else if is "setGuardians(address[],uint8,uint64)" then (decodeSetGuardians caller params).map setGuardians
  else if is "submitRecovery(address,bytes,uint8)" then
    (decodeSubmitRecovery params).map fun p => submitRecovery p.1 p.2.1 p.2.2
  else if is "executeRecovery(address)" then (decodeAddress params).map executeRecovery
  else if is "cancelRecovery(address)" then (decodeAddress params).map cancelRecovery
  else throw (.unknownSelector selector)

/-- The operation of a call. -/
def execute (Γ : Ctx) (ctx : ExecContext) (caller : Address) : AccountCall → NativeM κ Unit
  | rotateKey pubkey algoId => Native.rotateKey Γ ctx caller pubkey algoId
  | setValidationCode codeHash => Native.setValidationCode caller codeHash
  | clearValidationCode => Native.clearValidationCode caller
  | setGuardians config => Native.setGuardians caller config
  | submitRecovery account newPubkey newAlgo => Native.submitRecovery ctx.headNumber caller account newPubkey newAlgo
  | executeRecovery account => Native.executeRecovery Γ ctx account
  | cancelRecovery account => Native.cancelRecovery caller account

end AccountCall

end ShellChain
