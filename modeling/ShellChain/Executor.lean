import ShellChain.Evm

/-!
# The executor

The execution of one transaction: through revm, or by a native contract (`pqvm/src/executor.rs`). The executor keeps the
registry of full addresses from one transaction to the next, and clears it when an outcome is committed.
-/

namespace ShellChain

open Effect

variable {κ : Type}

/-! ## State and results -/

/-- The state of the executor: the state of the chain as staged so far, and the registered addresses. -/
structure Executor (κ : Type) where
  state : NativeState κ
  addresses : AddressRegistry

/-- `ExecutorError`. -/
inductive ExecutorError
  | refused
  | revm (message : String)
  | storage
  | aaBundleNotYetExecutable (txHash : ShellHash)
  | nonceMismatch (expected got : Nat)
  | nonceOverflow
  deriving DecidableEq

/-- Code of the executor. What was written before a failure stays. -/
abbrev ExecutorM (κ : Type) := Effect (Executor κ) ExecutorError

/-- `TxExecutionResult`; the accounts are those still to be committed. -/
structure TxExecutionResult where
  receipt : TransactionReceipt
  stateChanges : HashMap Address EvmAccount
  senderNonceAfter : Nat
  gasUsed : Nat
  isSystemTx : Bool
  effects : SystemContractEffects

namespace Executor

/-- The state with another world state. -/
def mapWorld (e : Executor κ) (f : WorldState κ → WorldState κ) : Executor κ :=
  { e with state := { e.state with world := f e.state.world } }

end Executor

/-- The world state is changed, or the change is impossible. -/
def tryWorld (f : WorldState κ → Option (WorldState κ)) (error : ExecutorError) : ExecutorM κ Unit :=
  fun e => match f e.state.world with
    | none => (.error error, e)
    | some w => (.ok (), e.mapWorld fun _ => w)

/-- A native contract is called. Its failure is a value for the executor; what it wrote stays. -/
def runNative {α : Type} (x : NativeM κ α) : ExecutorM κ (Except SystemContractError α) :=
  fun e => (.ok (x e.state).1, { e with state := (x e.state).2 })

def nextSenderNonce (nonce : Nat) : Except ExecutorError Nat :=
  match checkedAdd nonce 1 with
  | none => .error .nonceOverflow
  | some next => .ok next

/-- `saturating_mul` of 256-bit integers. -/
def saturatingMul (a b : Nat) : Nat :=
  min (a * b) u256Max

namespace Vm

variable (vm : Vm κ) (ctx : ExecContext)

/-! ## Native contracts -/

def isSystemContract (a : Address) : Bool :=
  a = ValidationView.validatorRegistryAddr || a = accountManagerAddr

/-- The selectors of changes of the algorithm registry. -/
def isRegistryMutation (Γ : Ctx) (selector : Bytes) : Bool :=
  [submitAlgorithmProposalSignature, "voteAlgorithmProposal(uint8,bytes32)", "deprecateAlgorithm(uint8)",
    "proposeAlgorithmActivation(uint8,uint64,bytes32)"].any fun signature =>
      selector = ValidationView.selector Γ signature

/-- The selectors that need a governance signature during emergency governance. -/
def isGovernanceMutation (Γ : Ctx) (selector : Bytes) : Bool :=
  isRegistryMutation Γ selector ||
    ["addValidator(address)", "removeValidator(address)", "setValidatorWeight(address,uint64)",
      "setValidatorStake(address,uint256)", "registerProver(bytes,uint8)"].any fun signature =>
        selector = ValidationView.selector Γ signature

def emergencyGovernanceActive : Bool :=
  activeAt ctx.config.emergencyGovernanceHeight ctx.env.number && decide (ctx.config.governanceFallbackKeys.keys ≠ [])

/-- The key that a governance signature is checked against. -/
def governanceKey (s : NativeState κ) (stx : SignedTransaction) (registryMutation : Bool) : Option Bytes :=
  if stx.signature.sigType = .mlDsa65 then s.pubkeys stx.sender
  else if registryMutation then (vm.view ctx s).governanceFallbackPubkey vm.toCtx stx
  else none

/-- The signature of a transaction authorises a change by governance. -/
def governanceAuthorised (stx : SignedTransaction) (registryMutation : Bool) (s : NativeState κ) : Bool :=
  match vm.governanceKey ctx s stx registryMutation with
  | none => false
  | some key => s.registry.isAlgorithmAllowed stx.signature.sigType &&
      decide (vm.verify key (stx.senderSigningHash vm.toCtx).bytes stx.signature = some true)

def executeSignedSystemContractCall (target : Address) (stx : SignedTransaction)
    (input : Bytes) : NativeM κ SystemContractOutcome :=
  if target = ValidationView.validatorRegistryAddr ∧ emergencyGovernanceActive ctx then do
    let selector ← lift (decodeSelector input)
    if isGovernanceMutation vm.toCtx selector then do
      let authorised ← read (vm.governanceAuthorised ctx stx (isRegistryMutation vm.toCtx selector))
      require authorised .unauthorized
      if isRegistryMutation vm.toCtx selector then
        executeAuthenticatedGovernanceCall vm.toCtx vm.rules.toNativeRules ctx stx.sender input stx.signature.sigType
      else executeSystemContractCallAtBlock vm.toCtx vm.rules.toNativeRules ctx target stx.sender input
    else executeSystemContractCallAtBlock vm.toCtx vm.rules.toNativeRules ctx target stx.sender input
  else executeSystemContractCallAtBlock vm.toCtx vm.rules.toNativeRules ctx target stx.sender input

/-- `validator_change_log`: the event of a validator that was added or removed. -/
def validatorChangeLog (Γ : Ctx) (target : Address) (input : Bytes) (effects : SystemContractEffects) (indexed : Bool) :
    Option Log :=
  if target ≠ ValidationView.validatorRegistryAddr ∨ ¬ effects.validatorSetChanged then none
  else
    let topic := if input.take 4 = ValidationView.selector Γ "addValidator(address)" then
        some (Γ.keccak256 (ascii "ValidatorAdded(address)"))
      else if input.take 4 = ValidationView.selector Γ "removeValidator(address)" then
        some (Γ.keccak256 (ascii "ValidatorRemoved(address)"))
      else none
    match topic, decodeAddress (input.drop 4) with
    | some topic, .ok member =>
      if indexed then some ⟨target, [topic, ⟨member.bytes, member.length_eq⟩], []⟩
      else some ⟨target, [topic], List.replicate 12 0 ++ member.toAlloy.bytes⟩
    | _, _ => none

/-- The price that native calls are charged at. -/
def systemGasPrice (tx : Transaction) : Nat :=
  if vm.reconciledFees ctx.env.number then
    effectiveGasPrice tx.maxFeePerGas tx.maxPriorityFeePerGas ctx.env.baseFeePerGas
  else tx.maxFeePerGas

/-- The nonce of the caller of a native contract is advanced and its gas is charged. -/
def chargeSystemCall (caller : Address) (gasUsed price : Nat) : ExecutorM κ Unit := do
  tryWorld (fun w => w.incrementNonce caller) .storage
  tryWorld (fun w => w.subBalance caller (saturatingMul gasUsed price)) .storage

/-- The native call of a transaction; value is refused. -/
def systemCall (target : Address) (stx : SignedTransaction) :
    ExecutorM κ (Except SystemContractError SystemContractOutcome) :=
  if stx.tx.value ≠ 0 then pure (.error (.abiDecode "system contracts do not accept value"))
  else runNative (vm.executeSignedSystemContractCall ctx target stx stx.tx.data)

/-- The effects with one more account. -/
def withUpdatedAccount (effects : SystemContractEffects) (a : Address) : SystemContractEffects :=
  if a ∈ effects.updatedAccounts then effects
  else { effects with updatedAccounts := effects.updatedAccounts ++ [a] }

def executeSystemContractTx (target : Address) (stx : SignedTransaction)
    (txIndex cumulativeGas : Nat) : ExecutorM κ TxExecutionResult := do
  let number := ctx.env.number
  let price := vm.systemGasPrice ctx stx.tx
  let result ← vm.systemCall ctx target stx
  match result with
  | .ok outcome => do
    chargeSystemCall stx.sender outcome.gasUsed price
    let logs := (validatorChangeLog vm.toCtx target stx.tx.data outcome.effects
      (activeAt vm.rules.nativeValidatorEventsHeight number)).toList
    pure ⟨⟨stx.hash vm.toCtx, number, txIndex, 1, outcome.gasUsed, saturatingAdd cumulativeGas outcome.gasUsed, none,
      vm.bloomOf number logs, logs⟩, ∅, 0, outcome.gasUsed, true, withUpdatedAccount outcome.effects stx.sender⟩
  | .error _ => do
    chargeSystemCall stx.sender systemCallBaseGas price
    pure ⟨⟨stx.hash vm.toCtx, number, txIndex, 0, systemCallBaseGas, saturatingAdd cumulativeGas systemCallBaseGas, none,
      [], []⟩, ∅, 0, systemCallBaseGas, true, ⟨false, [stx.sender]⟩⟩

/-! ## Transactions for revm -/

/-- The environment of an execution. -/
def evmEnv (unchecked : Bool) : EvmEnv where
  chainId := ctx.chainId
  number := ctx.env.number
  timestamp := ctx.env.timestamp
  gasLimit := ctx.env.gasLimit
  baseFee := if vm.reconciledFees ctx.env.number then ctx.env.baseFeePerGas else 0
  excessBlobGas := ctx.env.excessBlobGas
  beneficiary := ctx.env.proposer
  systemReward := vm.reconciledFees ctx.env.number
  unchecked := unchecked

/-- The addresses of a call are made known to revm: by handles, or in the registry. -/
def registerCall (sender : Address) (recipient : Option Address) : ExecutorM κ Identities :=
  if vm.nativeContext ctx.env.number then pure .native
  else do
    write fun e => { e with addresses :=
      recipient.toList.foldl AddressRegistry.register ((e.addresses.register sender).register ctx.env.proposer) }
    read fun e => .truncated e.addresses

/-- The transaction that revm executes. -/
def evmTx (stx : SignedTransaction) : EvmTx where
  caller := stx.sender
  recipient := stx.tx.recipient
  value := stx.tx.value
  data := stx.tx.data
  nonce := stx.tx.nonce
  gasLimit := stx.tx.gasLimit
  maxFeePerGas := stx.tx.maxFeePerGas
  maxPriorityFeePerGas := stx.tx.maxPriorityFeePerGas
  accessList := stx.tx.accessList.getD []
  blobHashes := stx.tx.blobVersionedHashes.getD []
  maxFeePerBlobGas := stx.tx.maxFeePerBlobGas.getD 0

/-- revm executes a transaction in the current state. -/
def runEvm (vm : Vm κ) (env : EvmEnv) (tx : EvmTx) (identities : Identities) : ExecutorM κ (Option EvmOutcome) :=
  read fun e => vm.transact env tx identities e.state

/-- The normal path of `execute_tx`. -/
def executeEvmTx (stx : SignedTransaction) (txIndex cumulativeGas : Nat) : ExecutorM κ TxExecutionResult := do
  let number := ctx.env.number
  let nonceAfter ← lift (nextSenderNonce stx.tx.nonce)
  let identities ← vm.registerCall ctx stx.sender stx.tx.recipient
  let outcome ← vm.runEvm (vm.evmEnv ctx false) (evmTx stx) identities
  match outcome with
  | none => fail .refused
  | some o =>
    let succeeded := decide (o.status = .success)
    let gasUsed := if vm.reconciledFees number then o.gasUsed else o.gasSpent
    let logs := if succeeded then o.shellLogs (vm.fullLogAddresses number) else []
    pure ⟨⟨stx.hash vm.toCtx, number, txIndex, if succeeded then 1 else 0, gasUsed, saturatingAdd cumulativeGas gasUsed,
      if succeeded then o.created.map .fromAlloy else none, vm.bloomOf number logs, logs⟩, o.state, nonceAfter, gasUsed,
      false, ⟨false, []⟩⟩

def executeTx (stx : SignedTransaction) (txIndex cumulativeGas : Nat) : ExecutorM κ TxExecutionResult :=
  if vm.nativeContext ctx.env.number ∧ stx.tx.recipient.isNone then fail (.revm "native creation profile is incomplete")
  else if stx.isAaBundle then fail (.aaBundleNotYetExecutable (stx.hash vm.toCtx))
  else
    match stx.tx.recipient.filter isSystemContract with
    | some target => vm.executeSystemContractTx ctx target stx txIndex cumulativeGas
    | none => vm.executeEvmTx ctx stx txIndex cumulativeGas

def commitPqvmState (vm : Vm κ) (sender : Address) (result : TxExecutionResult) : ExecutorM κ Unit :=
  write fun e => { e.mapWorld fun w => advanceNonce (vm.commitState w result.stateChanges) sender result.senderNonceAfter with
    addresses := .empty }

end Vm

end ShellChain
