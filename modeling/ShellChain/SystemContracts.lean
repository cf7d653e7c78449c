import ShellChain.AccountManager

/-!
# The dispatch of native calls

A call of a native contract is read from its calldata and executed on the state (`pqvm/src/system_contracts.rs`). The
result is the output, the gas, and the parts of the node's own state that have to follow.
-/

namespace ShellChain

open Checks Effect

variable {κ : Type}

/-! ## Outcomes -/

/-- `SystemContractEffects`. -/
structure SystemContractEffects where
  validatorSetChanged : Bool
  updatedAccounts : List Address
  deriving DecidableEq

/-- `SystemContractOutcome`. -/
structure SystemContractOutcome where
  output : Bytes
  gasUsed : Nat
  effects : SystemContractEffects
  deriving DecidableEq

def systemCallBaseGas : Nat :=
  21000

def systemCallOpGas : Nat :=
  5000

/-- An outcome without effects on the node. -/
def SystemContractOutcome.plain (output : Bytes) (ops : Nat) : SystemContractOutcome :=
  ⟨output, systemCallBaseGas + ops * systemCallOpGas, ⟨false, []⟩⟩

/-! ## The registry -/

/-- A call of the validator registry with its parameters. Where the parameters are read only after another check they are
left as bytes. -/
inductive RegistryCall
  | addValidator (target : Address)
  | removeValidator (target : Address)
  | setValidatorWeight (target : Address) (weight : Nat)
  | setValidatorStake (target : Address) (stake : Nat)
  | bondValidatorStake (target : Address) (amount : Nat)
  | unbondValidatorStake (target : Address) (amount : Nat)
  | registerProver (params : Bytes)
  | submitAlgorithmProposal (params : Bytes)
  | voteAlgorithmProposal (params : Bytes)
  | getAlgorithmProposal (params : Bytes)
  | proposeAlgorithmActivation (algo : SignatureType) (activationHeight : Nat) (verifierHash : ShellHash)
  | deprecateAlgorithm (algo : SignatureType)
  | getValidators
  | isValidator (address : Address)
  deriving DecidableEq

/-- The function that `submit` of a proposal answers. -/
def submitAlgorithmProposalSignature : String :=
  "submitAlgorithmProposal(uint8,bytes32,uint32,uint32,uint64,uint64,bytes32,uint64)"

namespace RegistryCall

/-- The reading of the calldata of the registry. -/
def decode (Γ : Ctx) (input : Bytes) : Decoded RegistryCall := do
  let selector ← decodeSelector input
  let params := input.drop 4
  let is := fun signature => decide (selector = ValidationView.selector Γ signature)
  if is "registerProver(bytes,uint8)" then pure (registerProver params)
  else if is "addValidator(address)" then (decodeAddress params).map addValidator
  else if is "removeValidator(address)" then (decodeAddress params).map removeValidator
  else if is "setValidatorWeight(address,uint64)" then
    (decodeAddressU64 params).map fun p => setValidatorWeight p.1 p.2
  else if is "setValidatorStake(address,uint256)" then
    (decodeAddressU256 params).map fun p => setValidatorStake p.1 p.2
  else if is "bondValidatorStake(address,uint256)" then
    (decodeAddressU256 params).map fun p => bondValidatorStake p.1 p.2
  else if is "unbondValidatorStake(address,uint256)" then
    (decodeAddressU256 params).map fun p => unbondValidatorStake p.1 p.2
  else if is submitAlgorithmProposalSignature then pure (submitAlgorithmProposal params)
  else if is "voteAlgorithmProposal(uint8,bytes32)" then pure (voteAlgorithmProposal params)
  else if is "getAlgorithmProposal(bytes32)" then pure (getAlgorithmProposal params)
  else if is "proposeAlgorithmActivation(uint8,uint64,bytes32)" then
    (decodeAlgoActivationParams params).map fun p => proposeAlgorithmActivation p.1 p.2.1 p.2.2
  else if is "deprecateAlgorithm(uint8)" then (decodeSignatureType params).map deprecateAlgorithm
  else if is "getValidators()" then pure getValidators
  else if is "isValidator(address)" then (decodeAddress params).map isValidator
  else throw (.unknownSelector selector)

end RegistryCall

namespace Native

def validatorOutcome (applied : Bool) : SystemContractOutcome :=
  { SystemContractOutcome.plain (encodeBool applied) 1 with effects := ⟨applied, []⟩ }

/-- `register_prover`. -/
def registerProverCall (Γ : Ctx) (ctx : ExecContext) (caller : Address) (params : Bytes) :
    NativeM κ SystemContractOutcome := do
  require (activeAt ctx.config.proverRegistryHeight ctx.env.number)
    (.unknownSelector (ValidationView.selector Γ "registerProver(bytes,uint8)"))
  let key ← lift (decodeRotateKeyParams params)
  let applied ← registerProver Γ ctx.env.number caller key.1 key.2
  pure (.plain (encodeBool applied) 1)

/-- The rules of proposals with an identity; the selectors are unknown before them. -/
def identityRules (rules : NativeRules) (ctx : ExecContext) (selector : Bytes) :
    Except SystemContractError AlgorithmActivationRules := do
  let r ← rules.algorithmActivationRules ctx.env.number ctx.headNumber
  ensure r.proposalIdentity (.unknownSelector selector)
  pure r

/-- `submitAlgorithmProposal` of `execute_authenticated`. -/
def submitAlgorithmProposalCall (Γ : Ctx) (rules : NativeRules) (ctx : ExecContext) (caller : Address) (params : Bytes)
    (signingAlgorithm : Option SignatureType) : NativeM κ SystemContractOutcome := do
  let r ← lift (identityRules rules ctx (ValidationView.selector Γ submitAlgorithmProposalSignature))
  let id ← submitAlgorithmProposal Γ ctx.config caller params r signingAlgorithm
  pure (.plain id.bytes 12)

/-- `voteAlgorithmProposal` of `execute_authenticated`. -/
def voteAlgorithmProposalCall (Γ : Ctx) (rules : NativeRules) (ctx : ExecContext) (caller : Address) (params : Bytes)
    (signingAlgorithm : Option SignatureType) : NativeM κ SystemContractOutcome := do
  let r ← lift (identityRules rules ctx (ValidationView.selector Γ "voteAlgorithmProposal(uint8,bytes32)"))
  require (params.length = 64) (.abiDecode "vote requires algorithm and proposal ID")
  let algo ← lift (decodeSignatureType (params.take 32))
  let approved ← voteAlgorithmProposal caller algo (.ofWord (params.drop 32)) r signingAlgorithm
  pure (.plain (encodeBool approved) 5)

/-- `getAlgorithmProposal` of `execute_authenticated`. -/
def getAlgorithmProposalCall (Γ : Ctx) (rules : NativeRules) (ctx : ExecContext) (params : Bytes) :
    NativeM κ SystemContractOutcome := do
  let _ ← lift (identityRules rules ctx (ValidationView.selector Γ "getAlgorithmProposal(bytes32)"))
  require (params.length = 32) (.abiDecode "getter requires proposal ID")
  let r ← registry
  let proposal := r.proposals (.ofWord params)
  require (proposal.deadline ≠ 0) (.abiDecode "unknown algorithm proposal")
  pure (.plain (proposal.spec.flatMap ShellHash.bytes ++ ByteCodec.beBytes 32 proposal.deadline ++
    encodeBool proposal.approved) 0)

/-- `proposeAlgorithmActivation`, with the rules changed by how the call was signed. -/
def proposeAlgorithmActivationCall (rules : NativeRules) (ctx : ExecContext) (caller : Address) (algo : SignatureType)
    (activationHeight : Nat) (verifierHash : ShellHash) (f : AlgorithmActivationRules → AlgorithmActivationRules) :
    NativeM κ SystemContractOutcome := do
  let r ← lift (rules.algorithmActivationRules ctx.env.number ctx.headNumber)
  let applied ← proposeAlgorithmActivationOp caller algo activationHeight verifierHash (f r)
  pure (.plain (encodeBool applied) 1)

/-- The vote of `deprecateAlgorithm`. -/
def deprecateAlgorithmCall (caller : Address) (algo : SignatureType) (op : AlgorithmGovernanceOp) :
    NativeM κ SystemContractOutcome := do
  let applied ← deprecateAlgorithmWithOp caller algo op
  pure (.plain (encodeBool applied) 1)

end Native

/-- The operation of a call (`execute_validator_registry_with_registry`, `register_prover`). -/
def RegistryCall.execute (Γ : Ctx) (rules : NativeRules) (ctx : ExecContext) (caller : Address) :
    RegistryCall → NativeM κ SystemContractOutcome
  | addValidator target => Native.validatorOutcome <$> Native.addValidator caller target
  | removeValidator target => Native.validatorOutcome <$> Native.removeValidator caller target
  | setValidatorWeight target weight => Native.validatorOutcome <$> Native.setValidatorWeightOp caller target weight
  | setValidatorStake target stake => Native.validatorOutcome <$> Native.setValidatorStakeOp caller target stake
  | bondValidatorStake target amount => Native.validatorOutcome <$> Native.bondValidatorStake caller target amount
  | unbondValidatorStake target amount => Native.validatorOutcome <$> Native.unbondValidatorStake caller target amount
  | registerProver params => Native.registerProverCall Γ ctx caller params
  | submitAlgorithmProposal params => Native.submitAlgorithmProposalCall Γ rules ctx caller params none
  | voteAlgorithmProposal params => Native.voteAlgorithmProposalCall Γ rules ctx caller params none
  | getAlgorithmProposal params => Native.getAlgorithmProposalCall Γ rules ctx params
  | proposeAlgorithmActivation algo activationHeight verifierHash =>
    Native.proposeAlgorithmActivationCall rules ctx caller algo activationHeight verifierHash id
  | deprecateAlgorithm algo => Native.deprecateAlgorithmCall caller algo .deprecate
  | getValidators => (fun validators => .plain (encodeAddressArray validators) 0) <$> Native.getValidators
  | isValidator address => (fun validators => .plain (encodeBool (address ∈ validators)) 0) <$> Native.getValidators

/-! ## The account manager -/

/-- The accounts whose records a call replaces. -/
def AccountCall.updatedAccounts (caller : Address) : AccountCall → List Address
  | rotateKey _ _ | setValidationCode _ | clearValidationCode => [caller]
  | executeRecovery account => [account]
  | setGuardians _ | submitRecovery _ _ _ | cancelRecovery _ => []

/-- The number of operations that a call is charged for. -/
def AccountCall.ops : AccountCall → Nat
  | submitRecovery _ _ _ | executeRecovery _ => 2
  | _ => 1

/-- The outcome of a call of the account manager. -/
def AccountCall.outcome (caller : Address) (call : AccountCall) : SystemContractOutcome :=
  { SystemContractOutcome.plain (encodeBool true) call.ops with effects := ⟨false, call.updatedAccounts caller⟩ }

def executeAccountManager (Γ : Ctx) (ctx : ExecContext) (caller : Address) (input : Bytes) :
    NativeM κ SystemContractOutcome := do
  let call ← lift (AccountCall.decode Γ caller input)
  call.execute Γ ctx caller
  pure (call.outcome caller)

/-! ## Dispatch -/

/-- `account_manager_address`. -/
def accountManagerAddr : Address :=
  ⟨List.replicate 31 0 ++ [2], by simp⟩

/-- The call of the registry with any calldata. -/
def executeValidatorRegistry (Γ : Ctx) (rules : NativeRules) (ctx : ExecContext) (caller : Address) (input : Bytes) :
    NativeM κ SystemContractOutcome := do
  let call ← lift (RegistryCall.decode Γ input)
  call.execute Γ rules ctx caller

def executeSystemContractCallAtBlock (Γ : Ctx) (rules : NativeRules) (ctx : ExecContext) (target caller : Address)
    (input : Bytes) : NativeM κ SystemContractOutcome :=
  if target = ValidationView.validatorRegistryAddr then executeValidatorRegistry Γ rules ctx caller input
  else if target = accountManagerAddr then executeAccountManager Γ ctx caller input
  else fail (.unknownSystemContract target)

/-! ## Governance -/

namespace Native

/-- The vote of a proposal signed with an algorithm. -/
def proposeOp (signingAlgorithm : SignatureType) : AlgorithmGovernanceOp :=
  if signingAlgorithm = .mlDsa65 then .proposeActivationMlDsa else .proposeActivationSlh

/-- The vote of a deprecation signed with an algorithm. -/
def deprecateOp (signingAlgorithm : SignatureType) : AlgorithmGovernanceOp :=
  if signingAlgorithm = .mlDsa65 then .deprecateMlDsa else .deprecateSlh

/-- The calls of `execute_authenticated_governance_call`, by selector. -/
def authenticatedCall (Γ : Ctx) (rules : NativeRules) (ctx : ExecContext) (caller : Address) (input : Bytes)
    (signingAlgorithm : SignatureType) : NativeM κ SystemContractOutcome := do
  let selector ← lift (decodeSelector input)
  let params := input.drop 4
  let is := fun signature => decide (selector = ValidationView.selector Γ signature)
  if is "proposeAlgorithmActivation(uint8,uint64,bytes32)" then do
    require (input.length = 100) (.abiDecode "activation requires three words")
    let p ← lift (decodeAlgoActivationParams params)
    proposeAlgorithmActivationCall rules ctx caller p.1 p.2.1 p.2.2 fun r => { r with
      requireQuorum := true, stageProposals := true, voteOp := proposeOp signingAlgorithm }
  else if is "deprecateAlgorithm(uint8)" then do
    require (input.length = 36) (.abiDecode "deprecation requires one algorithm word")
    let algo ← lift (decodeSignatureType params)
    deprecateAlgorithmCall caller algo (deprecateOp signingAlgorithm)
  else if is submitAlgorithmProposalSignature then
    submitAlgorithmProposalCall Γ rules ctx caller params (some signingAlgorithm)
  else if is "voteAlgorithmProposal(uint8,bytes32)" then
    voteAlgorithmProposalCall Γ rules ctx caller params (some signingAlgorithm)
  else if is "getAlgorithmProposal(bytes32)" then getAlgorithmProposalCall Γ rules ctx params
  else do
    let _ ← lift (identityRules rules ctx selector)
    fail (.unknownSelector selector)

end Native

def executeAuthenticatedGovernanceCall (Γ : Ctx) (rules : NativeRules) (ctx : ExecContext) (caller : Address)
    (input : Bytes) (signingAlgorithm : SignatureType) : NativeM κ SystemContractOutcome := do
  require (signingAlgorithm = .mlDsa65 ∨ signingAlgorithm = .sphincsSha2256f) .unauthorized
  Native.authenticatedCall Γ rules ctx caller input signingAlgorithm

/-! ## Calls along a run -/

/-- A call of a native contract, with the context it is executed in. -/
structure NativeCall where
  ctx : ExecContext
  caller : Address
  input : Bytes

/-- A call as it arrived in a state. -/
abbrev NativeStep (κ : Type) := NativeState κ × NativeCall

end ShellChain
