import ShellChain.Finality
import ShellChain.Header
import ShellChain.Lib.TransitionSystem

/-!
# The attestation handler of the node

`Node::handle_attestation` checks an attestation from the network against the stored block, the known authorities and the
validator weights, records it, and finalizes the block when its weight suffices and it is canonical. The handler is cut
where the source takes the finality lock: `admitAttestation` are the checks before it, `recordPhase` the recording and
`finalizePhase` the finality check. The definitions follow `node/src/node/p2p_handlers.rs`.
-/

namespace ShellChain

/-- A failed read or write of the store. -/
inductive StorageError
  | io
  deriving DecidableEq, Repr

/-- The errors of the handler, each with the values its message shows. -/
inductive AttestationError
  /-- `attestation target does not match stored block header for ..`. -/
  | targetMismatch (blockHash : ShellHash)
  /-- `attestation chain_id .. does not match local chain_id ..`. -/
  | chainIdMismatch (got expected : Nat)
  /-- `unknown attestation validator: ..`. -/
  | unknownValidator (validator : Address)
  /-- `unknown attestation signature algorithm for validator ..`. -/
  | unknownSignatureAlgorithm (validator : Address)
  /-- `attestation signature algorithm .. not allowed`. -/
  | algorithmNotAllowed (sigType : SignatureType)
  /-- `invalid attestation signature: ..`. -/
  | invalidSignature
  /-- `attestation signature verification failed`. -/
  | verificationFailed
  /-- `unknown active attestation validator: ..`. -/
  | unknownActiveValidator (validator : Address)
  /-- `equivocation: validator .. already attested to .. at height ..`. -/
  | equivocation (validator : Address) (conflicting : ShellHash) (height : Nat)
  /-- An error of the store. -/
  | storage (error : StorageError)
  deriving DecidableEq

/-- What the handler reads of the node besides its finality state: the configuration, the store, the authorities and their
weights, and whether the store takes the finalized number. -/
structure AttestationEnv where
  chainId : Nat
  registry : AlgorithmRegistry
  knownAuthorities : HashMap Address Bytes
  validatorWeights : ValidatorWeights
  getBlockByHash : ShellHash → Except StorageError (Option BlockHeader)
  getBlockHashByNumber : Nat → Except StorageError (Option ShellHash)
  setFinalizedNumber : Nat → Except StorageError Unit

/-- What the checks hand to the recording: the weights, and whether the block is canonical. -/
structure AdmittedAttestation where
  attesterWeight : Nat
  totalWeight : Nat
  isCanonical : Bool
  deriving DecidableEq

/-- The check of the signature against the key of the authority. -/
def verifyAttestationSignature (Γ : Ctx) (env : AttestationEnv) (a : Attestation) (pubkey : Bytes) :
    Except AttestationError Unit :=
  match inferSignatureTypeFromAddress Γ env.registry pubkey a.validator with
  | none => .error (.unknownSignatureAlgorithm a.validator)
  | some sigType =>
    if ¬ env.registry.isAlgorithmAllowed sigType then
      .error (.algorithmNotAllowed sigType)
    else
      match Γ.verify pubkey a.ownSigningMessage ⟨sigType, a.signature⟩ with
      | none => .error .invalidSignature
      | some false => .error .verificationFailed
      | some true => .ok ()

/-- The weights of the attester and of all validators, and whether the attested block is canonical. -/
def weighAttestation (env : AttestationEnv) (a : Attestation) : Except AttestationError AdmittedAttestation :=
  match env.validatorWeights.get a.validator with
  | none => .error (.unknownActiveValidator a.validator)
  | some attesterWeight =>
    match env.getBlockHashByNumber a.blockNumber with
    | .error e => .error (.storage e)
    | .ok canonical => .ok ⟨attesterWeight, env.validatorWeights.total, canonical = some a.blockHash⟩

/-- The checks before the finality lock. An unknown block, or a block that cannot be read, is skipped without an error. -/
def admitAttestation (Γ : Ctx) (env : AttestationEnv) (a : Attestation) :
    Except AttestationError (Option AdmittedAttestation) :=
  match env.getBlockByHash a.blockHash with
  | .error _ => .ok none
  | .ok none => .ok none
  | .ok (some stored) =>
    if a.blockNumber ≠ stored.number ∨ a.parentHash ≠ stored.parentHash then
      .error (.targetMismatch a.blockHash)
    else if a.chainId ≠ env.chainId then
      .error (.chainIdMismatch a.chainId env.chainId)
    else
      match env.knownAuthorities.lookup a.validator with
      | none => .error (.unknownValidator a.validator)
      | some pubkey =>
        match verifyAttestationSignature Γ env a pubkey with
        | .error e => .error e
        | .ok () => (weighAttestation env a).map some

/-- The recording under the finality lock: the state on which finality is evaluated, or nothing when the handler returns. -/
def recordPhase (s : FinalityState) (a : Attestation) (adm : AdmittedAttestation) :
    Except AttestationError (Option FinalityState) :=
  match s.detectEquivocation a.blockHash a.blockNumber a.validator with
  | some conflicting => .error (.equivocation a.validator conflicting a.blockNumber)
  | none =>
    let alreadyAttested := s.hasAttested a.blockHash a.validator
    let (recorded, isNew) := s.recordAttestationWeighted a adm.attesterWeight
    if ¬ isNew ∧ ¬ alreadyAttested then .ok none else .ok (some recorded)

/-- What the handler does outside the finality state. -/
inductive AttestationEffect
  /-- `chain_store.set_finalized_number`. -/
  | persistFinalized (number : Nat)
  /-- `fork_choice.update_attested_weight`, for a block known to fork choice. -/
  | updateAttestedWeight (blockHash : ShellHash) (weight : Nat)
  /-- `advance_fork_choice_finality`. -/
  | advanceForkChoice (number : Nat) (blockHash : ShellHash)
  deriving DecidableEq

/-- The finality state after the handler, what it did outside it, and what it returned. -/
structure AttestationOutcome where
  finality : FinalityState
  effects : List AttestationEffect
  result : Except AttestationError Unit

/-- The finality check and the calls that follow it. The finalized number is written first: when the write fails the
attestation stays recorded and the height is not advanced. -/
def finalizePhase (env : AttestationEnv) (s : FinalityState) (a : Attestation) (adm : AdmittedAttestation) :
    AttestationOutcome :=
  let weightUpdate := AttestationEffect.updateAttestedWeight a.blockHash (s.attestedWeight a.blockHash)
  if adm.isCanonical ∧ s.canFinalizeWeighted a.blockHash a.blockNumber adm.totalWeight then
    match env.setFinalizedNumber a.blockNumber with
    | .error e => ⟨s, [], .error (.storage e)⟩
    | .ok () =>
      let (checked, finalized) := s.checkFinalityWeighted a.blockHash a.blockNumber adm.totalWeight
      let advance := if finalized then [AttestationEffect.advanceForkChoice a.blockNumber a.blockHash] else []
      ⟨checked, .persistFinalized a.blockNumber :: weightUpdate :: advance, .ok ()⟩
  else
    ⟨s, [weightUpdate], .ok ()⟩

def handleAttestation (Γ : Ctx) (env : AttestationEnv) (s : FinalityState) (a : Attestation) : AttestationOutcome :=
  match admitAttestation Γ env a with
  | .error e => ⟨s, [], .error e⟩
  | .ok none => ⟨s, [], .ok ()⟩
  | .ok (some adm) =>
    match recordPhase s a adm with
    | .error e => ⟨s, [], .error e⟩
    | .ok none => ⟨s, [], .ok ()⟩
    | .ok (some recorded) => finalizePhase env recorded a adm

/-- `Node::create_attestation` by a node whose proposer address is `validator`: the header is looked up for the parent, the
round is zero, and the signer is given the signing message. -/
def createAttestation (env : AttestationEnv) (validator : Address) (sign : Bytes → Bytes) (blockHash : ShellHash)
    (blockNumber : Nat) : Option Attestation :=
  match env.getBlockByHash blockHash with
  | .ok (some header) =>
    let message := Attestation.signingMessage env.chainId header.parentHash blockHash blockNumber 0
    some ⟨env.chainId, header.parentHash, blockHash, blockNumber, validator, 0, sign message⟩
  | _ => none

/-! ## Runs of the attestation path -/

/-- A node as the attestation path sees it. -/
structure AttestationNode where
  env : AttestationEnv
  finality : FinalityState

/-- What can happen to it, in any order. -/
inductive AttestationInput
  /-- The chain, the authorities or their weights change: a block arrives, a validator is slashed, a boundary is reloaded. -/
  | reconfigure (env : AttestationEnv)
  /-- An attestation arrives. -/
  | attestation (a : Attestation)
  /-- `adopt_preferred_fork` makes an attested block canonical and checks its finality. -/
  | adopt (preferredHash : ShellHash) (preferredNumber : Nat)
  /-- The vote path commits a block (`set_finalized_direct`). -/
  | commit (number : Nat) (hash : ShellHash)

/-- The attestation path of a node. -/
def attestationSystem (Γ : Ctx) : TransitionSystem AttestationNode AttestationInput where
  step σ
    | .reconfigure env => { σ with env := env }
    | .attestation a => { σ with finality := (handleAttestation Γ σ.env σ.finality a).finality }
    | .adopt h n => { σ with finality := (σ.finality.checkFinalityWeighted h n σ.env.validatorWeights.total).1 }
    | .commit n h => { σ with finality := (σ.finality.setFinalizedDirect n h).1 }

end ShellChain
