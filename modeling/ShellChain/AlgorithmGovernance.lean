import ShellChain.ValidatorRegistry

/-!
# Votes on signature algorithms

An algorithm is activated in two steps: validators publish a proposal with an activation height, and the block at that
height activates it (`pqvm/src/system_contracts.rs`, `system_contracts/algorithm_proposals.rs`). Proposals were first
published with their first vote, later staged until a quorum, and later still named by an identity.
-/

namespace ShellChain

open Checks Effect

/-! ## Rules and context -/

/-- The voting window of algorithm proposals (`AlgorithmVotingWindow`). -/
structure AlgorithmVotingWindow where
  activationHeight : Nat
  blockTimeSecs : Nat
  deriving DecidableEq

def algorithmVotingWindowSeconds : Nat :=
  7 * 24 * 60 * 60

/-- `duration_blocks`; none when the interval is zero or longer than the window. -/
def AlgorithmVotingWindow.durationBlocks (window : AlgorithmVotingWindow) : Option Nat :=
  let blocks := algorithmVotingWindowSeconds / window.blockTimeSecs
  if window.blockTimeSecs ≠ 0 ∧ 0 < blocks then some blocks else none

/-- The heights of the chain configuration that only native contracts and the executor read. -/
structure NativeRules where
  feeAccountingActivationHeight : Option Nat
  algorithmVotingWindow : Option AlgorithmVotingWindow
  algorithmProposalIdentityHeight : Option Nat
  algorithmProposalStagingHeight : Option Nat
  algorithmQuorumActivationHeight : Option Nat
  algorithmTimelockActivationHeight : Option Nat
  aaAccountManagerHeight : Option Nat
  aaValidatorRegistryHeight : Option Nat
  nativeAddressContextHeight : Option Nat
  nativeValidatorEventsHeight : Option Nat

variable {κ : Type}

namespace Native

/-! ## Votes -/

/-- A change of the words about an algorithm. -/
def modifyAlgorithm (algo : SignatureType) (f : AlgorithmRecord → AlgorithmRecord) : NativeM κ Unit :=
  modifyRegistry fun r => { r with algorithms := Function.update r.algorithms algo (f (r.algorithms algo)) }

/-- The words about an algorithm. -/
def algorithm (algo : SignatureType) : NativeM κ AlgorithmRecord :=
  read fun s => s.world.registry.algorithms algo

/-- The stored votes have two thirds of the weight, in saturating sums. -/
def algorithmVotesReach (r : RegistryStorage) (op : AlgorithmGovernanceOp) (algo : SignatureType)
    (validators : List Address) : Bool :=
  min (weightOf r validators fun _ => true) u64Max * 2 ≤
    min (weightOf r validators fun v => r.algorithmVotes ⟨op, algo, v, validators⟩) u64Max * 3

def recordAlgorithmVote (op : AlgorithmGovernanceOp) (algo : SignatureType) (caller : Address)
    (validators : List Address) : NativeM κ Bool := do
  modifyRegistry fun r => { r with
    algorithmVotes := Function.update r.algorithmVotes ⟨op, algo, caller, validators⟩ true }
  let r ← registry
  pure (algorithmVotesReach r op algo validators)

end Native

namespace AlgorithmRegistry

variable (r : AlgorithmRegistry) (algo : SignatureType)

def upsertStatus (status : AlgorithmStatus) (spec : Option AlgorithmSpec) : AlgorithmRegistry :=
  if r.entries.any fun e => e.algo = algo then
    ⟨r.entries.modify (r.entries.findIdx fun e => e.algo = algo) fun e =>
      { e with status := status, spec := spec.or e.spec }⟩
  else ⟨r.entries ++ [⟨algo, status, spec⟩]⟩

def proposeActivation : AlgorithmRegistry :=
  r.upsertStatus algo .pendingActivation none

def proposeActivationWithSpec (activationHeight : Nat) (verifierHash : ShellHash) : AlgorithmRegistry :=
  r.upsertStatus algo .pendingActivation (some ⟨verifierHash, activationHeight⟩)

def activate : AlgorithmRegistry :=
  r.upsertStatus algo .active none

/-- The registry's `deprecate`. -/
def deprecateEntry : AlgorithmRegistry :=
  r.upsertStatus algo .deprecated none

end AlgorithmRegistry

/-- `AlgorithmActivationRules`. -/
structure AlgorithmActivationRules where
  minimumHeight : Nat
  requireQuorum : Bool
  stageProposals : Bool
  /-- The height of the block and the length of the window. -/
  votingWindow : Option (Nat × Nat)
  proposalIdentity : Bool
  voteOp : AlgorithmGovernanceOp

def algoGovernanceDeltaMin : Nat :=
  500000

def algoGovernanceTargetDeltaMin : Nat :=
  1296000

namespace NativeRules

def votingWindowAt (rules : NativeRules) (number : Nat) : Except SystemContractError (Option (Nat × Nat)) :=
  match rules.algorithmVotingWindow.filter fun window => activeAt (some window.activationHeight) number with
  | none => .ok none
  | some window =>
    match window.durationBlocks with
    | none => .error (.storage .votingInterval)
    | some blocks => .ok (some (number, blocks))

/-- The earliest activation height of a proposal. -/
def minimumHeightAt (rules : NativeRules) (number headNumber : Nat) : Except SystemContractError Nat :=
  if activeAt rules.algorithmTimelockActivationHeight number then
    match checkedAdd number algoGovernanceTargetDeltaMin with
    | none => .error (.abiDecode "algorithm timelock exceeds block height range")
    | some height => .ok height
  else .ok (saturatingAdd headNumber algoGovernanceDeltaMin)

def algorithmActivationRules (rules : NativeRules) (number headNumber : Nat) :
    Except SystemContractError AlgorithmActivationRules := do
  let votingWindow ← rules.votingWindowAt number
  let minimumHeight ← rules.minimumHeightAt number headNumber
  pure ⟨minimumHeight, activeAt rules.algorithmQuorumActivationHeight number,
    activeAt rules.algorithmProposalStagingHeight number, votingWindow,
    activeAt rules.algorithmProposalIdentityHeight number, .proposeActivation⟩

end NativeRules

namespace Native

def guardLegacy (algo : SignatureType) : NativeM κ Unit := do
  let a ← algorithm algo
  require (a.proposalId = .zero) (.abiDecode "algorithm proposal requires an explicit ID-bound vote")
  require (a.proposalHeight ≠ 0 ∨ a.status = some .pendingActivation)
    (.abiDecode "use submitAlgorithmProposal and voteAlgorithmProposal")

/-- Once proposals have an identity, a vote without one must be on an older proposal. -/
def checkIdentity (rules : AlgorithmActivationRules) (algo : SignatureType) : NativeM κ Unit :=
  if rules.proposalIdentity then guardLegacy algo else pure ()

def publishAlgorithmProposal (algo : SignatureType) (activationHeight : Nat) (verifierHash : ShellHash) :
    NativeM κ Unit := do
  write fun s => { s with registry := s.registry.proposeActivationWithSpec algo activationHeight verifierHash }
  modifyAlgorithm algo fun a => { a with
    status := some .pendingActivation, activationHeight := activationHeight, verifierHash := verifierHash }

/-- The end of the window of a proposal that is opened now. -/
def openDeadline (storedHeight : Nat) (votingWindow : Option (Nat × Nat)) : Except SystemContractError (Option Nat) :=
  if storedHeight ≠ 0 then .ok none
  else
    match votingWindow with
    | none => .ok none
    | some (number, blocks) =>
      match checkedAdd number blocks with
      | none => .error (.abiDecode "algorithm voting deadline exceeds block height range")
      | some deadline => .ok (some deadline)

/-- A staged proposal is open for votes. -/
def checkVotingOpen (a : AlgorithmRecord) (votingWindow : Option (Nat × Nat)) : Except SystemContractError Unit :=
  if a.proposalHeight ≠ 0 ∧ a.votingDeadline ≠ 0 then
    match votingWindow with
    | none => .error (.abiDecode "algorithm voting deadline requires execution context")
    | some (number, _) => ensure (number < a.votingDeadline) (.votingWindowExpired a.votingDeadline)
  else .ok ()

/-- The parameters of a staged proposal: the first vote stores them, a later one must agree with them. -/
def storeCandidate (a : AlgorithmRecord) (algo : SignatureType) (activationHeight : Nat) (verifierHash : ShellHash) :
    NativeM κ Unit :=
  if a.proposalHeight = 0 then
    modifyAlgorithm algo fun a => { a with proposalHeight := activationHeight, proposalVerifier := verifierHash }
  else do
    require (a.proposalHeight = activationHeight) (.heightMismatch activationHeight a.proposalHeight)
    require (a.proposalVerifier = verifierHash) .governanceConflict

/-- A vote on a staged proposal, which is published with the vote that completes the quorum. -/
def voteStagedProposal (caller : Address) (validators : List Address) (algo : SignatureType) (activationHeight : Nat)
    (verifierHash : ShellHash) (rules : AlgorithmActivationRules) : NativeM κ Bool := do
  let a ← algorithm algo
  lift (checkVotingOpen a rules.votingWindow)
  let newDeadline ← lift (openDeadline a.proposalHeight rules.votingWindow)
  storeCandidate a algo activationHeight verifierHash
  modifyAlgorithm algo fun a => { a with votingDeadline := newDeadline.getD a.votingDeadline }
  let reached ← recordAlgorithmVote rules.voteOp algo caller validators
  if reached then do
    publishAlgorithmProposal algo activationHeight verifierHash
    modifyAlgorithm algo fun a => { a with
      quorumRequired := true, quorumApproved := true
      proposalHeight := 0, proposalVerifier := .zero, votingDeadline := 0 }
    pure true
  else pure false

/-- The parameters of a proposal that is published with its first vote; a later vote must agree with them. -/
def openLegacyProposal (a : AlgorithmRecord) (algo : SignatureType) (activationHeight : Nat) (verifierHash : ShellHash)
    (requireQuorum : Bool) : NativeM κ Unit :=
  if a.status = some .pendingActivation then do
    require (a.activationHeight = activationHeight) (.heightMismatch activationHeight a.activationHeight)
    require (a.verifierHash = verifierHash) .governanceConflict
  else do
    modifyAlgorithm algo fun a => if requireQuorum then { a with quorumRequired := true, quorumApproved := false } else a
    publishAlgorithmProposal algo activationHeight verifierHash

def voteLegacyProposal (caller : Address) (validators : List Address) (algo : SignatureType) (activationHeight : Nat)
    (verifierHash : ShellHash) (rules : AlgorithmActivationRules) : NativeM κ Bool := do
  let a ← algorithm algo
  openLegacyProposal a algo activationHeight verifierHash rules.requireQuorum
  let reached ← recordAlgorithmVote rules.voteOp algo caller validators
  if reached then do
    modifyAlgorithm algo fun a => if a.quorumRequired then { a with quorumApproved := true } else a
    pure true
  else pure false

def proposeAlgorithmActivationOp (caller : Address) (algo : SignatureType) (activationHeight : Nat)
    (verifierHash : ShellHash) (rules : AlgorithmActivationRules) : NativeM κ Bool := do
  let validators ← getValidators
  require (caller ∈ validators) .unauthorized
  checkIdentity rules algo
  require (rules.minimumHeight ≤ activationHeight) (.invalidActivationHeight activationHeight rules.minimumHeight)
  let r ← registry
  require (!r.algorithmVotes ⟨rules.voteOp, algo, caller, validators⟩) .duplicateVote
  if rules.stageProposals ∧ (r.algorithms algo).status ≠ some .pendingActivation then
    voteStagedProposal caller validators algo activationHeight verifierHash rules
  else voteLegacyProposal caller validators algo activationHeight verifierHash rules

def deprecateAlgorithmWithOp (caller : Address) (algo : SignatureType) (op : AlgorithmGovernanceOp) : NativeM κ Bool := do
  let validators ← getValidators
  require (caller ∈ validators) .unauthorized
  let reached ← recordAlgorithmVote op algo caller validators
  if reached then do
    write fun s => { s with registry := s.registry.deprecateEntry algo }
    modifyAlgorithm algo fun a => { a with status := some .deprecated }
    pure true
  else pure false

/-! ## Proposals with an identity -/

/-- The descriptor of an installed algorithm: its name, the sizes of keys and signatures, and its gas. -/
def algorithmSpec : SignatureType → String × Nat × Nat × Nat × Nat
  | .dilithium3 => ("Dilithium3", 1952, 3309, 46000, 12000)
  | .mlDsa65 => ("ML-DSA-65", 1952, 3309, 46000, 12000)
  | .sphincsSha2256f => ("SLH-DSA-SHA2-256f", 64, 49856, 2300000, 0)

def paramWord (params : Bytes) (i : Nat) : Bytes :=
  (params.drop (32 * i)).take 32

/-- `validate_spec`: the algorithm and the activation height. -/
def validateSpec (params : Bytes) : Except SystemContractError (SignatureType × Nat) := do
  ensure (params.length = 256) (.abiDecode "proposal requires exactly eight ABI words")
  let algo ← decodeSignatureType (paramWord params 0)
  let spec := algorithmSpec algo
  let mismatch := SystemContractError.abiDecode "proposal spec does not match an installed algorithm"
  ensure (paramWord params 1 = ascii spec.1 ++ List.replicate (32 - spec.1.length) 0) mismatch
  let pk ← decodeU64 (paramWord params 2)
  ensure (pk = spec.2.1) mismatch
  let sig ← decodeU64 (paramWord params 3)
  ensure (sig = spec.2.2.1) mismatch
  let verify ← decodeU64 (paramWord params 4)
  ensure (verify = spec.2.2.2.1) mismatch
  let batch ← decodeU64 (paramWord params 5)
  ensure (batch = spec.2.2.2.2) mismatch
  ensure (!(paramWord params 6).all (· = 0)) (.abiDecode "proposal verifier hash must be nonzero")
  let height ← decodeU64 (paramWord params 7)
  pure (algo, height)

/-- `proposal_id`. -/
def proposalIdOf (Γ : Ctx) (params publicKey : Bytes) : ShellHash :=
  Γ.blake3 ((params.drop 31).take 1 ++ paramWord params 1 ++ (params.drop 92).take 4 ++ (params.drop 124).take 4 ++
    (params.drop 152).take 8 ++ (params.drop 184).take 8 ++ paramWord params 6 ++ [0] ++ (params.drop 248).take 8 ++
    publicKey)

/-- The key of the proposer of a proposal: the fallback key for a vote with it, else the registered one. -/
def proposerKey (config : ChainConfig) (s : NativeState κ) (caller : Address) (signingAlgorithm : Option SignatureType) :
    Option Bytes :=
  let key := if signingAlgorithm = some .sphincsSha2256f then config.governanceFallbackKeys.lookup caller
    else s.pubkeys caller
  key.filter fun key => key ≠ [] ∧ key.length ≤ maxAccountPublicKeyBytes

/-- The end of the window of the proposal that a new one would replace; none when there is nothing to wait for. -/
def previousDeadline (r : RegistryStorage) (algo : SignatureType) : Option Nat :=
  let a := r.algorithms algo
  if a.proposalId ≠ .zero then
    if (r.proposals a.proposalId).approved then none else some (r.proposals a.proposalId).deadline
  else if a.proposalHeight ≠ 0 then some a.votingDeadline
  else none

/-- `submit` of a proposal with an identity: every check comes before the first write. -/
def submitAlgorithmProposal (Γ : Ctx) (config : ChainConfig) (caller : Address) (params : Bytes)
    (rules : AlgorithmActivationRules) (signingAlgorithm : Option SignatureType) : NativeM κ ShellHash := do
  let validators ← getValidators
  require (caller ∈ validators) .unauthorized
  let spec ← lift (validateSpec params)
  require (rules.minimumHeight ≤ spec.2) (.invalidActivationHeight spec.2 rules.minimumHeight)
  match rules.votingWindow with
  | none => fail (.abiDecode "proposal identity requires voting window")
  | some (number, duration) =>
    match checkedAdd number duration with
    | none => fail (.abiDecode "algorithm voting deadline exceeds block height range")
    | some deadline => do
      let publicKey ← read fun s => proposerKey config s caller signingAlgorithm
      match publicKey with
      | none => fail (.validatorPubkeyMissing caller)
      | some key => do
        let id := proposalIdOf Γ params key
        let r ← registry
        require (id ≠ .zero ∧ (r.proposals id).deadline = 0) (.abiDecode "duplicate algorithm proposal ID")
        require ((r.algorithms spec.1).status ≠ some .pendingActivation) .governanceConflict
        require ((previousDeadline r spec.1).all fun finish => finish ≠ 0 ∧ finish ≤ number) .governanceConflict
        let words := (List.range 8).map fun i => ShellHash.ofWord (paramWord params i)
        modifyRegistry fun r => { r with
          proposals := Function.update r.proposals id { r.proposals id with spec := words, deadline := deadline } }
        modifyAlgorithm spec.1 fun a =>
          if a.proposalHeight = 0 then { a with proposalId := id }
          else { a with proposalId := id, proposalHeight := 0, proposalVerifier := .zero, votingDeadline := 0 }
        pure id

/-- The votes on a proposal, with that of the caller, have two thirds of the weight. -/
def proposalVotesReach (r : RegistryStorage) (validators : List Address) (caller : Address) (id : ShellHash)
    (signingAlgorithm : Option SignatureType) : Bool :=
  let total := weightOf r validators fun _ => true
  total ≠ 0 ∧ total * 2 ≤ weightOf r validators (fun v => v = caller || r.proposalVotes id v signingAlgorithm) * 3

/-- `vote` on a proposal with an identity. -/
def voteAlgorithmProposal (caller : Address) (algo : SignatureType) (id : ShellHash) (rules : AlgorithmActivationRules)
    (signingAlgorithm : Option SignatureType) : NativeM κ Bool := do
  let validators ← getValidators
  require (caller ∈ validators) .unauthorized
  let r ← registry
  let proposal := r.proposals id
  require (id ≠ .zero ∧ (r.algorithms algo).proposalId = id)
    (.abiDecode "vote does not match current algorithm proposal ID")
  require (!proposal.approved) (.abiDecode "algorithm proposal already approved")
  match rules.votingWindow with
  | none => fail (.abiDecode "proposal identity requires voting window")
  | some (number, _) => do
    require (number < proposal.deadline) (.votingWindowExpired proposal.deadline)
    let height := ofBeBytes ((proposal.spec.getD 7 .zero).bytes.drop 24)
    require (rules.minimumHeight ≤ height) (.invalidActivationHeight height rules.minimumHeight)
    require (!r.proposalVotes id caller signingAlgorithm) .duplicateVote
    modifyRegistry fun r => { r with
      proposalVotes := Function.update r.proposalVotes id
        (Function.update (r.proposalVotes id) caller
          (Function.update (r.proposalVotes id caller) signingAlgorithm true)) }
    if proposalVotesReach r validators caller id signingAlgorithm then do
      publishAlgorithmProposal algo height (proposal.spec.getD 6 .zero)
      modifyAlgorithm algo fun a => { a with quorumRequired := true, quorumApproved := true }
      modifyRegistry fun r => { r with
        proposals := Function.update r.proposals id { r.proposals id with approved := true } }
      pure true
    else pure false

/-! ## Activation -/

/-- A pending algorithm is due at a height: its own height has come, and it is approved if it has to be. -/
def activationDue (a : AlgorithmRecord) (height : Nat) : Bool :=
  0 < a.activationHeight ∧ a.activationHeight ≤ height ∧ (a.quorumRequired → a.quorumApproved)

/-- The algorithms that `process_pending_activations` activates. -/
def dueActivations (s : NativeState κ) (height : Nat) : List SignatureType :=
  ((s.registry.entries.filter fun e => e.status = .pendingActivation).map AlgorithmEntry.algo).filter fun algo =>
    activationDue (s.world.registry.algorithms algo) height

def processPendingActivations (height : Nat) : NativeM κ (List SignatureType) := do
  let due ← read fun s => dueActivations s height
  modifyRegistry fun r => { r with
    algorithms := fun algo => if algo ∈ due then { r.algorithms algo with status := some .active } else r.algorithms algo }
  write fun s => { s with registry := due.foldl AlgorithmRegistry.activate s.registry }
  pure due

end Native

/-! ## The registry that a state represents -/

/-- The words about an algorithm have the parameters of an activation. -/
def AlgorithmRecord.hasSpec (a : AlgorithmRecord) : Bool :=
  0 < a.activationHeight ∨ a.verifierHash ≠ .zero

/-- What `load_algorithm_registry` does for one algorithm. -/
def AlgorithmRegistry.load (r : AlgorithmRegistry) (algo : SignatureType) (a : AlgorithmRecord) : AlgorithmRegistry :=
  match a.status with
  | none => r
  | some status =>
    let r := if a.hasSpec then r.proposeActivationWithSpec algo a.activationHeight a.verifierHash else r
    match status with
    | .active => r.activate algo
    | .deprecated => r.deprecateEntry algo
    | .pendingActivation => if a.hasSpec then r else r.proposeActivation algo

/-- `load_algorithm_registry`. A stored status is always one of the three, so that it does not fail. -/
def loadAlgorithmRegistry (w : WorldState κ) : AlgorithmRegistry :=
  allowedAlgorithms.foldl (fun r algo => r.load algo (w.registry.algorithms algo)) .fromAllowlist

end ShellChain
