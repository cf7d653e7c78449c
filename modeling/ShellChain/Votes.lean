import ShellChain.Attestations

/-!
# Proposer seals, votes and view changes

A proposer seals a block by signing its header hash, and a validator votes for a block by signing the same hash. Votes are
collected by the round of their height (`consensus/src/wpoa.rs`, `wpoa_state.rs`, `view_change.rs`, and the handlers of
`node/src/node/p2p_handlers.rs`). The clocks of a round only decide when it times out and are left out.
-/

namespace ShellChain

open ByteCodec

/-! ## Proposer seals -/

/-- `WPoaEngine::verify_seal`. A verifier error and a wrong signature are one error. -/
def verifySeal (Γ : Ctx) (hdr : BlockHeader) (proposerSeal : PQSignature) (proposerPubkey : Bytes) : Bool :=
  Γ.verify proposerPubkey (hdr.hash Γ).bytes proposerSeal = some true

/-! ## The round of a height -/

/-- The phase of a round. -/
inductive RoundPhase
  | idle
  | proposing (blockHash : ShellHash)
  | voting (blockHash : ShellHash) (votes : HashMap Address PQSignature) (voteWeight : Nat)
  | committed (blockHash : ShellHash)
  | viewChanging (newView : Nat) (votes : Finset Address) (voteWeight : Nat)

/-- What a round reports to the node. -/
inductive WPoaEvent
  | proposeAccepted (blockHash : ShellHash)
  | voteNeeded (blockHash : ShellHash)
  | blockCommitted (blockHash : ShellHash) (quorumSignatures : HashMap Address PQSignature)
  | viewChangeReady (newView : Nat)
  | duplicateVote (voter : Address)
  | wrongBlockHash (expected got : ShellHash)

/-- The round of one height. -/
structure WPoaRound where
  round : Nat
  blockNumber : Nat
  phase : RoundPhase
  totalWeight : Nat
  validatorWeights : HashMap Address Nat

namespace WPoaRound

variable (r : WPoaRound)

/-- `WPoaRound::new`: the total weight saturates. -/
def new (blockNumber round : Nat) (validatorWeights : HashMap Address Nat) : WPoaRound :=
  ⟨round, blockNumber, .idle, (validatorWeights.entries.map Sigma.snd).foldl saturatingAdd 0, validatorWeights⟩

/-- `view_change_quorum_weight`: two thirds of the total, rounded up. -/
def viewChangeQuorumWeight : Nat :=
  min ((2 * r.totalWeight + 2) / 3) u64Max

/-- `WPoaRound::on_block_proposed`: an idle round starts to vote. -/
def onBlockProposed (blockHash : ShellHash) : WPoaRound × List WPoaEvent :=
  match r.phase with
  | .idle => ({ r with phase := .voting blockHash ∅ 0 }, [.proposeAccepted blockHash, .voteNeeded blockHash])
  | _ => (r, [])

/-- The votes with one more, committed when the weight reaches the strict quorum. -/
def recordVote (blockHash : ShellHash) (votes : HashMap Address PQSignature) (voteWeight : Nat) :
    WPoaRound × List WPoaEvent :=
  if r.totalWeight ≠ 0 ∧ FinalityState.strictQuorumWeight r.totalWeight ≤ voteWeight then
    ({ r with phase := .committed blockHash }, [.blockCommitted blockHash votes])
  else
    ({ r with phase := .voting blockHash votes voteWeight }, [])

def onVote (voter : Address) (blockHash : ShellHash) (sig : PQSignature) : WPoaRound × List WPoaEvent :=
  match r.validatorWeights.lookup voter with
  | none => (r, [])
  | some weight =>
    match r.phase with
    | .voting expected votes voteWeight =>
      if blockHash ≠ expected then (r, [.wrongBlockHash expected blockHash])
      else if voter ∈ votes then (r, [.duplicateVote voter])
      else r.recordVote expected (votes.insert voter sig) (saturatingAdd voteWeight weight)
    | _ => (r, [])

/-- The view-change votes with one more; the round is idle again when the weight reaches the quorum. -/
def recordViewChangeVote (newView : Nat) (votes : Finset Address) (voteWeight : Nat) : WPoaRound × List WPoaEvent :=
  if r.totalWeight ≠ 0 ∧ r.viewChangeQuorumWeight ≤ voteWeight then
    ({ r with phase := .idle }, [.viewChangeReady newView])
  else
    ({ r with phase := .viewChanging newView votes voteWeight }, [])

def onViewChangeVote (voter : Address) (newView : Nat) : WPoaRound × List WPoaEvent :=
  match r.validatorWeights.lookup voter with
  | none => (r, [])
  | some weight =>
    match r.phase with
    | .viewChanging expected votes voteWeight =>
      if expected ≠ newView then (r, [])
      else if voter ∈ votes then (r, [])
      else r.recordViewChangeVote newView (insert voter votes) (saturatingAdd voteWeight weight)
    | _ => (r, [])

/-- `WPoaRound::start_view_change`: from any phase. -/
def startViewChange (newView : Nat) : WPoaRound :=
  { r with phase := .viewChanging newView ∅ 0 }

def recordedVote (voter : Address) : Option PQSignature :=
  match r.phase with
  | .voting _ votes _ => votes.lookup voter
  | _ => none

end WPoaRound

/-! ## Votes from the network -/

/-- The check of a vote's signature: the algorithm of the voter's address, tagged as such, over the bytes of the hash. -/
def verifyVoteSignature (Γ : Ctx) (env : AttestationEnv) (voter : Address) (pubkey : Bytes) (blockHash : ShellHash)
    (sig : PQSignature) : Bool :=
  match inferSignatureTypeFromAddress Γ env.registry pubkey voter with
  | none => false
  | some sigType =>
    env.registry.isAlgorithmAllowed sigType && decide (sig.sigType = sigType) &&
      decide (Γ.verify pubkey blockHash.bytes ⟨sigType, sig.data⟩ = some true)

/-- The checks of `Node::handle_wpoa_vote` before the round's lock: a known authority, no conflict with a finalized height,
and a valid signature. -/
def admitWpoaVote (Γ : Ctx) (env : AttestationEnv) (finality : FinalityState) (voter : Address) (blockHash : ShellHash)
    (blockNumber : Nat) (sig : PQSignature) : Bool :=
  match env.knownAuthorities.lookup voter with
  | none => false
  | some pubkey =>
    if 0 < finality.lastFinalizedNumber ∧ blockNumber ≤ finality.lastFinalizedNumber ∧
        (env.getBlockHashByNumber blockNumber).toOption.join ≠ some blockHash then
      false
    else
      verifyVoteSignature Γ env voter pubkey blockHash sig

/-- `Node::handle_wpoa_vote` up to the events of the round: a vote that passes the checks and names the height of the round
is handed to it. -/
def receiveWpoaVote (Γ : Ctx) (env : AttestationEnv) (finality : FinalityState) (r : WPoaRound) (voter : Address)
    (blockHash : ShellHash) (blockNumber : Nat) (sig : PQSignature) : WPoaRound × List WPoaEvent :=
  if ¬ admitWpoaVote Γ env finality voter blockHash blockNumber sig then (r, [])
  else if r.blockNumber ≠ blockNumber then (r, [])
  else r.onVote voter blockHash sig

/-! ## View changes -/

/-- `VIEWCHG_DOMAIN`: the bytes of `SHELL_VIEWCHG_V1`. -/
def viewchgDomain : Bytes :=
  [0x53, 0x48, 0x45, 0x4c, 0x4c, 0x5f, 0x56, 0x49, 0x45, 0x57, 0x43, 0x48, 0x47, 0x5f, 0x56, 0x31]

/-- A validator's request to advance the view. -/
structure ViewChangeMessage where
  chainId : Nat
  blockNumber : Nat
  view : Nat
  highestQcHash : ShellHash
  validator : Address
  signature : Bytes
  deriving DecidableEq

def ViewChangeMessage.ownSigningMessage (msg : ViewChangeMessage) : Bytes :=
  viewchgDomain ++ beBytes 8 msg.chainId ++ beBytes 8 msg.blockNumber ++ beBytes 8 msg.view ++ msg.highestQcHash.bytes

/-- The errors of the signature check of a view change. -/
inductive ViewChangeError
  | unknownSignatureAlgorithm (validator : Address)
  | algorithmNotAllowed (sigType : SignatureType)
  | invalidSignature
  | verificationFailed
  deriving DecidableEq

/-- The check of a view change against the key of its validator. -/
def verifyViewChangeSignature (Γ : Ctx) (env : AttestationEnv) (msg : ViewChangeMessage) (pubkey : Bytes) :
    Except ViewChangeError Unit :=
  match inferSignatureTypeFromAddress Γ env.registry pubkey msg.validator with
  | none => .error (.unknownSignatureAlgorithm msg.validator)
  | some sigType =>
    if ¬ env.registry.isAlgorithmAllowed sigType then
      .error (.algorithmNotAllowed sigType)
    else
      match Γ.verify pubkey msg.ownSigningMessage ⟨sigType, msg.signature⟩ with
      | none => .error .invalidSignature
      | some false => .error .verificationFailed
      | some true => .ok ()

end ShellChain
