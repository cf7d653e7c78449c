import ShellChain.Crypto
import ShellChain.Lib.ByteCodec
import ShellChain.Lib.WeightedQuorum

/-!
# Attestations and the finality state

A validator attests a block by signing its hash, height, parent and round. `FinalityState` collects the attestations of
each block hash with the weight of their validators, and finalizes a block once the weight passes two thirds of the total.
The definitions follow `consensus/src/finality.rs`.
-/

namespace ShellChain

open ByteCodec

/-! ## Validator weights -/

/-- The weights of the active validators, as `validator_weights` returns them. Each weight is bounded by the protocol, so
that the sum stays within `u64`. -/
structure ValidatorWeights where
  weights : HashMap Address Nat
  total_le : WeightedQuorum.total weights ≤ u64Max

namespace ValidatorWeights

/-- The weight of an active validator. -/
def get (W : ValidatorWeights) (v : Address) : Option Nat :=
  W.weights.lookup v

/-- The effective weight of any address: zero when it is no active validator. -/
def weightOf (W : ValidatorWeights) (v : Address) : Nat :=
  WeightedQuorum.weightOf W.weights v

def total (W : ValidatorWeights) : Nat :=
  WeightedQuorum.total W.weights

def weightOfSet (W : ValidatorWeights) (A : Finset Address) : Nat :=
  ∑ v ∈ A, W.weightOf v

end ValidatorWeights

/-! ## Attestations -/

def maxPendingAttestationBlocks : Nat :=
  512

def attestationEpochBlocks : Nat :=
  1000

/-- `ATTEST_DOMAIN`: the bytes of `SHELL_ATTEST_V1` and a zero byte. -/
def attestDomain : Bytes :=
  [0x53, 0x48, 0x45, 0x4c, 0x4c, 0x5f, 0x41, 0x54, 0x54, 0x45, 0x53, 0x54, 0x5f, 0x56, 0x31, 0x00]

/-- A validator's signed confirmation of a block. -/
structure Attestation where
  chainId : Nat
  parentHash : ShellHash
  blockHash : ShellHash
  blockNumber : Nat
  validator : Address
  round : Nat
  signature : Bytes
  deriving DecidableEq

namespace Attestation

def epochOf (blockNumber : Nat) : Nat :=
  blockNumber / attestationEpochBlocks

def signingMessage (chainId : Nat) (parentHash blockHash : ShellHash) (blockNumber round : Nat) : Bytes :=
  attestDomain ++ beBytes 8 chainId ++ beBytes 8 (epochOf blockNumber) ++ parentHash.bytes ++ blockHash.bytes ++
    beBytes 8 blockNumber ++ beBytes 8 round

def ownSigningMessage (a : Attestation) : Bytes :=
  signingMessage a.chainId a.parentHash a.blockHash a.blockNumber a.round

/-- Two attestations of one block hash agree on the target they bind it to. -/
def SameTarget (a b : Attestation) : Prop :=
  a.chainId = b.chainId ∧ a.parentHash = b.parentHash ∧ a.blockNumber = b.blockNumber ∧ a.round = b.round

instance (a b : Attestation) : Decidable (a.SameTarget b) :=
  inferInstanceAs (Decidable (_ ∧ _))

end Attestation

/-! ## The finality state -/

/-- The highest finalized block, and the pending attestations of each block hash. -/
structure FinalityState where
  lastFinalizedNumber : Nat
  lastFinalizedHash : ShellHash
  /-- The validators recorded for a block hash. -/
  pendingAttestations : HashMap ShellHash (Finset Address)
  /-- The weight recorded for a block hash. -/
  pendingAttestedWeight : HashMap ShellHash Nat
  /-- The recorded attestations of a block hash, oldest first. -/
  attestationStore : HashMap ShellHash (List Attestation)
  /-- The first block a validator attested at a height. -/
  attestedBlockByHeight : HashMap (Nat × Address) ShellHash

namespace FinalityState

variable (s : FinalityState)

def withFinalized (number : Nat) (hash : ShellHash) : FinalityState :=
  ⟨number, hash, ∅, ∅, ∅, ∅⟩

def new : FinalityState :=
  withFinalized 0 .zero

/-- The validators recorded for a block hash. -/
def attesters (h : ShellHash) : Finset Address :=
  (s.pendingAttestations.lookup h).getD ∅

/-- The oldest recorded attestation of a block hash. -/
def firstAttestation (h : ShellHash) : Option Attestation :=
  (s.attestationStore.lookup h).bind List.head?

def attestedWeight (h : ShellHash) : Nat :=
  (s.pendingAttestedWeight.lookup h).getD 0

def hasAttested (h : ShellHash) (v : Address) : Bool :=
  v ∈ s.attesters h

/-- `FinalityState::detect_equivocation`: another hash the validator attested at this height. -/
def detectEquivocation (h : ShellHash) (n : Nat) (v : Address) : Option ShellHash :=
  (s.attestedBlockByHeight.lookup (n, v)).filter (· ≠ h)

/-- The set of a block hash with a validator inserted (`entry(..).or_default()` and `insert`). -/
def insertAttester (a : Attestation) : FinalityState :=
  { s with pendingAttestations := s.pendingAttestations.insert a.blockHash (insert a.validator (s.attesters a.blockHash)) }

/-- The weight, the attestation and the height index of a validator new to its block hash. -/
def countAttestation (a : Attestation) (attesterWeight : Nat) : FinalityState :=
  let weight := match s.pendingAttestedWeight.lookup a.blockHash with
    | some weight => saturatingAdd weight attesterWeight
    | none => attesterWeight
  let attestations := (s.attestationStore.lookup a.blockHash).getD [] ++ [a]
  let firstBlock := (s.attestedBlockByHeight.lookup (a.blockNumber, a.validator)).getD a.blockHash
  { s with
    pendingAttestedWeight := s.pendingAttestedWeight.insert a.blockHash weight
    attestationStore := s.attestationStore.insert a.blockHash attestations
    attestedBlockByHeight := s.attestedBlockByHeight.insert (a.blockNumber, a.validator) firstBlock }

/-- `FinalityState::record_attestation_weighted`: the state after it, and whether the attestation is new. -/
def recordAttestationWeighted (a : Attestation) (attesterWeight : Nat) : FinalityState × Bool :=
  if attesterWeight = 0 ∨ a.blockNumber ≤ s.lastFinalizedNumber then
    (s, false)
  else if (s.firstAttestation a.blockHash).any fun existing => ¬ existing.SameTarget a then
    (s, false)
  else if a.blockHash ∉ s.pendingAttestations ∧ maxPendingAttestationBlocks ≤ s.pendingAttestations.size then
    (s, false)
  else if a.validator ∈ s.attesters a.blockHash then
    (s.insertAttester a, false)
  else
    ((s.insertAttester a).countAttestation a attesterWeight, true)

def strictQuorumWeight (totalWeight : Nat) : Nat :=
  if totalWeight = 0 then 0 else min (totalWeight * 2 / 3 + 1) u64Max

def hasWeightedQuorum (attestedWeight totalWeight : Nat) : Bool :=
  strictQuorumWeight totalWeight ≤ attestedWeight ∧ 0 < totalWeight

def canFinalizeWeighted (h : ShellHash) (n totalWeight : Nat) : Bool :=
  match s.firstAttestation h with
  | none => false
  | some first =>
    first.blockNumber = n ∧ hasWeightedQuorum (s.attestedWeight h) totalWeight ∧ s.lastFinalizedNumber < n

/-- The block hashes whose first attestation is at or below a height. -/
def prunedHashes (finalizedNumber : Nat) : List ShellHash :=
  (s.attestationStore.entries.filter fun e => e.2.head?.any fun a => a.blockNumber ≤ finalizedNumber).map Sigma.fst

def pruneBelow (finalizedNumber : Nat) : FinalityState :=
  let hashesToRemove := s.prunedHashes finalizedNumber
  { s with
    pendingAttestations := s.pendingAttestations.eraseAll hashesToRemove
    pendingAttestedWeight := s.pendingAttestedWeight.eraseAll hashesToRemove
    attestationStore := s.attestationStore.eraseAll hashesToRemove
    attestedBlockByHeight := s.attestedBlockByHeight.retain fun k _ => finalizedNumber < k.1 }

/-- The state with a block finalized and the attestations at or below it pruned. -/
def finalize (h : ShellHash) (n : Nat) : FinalityState :=
  { s with lastFinalizedNumber := n, lastFinalizedHash := h }.pruneBelow n

/-- `FinalityState::check_finality_weighted`: the state after it, and whether the block was finalized. -/
def checkFinalityWeighted (h : ShellHash) (n totalWeight : Nat) : FinalityState × Bool :=
  if s.canFinalizeWeighted h n totalWeight then (s.finalize h n, true) else (s, false)

def setFinalizedDirect (n : Nat) (h : ShellHash) : FinalityState × Bool :=
  if s.lastFinalizedNumber < n then (s.finalize h n, true) else (s, false)

end FinalityState

end ShellChain
