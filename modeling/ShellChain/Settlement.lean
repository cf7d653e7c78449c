import ShellChain.Amendment
import ShellChain.Lib.Checks
import Mathlib.Data.Finset.Basic

/-!
# The order of STARK settlements

A settlement must continue the compressed prefix of its layer: its sources are canonical, compressed exactly one layer
below, and start at the frontier (`node/src/node/system_rewards.rs`). All of it is read from the live chain of the node,
which `SettlementView` collects. The check of the STARK proof against its sources is outside the model.
-/

namespace ShellChain

open Checks

def minL1StarkTxs : Nat :=
  512

def baseStarkMintWei : Nat :=
  100000000000000000000

namespace ProofAmendment

def coveredHashes (a : ProofAmendment) : List ShellHash :=
  if a.sourceHashes = [] then [a.blockHash] else a.sourceHashes

/-- `range_start_block`; none when the range has more sources than blocks. -/
def rangeStartBlock (a : ProofAmendment) : Option Nat :=
  a.startBlock.orElse fun _ =>
    (checkedAdd a.blockNumber 1).bind fun endPlusOne =>
      if a.coveredHashes.length ≤ endPlusOne then some (endPlusOne - a.coveredHashes.length) else none

def sizeBytes (a : ProofAmendment) : Nat :=
  a.compressedSize.getD a.estimatedWireSizeBytes

def hasValidEmbeddedCompression (a : ProofAmendment) : Bool :=
  match a.originalSize with
  | none => false
  | some original => original = 0 ∨ min (a.sizeBytes * 2) u64Max < original

/-- A proof of the first layer covers no entries or enough of them. -/
def hasEnoughEntries (a : ProofAmendment) : Bool :=
  ¬ (a.layer = 1 ∧ a.proof.nSigs ≠ 0 ∧ a.proof.nSigs < minL1StarkTxs)

end ProofAmendment

/-- What the settlement checks read of the node. -/
structure SettlementView where
  headNumber : Nat
  canonicalHash : Nat → Option ShellHash
  /-- `settled_stark_sources`: layers with their sources. -/
  settledSources : Finset (Nat × ShellHash)
  /-- `settled_stark_frontiers` by layer. -/
  settledFrontiers : Nat → Option Nat
  /-- An artifact, a witness bundle or a header is stored for the hash. -/
  storedSource : ShellHash → Bool
  /-- The number of transactions of a stored block. -/
  transactionCount : ShellHash → Option Nat
  /-- `validate_stark_proof_source_binding`. -/
  sourceBinding : ProofAmendment → Bool

/-- The errors of the ordering checks. -/
inductive SettlementError
  | layerZero
  | compressionThreshold
  | tooFewEntries (nSigs : Nat)
  | noSources
  | finalSourceMismatch (blockHash : ShellHash)
  | rangeTooShort (blockNumber sources : Nat)
  | rangeOverflow
  | rangeEndMismatch (start declared : Nat)
  | missingCanonical (number : Nat)
  | notCanonical (number : Nat) (expected got : ShellHash)
  | notCompressible (number : Nat)
  | alreadyCompressed (number layer : Nat)
  | lowerLayerMissing (number layer found : Nat)
  | notAtFrontier (layer expected got : Nat)
  deriving DecidableEq

/-- The layers that earlier settlements of the same block give to their sources. -/
abbrev LayerOverlay := ShellHash → Option Nat

/-- The overlay with the sources of a settlement. -/
def LayerOverlay.insertCovered (overlay : LayerOverlay) (a : ProofAmendment) : LayerOverlay :=
  fun h => if h ∈ a.coveredHashes then some a.layer else overlay h

namespace SettlementView

variable (v : SettlementView) (overlay : LayerOverlay)

/-- The sources of a range are the canonical blocks from `number` on. -/
def checkCanonical (v : SettlementView) : Nat → List ShellHash → Except SettlementError Unit
  | _, [] => .ok ()
  | number, source :: rest =>
    match v.canonicalHash number with
    | none => .error (.missingCanonical number)
    | some canonical =>
      if canonical ≠ source then .error (.notCanonical number canonical source) else v.checkCanonical (number + 1) rest

/-- `validate_stark_amendment_range`: the first block of the range. -/
def validateStarkAmendmentRange (a : ProofAmendment) : Except SettlementError Nat := do
  ensure (a.layer ≠ 0) .layerZero
  ensure a.hasValidEmbeddedCompression .compressionThreshold
  ensure a.hasEnoughEntries (.tooFewEntries a.proof.nSigs)
  ensure (a.coveredHashes ≠ []) .noSources
  ensure (a.coveredHashes.getLast? = some a.blockHash) (.finalSourceMismatch a.blockHash)
  match a.rangeStartBlock with
  | none => throw (.rangeTooShort a.blockNumber a.coveredHashes.length)
  | some start =>
    ensure (checkedAdd start a.coveredHashes.length).isSome .rangeOverflow
    ensure (start + a.coveredHashes.length - 1 = a.blockNumber) (.rangeEndMismatch start a.blockNumber)
    v.checkCanonical start a.coveredHashes
    pure start

def compressionLayerForSource (source : ShellHash) : Nat :=
  (overlay source).getD (([3, 2, 1].find? fun layer => (layer, source) ∈ v.settledSources).getD 0)

def isStarkCompressionSource (source : ShellHash) : Bool :=
  (overlay source).isSome || v.storedSource source

/-- The loop of `first_canonical_block_below_layer`; the fuel is the number of heights up to the head. -/
def frontierFrom (v : SettlementView) (overlay : LayerOverlay) (layer : Nat) : Nat → Nat → Nat
  | 0, _ => saturatingAdd v.headNumber 1
  | fuel + 1, number =>
    if (v.canonicalHash number).any fun h =>
        v.isStarkCompressionSource overlay h && decide (v.compressionLayerForSource overlay h < layer) then
      number
    else
      v.frontierFrom overlay layer fuel (number + 1)

def firstCanonicalBlockBelowLayer (layer : Nat) : Nat :=
  let start := (v.settledFrontiers layer).getD 0
  v.frontierFrom overlay layer (v.headNumber + 1 - start) start

/-- The sources are compressed exactly one layer below. -/
def checkLayers (v : SettlementView) (overlay : LayerOverlay) (layer : Nat) :
    Nat → List ShellHash → Except SettlementError Unit
  | _, [] => .ok ()
  | number, source :: rest => do
    let current := v.compressionLayerForSource overlay source
    ensure (v.isStarkCompressionSource overlay source) (.notCompressible number)
    ensure (current < layer) (.alreadyCompressed number current)
    ensure (layer ≤ 1 ∨ current + 1 = layer) (.lowerLayerMissing number layer current)
    v.checkLayers overlay layer (number + 1) rest

/-- `validate_stark_amendment_ordering_with_overlay`. -/
def validateStarkAmendmentOrdering (a : ProofAmendment) : Except SettlementError Unit := do
  let start ← v.validateStarkAmendmentRange a
  v.checkLayers overlay a.layer start a.coveredHashes
  let expectedStart := v.firstCanonicalBlockBelowLayer overlay a.layer
  ensure (start = expectedStart) (.notAtFrontier a.layer expectedStart start)

/-- The loop of `validate_stark_settlement_sequence`. -/
def validateSequenceFrom (v : SettlementView) : LayerOverlay → List ProofAmendment → Except SettlementError Unit
  | _, [] => .ok ()
  | overlay, a :: rest => do
    v.validateStarkAmendmentOrdering overlay a
    v.validateSequenceFrom (overlay.insertCovered a) rest

def validateStarkSettlementSequence (amendments : List ProofAmendment) : Except SettlementError Unit :=
  v.validateSequenceFrom (fun _ => none) amendments

/-- `stark_reward_value`: half the base mint for each layer, for every source with transactions. -/
def starkRewardValue (a : ProofAmendment) : Option Nat :=
  if ¬ a.hasValidEmbeddedCompression ∨ ¬ a.hasEnoughEntries then none
  else
    let sources := if a.layer = 1 then
        (a.coveredHashes.mapM v.transactionCount).map fun counts => max (counts.filter (0 < ·)).length 1
      else some (max a.coveredHashes.length 1)
    sources.map fun count => baseStarkMintWei / 2 ^ a.layer * count

end SettlementView

end ShellChain
