import ShellChain.Production

/-!
# The settlements of a chain

What is settled is decided by the blocks of the canonical chain: the reward transactions of a block carry the amendments
that it settles. The node keeps the settled sources in memory; at a start `rebuild_settled_stark_sources_from_chain`
(`node/src/node/event_loop.rs`) reads them from the canonical blocks that are still stored.
-/

namespace ShellChain

open Checks

variable {σ ρ : Type}

/-! ## What a block settles -/

namespace Block

/-- The amendments that the reward transactions of a block carry. -/
def settlements (M : Machine σ ρ) (block : Block) : List ProofAmendment :=
  block.starkRewards.filterMap fun tx => tx.proofPayload.bind M.amendmentFromJson

/-- The sources that a block settles. -/
def settledKeys (M : Machine σ ρ) (block : Block) : List SourceKey :=
  (block.settlements M).flatMap ProofAmendment.sourceKeys

/-- `reverted_stark_settlements`: the settlements of a block, with those of the deprecated extra data. -/
def revertedStarkSettlements (M : Machine σ ρ) (block : Block) : Except BlockError (List ProofAmendment) := do
  let extra ← decodeSystemExtra M block.header.extraData
  pure (extra ++ block.settlements M)

end Block

/-- The sources that the blocks of a chain settle. -/
def chainKeys (M : Machine σ ρ) (chain : List Block) : List SourceKey :=
  chain.flatMap (Block.settledKeys M)

/-! ## The scan at a start -/

namespace ChainNode

/-- `get_block_by_number`. -/
def blockAt (node : ChainNode σ ρ) (number : Nat) : Option Block :=
  (node.canonical number).bind node.blocks

/-- The scan of `rebuild_settled_stark_sources_from_chain`: the amendments of the canonical blocks that are stored, with
their heights. A height without a stored block is passed over. -/
def scanSettlements (M : Machine σ ρ) (node : ChainNode σ ρ) :
    List Nat → Except BlockError (List (Nat × ProofAmendment))
  | [] => .ok []
  | number :: rest => do
    let found ← match node.blockAt number with
      | none => pure []
      | some block => block.revertedStarkSettlements M
    let others ← node.scanSettlements M rest
    pure (found.map (fun a => (number, a)) ++ others)

/-- The node with the scanned sources as the settled ones. The frontiers of the three layers are found from height 0. -/
def withScanned (M : Machine σ ρ) (node : ChainNode σ ρ) (scanned : List (Nat × ProofAmendment)) : ChainNode σ ρ :=
  let cleared := { node with
    settledSources := (scanned.flatMap fun (found : Nat × ProofAmendment) => found.2.sourceKeys).toFinset
    settledFrontiers := fun _ => none }
  { cleared with
    settledFrontiers := fun layer =>
      if layer ∈ [1, 2, 3] then
        some ((cleared.settlementView M).firstCanonicalBlockBelowLayer (fun _ => none) layer)
      else none }

/-- `rebuild_settled_stark_sources_from_chain`: the scanned amendments are returned with the rebuilt node. -/
def rebuildSettledStarkSources (M : Machine σ ρ) (node : ChainNode σ ρ) :
    Except BlockError (ChainNode σ ρ × List (Nat × ProofAmendment)) := do
  let scanned ← node.scanSettlements M (List.range (node.head.number + 1))
  pure (node.withScanned M scanned, scanned)

end ChainNode

end ShellChain
