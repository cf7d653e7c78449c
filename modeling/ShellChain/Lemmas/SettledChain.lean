import ShellChain.Lemmas.Rebuild

/-!
# The settled sources of the canonical chain

What a node has settled is what the blocks of its canonical chain settle, as long as no settlement is reverted. Then the
verdict on a settlement is a function of the chain.
-/

namespace ShellChain

open RetainingNode

variable {σ ρ : Type} {M : Machine σ ρ}

/-! ## The invariant -/

/-- The history is the canonical chain, and what is settled is what its blocks settle. -/
structure SettledByChain (M : Machine σ ρ) (r : RetainingNode σ ρ) : Prop where
  tracks : Tracks M.toCtx r
  frontiers : FrontiersOk M r.node
  settled : r.node.settledSources = (chainKeys M r.chain).toFinset

/-- No block that the input reverts carries a settlement. An adoption reverts the blocks above the ancestor of the current
plan, a recovery those above the finalized block. -/
def RevertsNoSettlement (M : Machine σ ρ) (r : RetainingNode σ ρ) : NodeInput → Prop
  | .adoptFork _ _ => ∀ plan, preferredForkPlan M.toCtx r.node = .ok (some plan) →
      ∀ block ∈ r.chain.drop (plan.ancestorNumber + 1), block.settlements M = []
  | .recover _ => ∀ finalized, r.node.finalizedNumber = some finalized →
      ∀ block ∈ r.chain.drop (finalized + 1), block.settlements M = []
  | _ => True

/-- The inputs that take blocks off the chain. -/
def NodeInput.reverts : NodeInput → Bool
  | .adoptFork _ _ => true
  | .recover _ => true
  | _ => false

variable {inputs : List NodeInput} {chain : List Block} {r s : RetainingNode σ ρ}

/-- A run without such inputs reverts no settlement. -/
theorem admits_of_not_reverts {T : TransitionSystem (RetainingNode σ ρ) NodeInput}
    (h : ∀ input ∈ inputs, input.reverts = false) (r : RetainingNode σ ρ) : T.Admits (RevertsNoSettlement M) r inputs := by
  induction inputs generalizing r with
  | nil => trivial
  | cons input rest ih =>
    rw [List.forall_mem_cons] at h
    refine ⟨?_, ih h.2 _⟩
    cases input with
    | adoptFork | recover => exact absurd h.1 (by simp [NodeInput.reverts])
    | produce | importBlock | consensus => trivial

theorem chainKeys_append (chain rest : List Block) : chainKeys M (chain ++ rest) = chainKeys M chain ++ chainKeys M rest :=
  List.flatMap_append

/-- Blocks that settle nothing may be cut off. -/
theorem chainKeys_take {n : Nat} (h : ∀ block ∈ chain.drop n, block.settlements M = []) :
    chainKeys M (chain.take n) = chainKeys M chain := by
  have hnil : chainKeys M (chain.drop n) = [] := by
    refine List.flatMap_eq_nil_iff.mpr fun block hblock => ?_
    rw [Block.settledKeys, h block hblock]
    rfl
  conv_rhs => rw [← List.take_append_drop n chain, chainKeys_append, hnil, List.append_nil]

theorem SettledByChain.moves {input : NodeInput} (h : SettledByChain M r) (hcondition : RevertsNoSettlement M r input)
    (hmoves : RetainingNode.Moves M r input s) : SettledByChain M s := by
  have htracks := h.tracks.moves hmoves
  cases hmoves with
  | stay => exact h
  | store _ => exact ⟨htracks, ⟨h.frontiers.sound, h.frontiers.below⟩, h.settled⟩
  | extend _ hnext =>
    refine ⟨htracks, frontiersOk_of_prunes ?_ (prunes_extend ..), ?_⟩
    · rw [staged_eq]
      exact hnext.frontiers h.tracks.canonicalBelow h.frontiers
    rw [(prunes_extend ..).settledSources, (prunes_extend ..).chain, staged_eq]
    obtain ⟨authorities, processed, rfl⟩ := hnext.next_eq
    rw [ChainNode.settledSources_recordSettledSources, chainKeys_append, List.toFinset_append]
    change r.node.settledSources ∪ _ = _
    rw [h.settled, chainKeys, chainKeys, List.flatMap_singleton]
    rfl
  | adopt hplan _ hnext =>
    refine ⟨htracks, frontiersOk_of_prunes ?_ (prunes_switchBranch ..), ?_⟩
    · rw [stagedSwitch_eq]
      exact hnext.frontiers h.frontiers
    rw [(prunes_switchBranch ..).settledSources, (prunes_switchBranch ..).chain, stagedSwitch_eq]
    change _ = (chainKeys M (r.chain.take _ ++ _)).toFinset
    rw [hnext.settledSources, chainKeys_append, List.toFinset_append, chainKeys_take (hcondition _ hplan), h.settled]
  | recover hfinalized hnext =>
    rw [foldl_cancel_eq] at htracks ⊢
    refine ⟨htracks, hnext.frontiers h.frontiers, ?_⟩
    obtain ⟨head, state, forkChoice, rfl⟩ := hnext.next_eq
    change r.node.settledSources = (chainKeys M (r.chain.take _)).toFinset
    rw [chainKeys_take (hcondition _ hfinalized), h.settled]
  | consensus => exact ⟨htracks, ⟨h.frontiers.sound, h.frontiers.below⟩, h.settled⟩

/-- A node that has started on a store with every settlement readable. -/
theorem settledByChain_of_rebuild {store : RetainingNode σ ρ} (htracks : Tracks M.toCtx store) (hfaithful : Faithful M store)
    (hreadable : SettlementsReadable M store) (h : store.rebuild M = .ok r) : SettledByChain M r := by
  obtain ⟨s, hs, hrebuilt⟩ := rebuild_ok htracks hfaithful
  obtain rfl := Except.ok.inj (h.symm.trans hs)
  exact ⟨hrebuilt.tracks, hrebuilt.frontiers, hrebuilt.settledSources_eq hreadable⟩

section

variable (hr : SettledByChain M r) (hs : SettledByChain M s) (hchain : s.chain = r.chain)
  (hcanonical : s.node.canonical = r.node.canonical)

include hr hs hchain hcanonical

/-- Two nodes on one chain that still have the same canonical hashes look the same to the ordering checks. -/
theorem sameChain_of_settledByChain : SettlementView.SameChain (r.node.settlementView M) (s.node.settlementView M) := by
  refine ⟨?_, hcanonical, ?_, ?_⟩
  · have hlength := hs.tracks.length
    rw [hchain, hr.tracks.length] at hlength
    exact (Nat.succ.inj hlength).symm
  · change s.node.settledSources = r.node.settledSources
    rw [hr.settled, hs.settled, hchain]
  · intro n hash hhash
    exact ⟨by simpa [ChainNode.settlementView] using hr.tracks.stored n hash hhash,
      by simpa [ChainNode.settlementView] using hs.tracks.stored n hash (hcanonical ▸ hhash)⟩

theorem SettledByChain.verdict_eq (amendments : List ProofAmendment) :
    (s.node.settlementView M).validateStarkSettlementSequence amendments =
      (r.node.settlementView M).validateStarkSettlementSequence amendments :=
  (sameChain_of_settledByChain hr hs hchain hcanonical).validateSequence hr.frontiers.sound hs.frontiers.sound amendments

end

end ShellChain
