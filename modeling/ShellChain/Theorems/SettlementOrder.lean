import ShellChain.Lemmas.SettlementOrder
import ShellChain.SampleSettlements

/-!
# Settlements are paid once and in order

On a chain that only grows, the blocks settled at a layer are the first ones of the chain, a layer is settled only as far as
the one below, and no block is settled twice at one of the three layers that the node keeps track of. The ordering checks
set no bound on the layer: above the third one a block can be settled again and again.
-/

namespace ShellChain

variable {σ ρ : Type}

/-- After every run of blocks on a chain without settlements, each source is paid at most once at each of the three layers,
the sources of the first two layers are first parts of the chain, the second within the first, and no cached frontier is
above a block that is not settled at its layer or above. -/
theorem settled_once_in_order (M : Machine σ ρ) {start : ChainNode σ ρ} (hlinear : (start.settlementView M).Linear)
    (hsources : start.settledSources = ∅) (hfrontiers : start.settledFrontiers = fun _ => none)
    {inputs : List (Block × Processed σ ρ)} (hinputs : (settlementSystem M).Admits (ExtendsChain M) ⟨start, []⟩ inputs) :
    let s := (settlementSystem M).run ⟨start, []⟩ inputs
    (∀ key : SourceKey, key.1 ≤ 3 → s.paid.count key ≤ 1) ∧
      s.node.settledSources = s.paid.toFinset ∧
      (∀ key ∈ s.paid, ∃ n, s.node.canonical n = some key.2) ∧
      (∃ first second, second ≤ first ∧
        (∀ n h, s.node.canonical n = some h → ((1, h) ∈ s.node.settledSources ↔ n < first)) ∧
        (∀ n h, s.node.canonical n = some h → ((2, h) ∈ s.node.settledSources ↔ n < second))) ∧
      ∀ layer frontier, s.node.settledFrontiers layer = some frontier → ∀ n h, s.node.canonical n = some h →
        (∀ l ≥ layer, (l, h) ∉ s.node.settledSources) → frontier ≤ n := by
  intro s
  have hstart : SettledInOrder M ⟨start, []⟩ := by
    refine ⟨hlinear, ⟨?_, ?_⟩, congrFun hfrontiers 0, hsources, fun _ => 0, ?_⟩
    · intro layer frontier hfrontier
      rw [show (start.settlementView M).settledFrontiers = _ from hfrontiers] at hfrontier
      cases hfrontier
    · intro layer frontier hfrontier
      rw [show start.settledFrontiers = _ from hfrontiers] at hfrontier
      cases hfrontier
    · refine ⟨?_, ?_, ?_, ?_, List.nodup_nil⟩
      · intro n h _ l _ _
        simp
      · intro l _ _
        exact Nat.zero_le _
      · intro l _ _
        exact Nat.le_refl _
      · intro key hkey
        cases hkey
  have hs : SettledInOrder M s :=
    TransitionSystem.invariant_run (I := SettledInOrder M) (fun _ _ h hextends => h.step hextends) hstart hinputs
  obtain ⟨counts, hcounts⟩ := hs.counts
  have hmem : ∀ l h, (l, h) ∈ s.node.settledSources ↔ (l, h) ∈ s.paid := by
    intro l h
    rw [hs.settled, List.mem_toFinset]
  refine ⟨?_, hs.settled, fun key hkey => (hcounts.canonical key hkey).2, ⟨counts 1, counts 2, ?_, ?_, ?_⟩, ?_⟩
  · intro key hkey
    rw [← List.count_filter (p := fun key => key.1 ≤ 3) (by simpa using hkey)]
    exact List.nodup_iff_count_le_one.mp hcounts.once key
  · exact hcounts.antitone 1 (by omega) (by omega)
  · intro n h hn
    rw [hmem]
    exact hcounts.mem_iff n h hn 1 (by omega) (by omega)
  · intro n h hn
    rw [hmem]
    exact hcounts.mem_iff n h hn 2 (by omega) (by omega)
  · intro layer frontier hfrontier n h hn hopen
    by_contra hgt
    have hle := hs.frontiers.sound layer frontier hfrontier n (Nat.lt_of_not_le hgt) h hn
    -- only a layer that was settled has a frontier
    have hlayer : 0 < layer := by
      refine Nat.pos_of_ne_zero ?_
      rintro rfl
      rw [hs.noLayerZero] at hfrontier
      cases hfrontier
    exact hopen _ hle (SettlementView.mem_of_settledLayer_pos (hlayer.trans_le hle)).2

/-! ## Runs on a concrete chain -/

namespace SettledGenesis

/-- The node at genesis. -/
def start : ChainNode SampleWorld Unit :=
  genesisNode ⟨[], none⟩ fun _ => none

def genesisHash : ShellHash :=
  (genesisBlock ⟨[], none⟩).hash chainCtx

def blockAt (number : Nat) : Block :=
  ⟨{ (default : BlockHeader) with number := number }, [], [], none⟩

/-- The block of a height with its settlements. -/
def settling (number : Nat) (settlements : List ProofAmendment) : Block × Processed SampleWorld Unit :=
  (blockAt number, ⟨start.state, [], settlements⟩)

theorem linear_start : (start.settlementView settlingMachine).Linear := by
  have hcanonical : ∀ n hash, (if n = 0 then some genesisHash else none) = some hash → n = 0 ∧ hash = genesisHash := by
    intro n hash hn
    split_ifs at hn with hzero
    exact ⟨hzero, (Option.some.inj hn).symm⟩
  refine ⟨?_, ?_, ?_, ?_⟩
  · intro n hn
    exact ⟨genesisHash, if_pos (Nat.le_zero.mp hn)⟩
  · intro n hash hn
    exact (hcanonical n hash hn).1.le
  · intro n m hash hn hm
    rw [(hcanonical n hash hn).1, (hcanonical m hash hm).1]
  · intro n hash hn
    rw [(hcanonical n hash hn).2]
    decide +kernel

/-- The genesis block is settled at two layers by one block, the block after it at the first layer by another. -/
def inputs : List (Block × Processed SampleWorld Unit) :=
  [settling 1 [sampleAmendment 1 0 genesisHash, sampleAmendment 2 0 genesisHash],
    settling 2 [sampleAmendment 1 1 ((blockAt 1).hash chainCtx)]]

theorem settled_once :
    ((settlementSystem settlingMachine).run ⟨start, []⟩ inputs).paid.length = 3 ∧
      ∀ key : SourceKey, key.1 ≤ 3 → ((settlementSystem settlingMachine).run ⟨start, []⟩ inputs).paid.count key ≤ 1 := by
  have hinputs : ((settlementSystem settlingMachine).run ⟨start, []⟩ inputs).paid.length = 3 ∧
      (settlementSystem settlingMachine).Admits (ExtendsChain settlingMachine) ⟨start, []⟩ inputs := by
    decide +kernel
  exact ⟨hinputs.1, (settled_once_in_order settlingMachine linear_start rfl rfl hinputs.2).1⟩

end SettledGenesis

/-! ## The fourth layer -/

namespace FourthLayerCex

open SettledGenesis

/-- One block settles the genesis block at four layers, the next one again at the fourth. -/
def inputs : List (Block × Processed SampleWorld Unit) :=
  [settling 1 ([1, 2, 3, 4].map fun layer => sampleAmendment layer 0 genesisHash),
    settling 2 [sampleAmendment 4 0 genesisHash]]

/-- Both blocks are accepted, so the genesis block is paid twice at the fourth layer. -/
theorem paid_twice :
    (settlementSystem settlingMachine).Admits (ExtendsChain settlingMachine) ⟨start, []⟩ inputs ∧
      ((settlementSystem settlingMachine).run ⟨start, []⟩ inputs).node.head.number = 2 ∧
      ((settlementSystem settlingMachine).run ⟨start, []⟩ inputs).paid.count (4, genesisHash) = 2 := by
  decide +kernel

end FourthLayerCex

end ShellChain
