import ShellChain.Lemmas.ValidatorSet

/-!
# The weighted rotation of proposers

The slot of a height is the height modulo the active weight, so any run of consecutive heights that is as long as the active
weight goes through every slot once, wherever it begins.
-/

namespace ShellChain

namespace ValidatorSet

/-- Of as many consecutive heights as the active weight, each active validator proposes as many as its weight, and nobody else
proposes any. -/
theorem proposers_proportional (set : ValidatorSet) (hdistinct : (set.activeValidators.map ValidatorInfo.address).Nodup)
    (hpos : 0 < set.activeWeight) (hfits : set.activeWeight ≤ u64Max) (first : Nat) :
    (∀ v ∈ set.activeValidators, ((Finset.Ico first (first + set.activeWeight)).filter fun height =>
      set.weightedProposer height = some v.address).card = v.weight) ∧
    ∀ height ∈ Finset.Ico first (first + set.activeWeight),
      ∃ v ∈ set.activeValidators, set.weightedProposer height = some v.address := by
  constructor
  · intro v hv
    have hmem : (v.address, v.weight) ∈ members set.activeValidators := List.mem_map.mpr ⟨v, hv, rfl⟩
    simp only [weightedProposer_eq_pick hpos hfits]
    exact WeightedRotation.card_turns (by rwa [members, List.map_map]) hmem first
  · intro height _
    obtain ⟨a, w, hmem, hpick⟩ := WeightedRotation.exists_pick (Nat.mod_lt height hpos)
    obtain ⟨v, hv, heq⟩ := List.mem_map.mp hmem
    obtain ⟨rfl, rfl⟩ := Prod.mk.inj heq
    exact ⟨v, hv, (weightedProposer_eq_pick hpos hfits height).trans hpick⟩

/-- Two validators of weights two and one in three heights: the first has two of them. -/
theorem proposers_proportional_three : ((Finset.Ico 5 8).filter fun height =>
    (fromGenesis [(.repeatByte 1, 2), (.repeatByte 2, 1)] {}).weightedProposer height = some (.repeatByte 1)).card = 2 :=
  (proposers_proportional (fromGenesis [(.repeatByte 1, 2), (.repeatByte 2, 1)] {}) (by decide +kernel) (by decide +kernel)
    (by decide +kernel) 5).1 _ List.mem_cons_self

end ValidatorSet

end ShellChain
