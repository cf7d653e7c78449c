import ShellChain.Proposers
import ShellChain.Theorems.ValidatorLifecycle

/-!
# Facts about the proposers

Whoever an engine selects is one of the addresses it chooses from. In the views after the first one the proposer is given by
the residue of the view modulo the number of authorities, so each authority is selected in one of as many views.
-/

namespace ShellChain

open Checks List

/-! ## Lotteries and turns -/

/-- A lottery selects one of its entries. -/
theorem drawTicket_mem {entries : List (Address × Nat)} (h : entries ≠ []) (ticket cumulative : Nat) (last : Address) :
    drawTicket ticket entries cumulative last ∈ entries.map Prod.fst := by
  induction entries generalizing cumulative last with
  | nil => exact absurd rfl h
  | cons entry rest ih =>
    obtain ⟨authority, weight⟩ := entry
    rw [drawTicket, map_cons]
    split
    · exact mem_cons_self
    · by_cases hrest : rest = []
      · subst hrest
        exact mem_cons_self
      · exact mem_cons_of_mem _ (ih hrest _ _)

/-- A turn selects one of the elements. -/
theorem exists_getElem?_roundRobin {α : Type} {l : List α} (h : l ≠ []) (n : Nat) :
    ∃ a ∈ l, l[(roundRobinIndex n l.length).getD 0]? = some a := by
  have hpos : 0 < l.length := length_pos_of_ne_nil h
  have hlt : (roundRobinIndex n l.length).getD 0 < l.length := by
    rw [roundRobinIndex, if_neg (by omega), Option.getD_some]
    exact Nat.mod_lt _ hpos
  exact ⟨l[(roundRobinIndex n l.length).getD 0], getElem_mem hlt, getElem?_eq_getElem hlt⟩

theorem PoaConfig.proposerForBlock_mem (Γ : Ctx) {c : PoaConfig} (h : c.authorities ≠ []) (blockNumber : Nat) :
    c.proposerForBlock Γ blockNumber ∈ c.authorities := by
  rw [proposerForBlock, if_neg h]
  split
  · next hweights =>
    have hzip : c.authorities.zip (c.authorityWeights.map clampWeight) ≠ [] := by
      simp [zip_eq_nil_iff, h, hweights]
    have hmem := drawTicket_mem hzip (lotterySeed Γ blockNumber %
      ((c.authorityWeights.map clampWeight).foldlM checkedAdd 0).getD u64Max) 0 (c.authorities.getLastD .zero)
    obtain ⟨entry, hentry, heq⟩ := mem_map.mp hmem
    rw [weightedProposerForBlock, ← heq]
    exact (of_mem_zip hentry).1
  · obtain ⟨a, ha, hget⟩ := exists_getElem?_roundRobin h (c.slotOf blockNumber)
    rw [hget]
    exact ha

namespace ValidatorSet

theorem walkSlots_mem {slot : Nat} {active : List ValidatorInfo} {cumulative : Nat} {last : Option Address} {a : Address}
    (h : walkSlots slot active cumulative last = some a) : a ∈ active.map ValidatorInfo.address ∨ last = some a := by
  induction active generalizing cumulative last with
  | nil => exact .inr h
  | cons v rest ih =>
    rw [walkSlots, Option.bind_eq_bind, Option.bind_eq_some_iff] at h
    obtain ⟨next, -, h⟩ := h
    split at h
    · exact .inl (Option.some.inj h ▸ mem_cons_self)
    · rcases ih h with hmem | hlast
      · exact .inl (mem_cons_of_mem _ hmem)
      · exact .inl (Option.some.inj hlast ▸ mem_cons_self)

theorem Keyed.isActive_weightedProposer {set : ValidatorSet} (h : set.Keyed) {blockNumber : Nat} {a : Address}
    (ha : set.weightedProposer blockNumber = some a) : set.isActive a = true := by
  rw [weightedProposer, Option.bind_eq_bind, Option.bind_eq_some_iff] at ha
  obtain ⟨total, -, ha⟩ := ha
  have hmem : a ∈ set.activeValidators.map ValidatorInfo.address := by
    split at ha
    · rw [Option.bind_eq_some_iff] at ha
      obtain ⟨idx, -, ha⟩ := ha
      obtain ⟨v, hv, rfl⟩ := Option.map_eq_some_iff.mp ha
      exact mem_map_of_mem (mem_of_getElem? hv)
    · rcases walkSlots_mem ha with hmem | hlast
      · exact hmem
      · cases hlast
  exact ((h.mem_activeValidators a).mp hmem).2

end ValidatorSet

/-! ## The views of the weighted engine -/

namespace WPoaEngine

variable {Γ : Ctx} {T : PoaTiming} {e : WPoaEngine} {W : ValidatorWeights}

/-- The validator set is one that genesis entries and lifecycle calls make. -/
def Managed (e : WPoaEngine) : Prop :=
  ∃ entries config calls, e.validatorSet = ValidatorSet.after entries config calls

theorem Managed.keyed (h : e.Managed) : e.validatorSet.Keyed := by
  obtain ⟨entries, config, calls, hset⟩ := h
  rw [hset]
  exact TransitionSystem.invariant_run_of_step (fun set c h => (set.stepped_step c).keyed h)
    (ValidatorSet.keyed_fromGenesis entries config) calls

theorem mem_rotated (blockNumber : Nat) (a : Address) : a ∈ e.rotated Γ T blockNumber ↔ a ∈ e.authorities := by
  rw [rotated, mem_append, or_comm, ← mem_append, take_append_drop]

theorem length_rotated (blockNumber : Nat) : (e.rotated Γ T blockNumber).length = e.authorities.length := by
  rw [rotated, length_append, Nat.add_comm, ← length_append, take_append_drop]

theorem proposerForBlockInView_of_pos (hne : e.authorities ≠ []) (blockNumber : Nat) {view : Nat} (hview : 0 < view) :
    (e.rotated Γ T blockNumber)[view % e.authorities.length]? = some (e.proposerForBlockInView Γ T blockNumber view) := by
  have hrotated : e.rotated Γ T blockNumber ≠ [] := by
    intro hnil
    have hlength := length_rotated (Γ := Γ) (T := T) (e := e) blockNumber
    rw [hnil] at hlength
    exact hne (length_eq_zero_iff.mp hlength.symm)
  obtain ⟨a, -, hget⟩ := exists_getElem?_roundRobin hrotated view
  have hindex : (roundRobinIndex view (e.rotated Γ T blockNumber).length).getD 0 = view % e.authorities.length := by
    have hlength : e.authorities.length ≠ 0 := by simpa using hne
    rw [length_rotated, roundRobinIndex, if_neg hlength, Option.getD_some]
  rw [proposerForBlockInView, if_neg (by simp [hne]; omega), selectProposer, hget, ← hindex, hget, Option.getD_some]

theorem isActive_proposerForBlockInView (hkeyed : e.validatorSet.Keyed) (hne : e.authorities ≠ [])
    (hactive : ∀ a ∈ e.authorities, e.validatorSet.isActive a = true) (blockNumber view : Nat) :
    e.validatorSet.isActive (e.proposerForBlockInView Γ T blockNumber view) = true := by
  by_cases hview : view = 0
  · rw [proposerForBlockInView, if_pos (.inl hview), baseProposerForBlock]
    cases hproposer : e.validatorSet.weightedProposer blockNumber with
    | some a => exact hkeyed.isActive_weightedProposer hproposer
    | none => exact hactive _ (PoaConfig.proposerForBlock_mem Γ (c := e.poaConfig T) hne blockNumber)
  · have hget := proposerForBlockInView_of_pos (Γ := Γ) (T := T) hne blockNumber (Nat.pos_of_ne_zero hview)
    exact hactive _ ((mem_rotated blockNumber _).mp (mem_of_getElem? hget))

theorem verifyHeader_inView_ok_iff {view : Nat} {hdr : BlockHeader} :
    ((e.inView view).engine Γ T W).verifyHeader hdr = .ok () ↔
      e.validatorSet.isActive hdr.proposer = true ∧ hdr.proposer = e.proposerForBlockInView Γ T hdr.number view := by
  simp only [Engine.verifyHeader, bind_ok_iff, ensure_ok_iff, decide_eq_true_eq]
  exact ⟨fun ⟨_, hactive, hp⟩ => ⟨hactive, hp⟩, fun ⟨hactive, hp⟩ => ⟨(), hactive, hp⟩⟩

end WPoaEngine

end ShellChain
