import Mathlib.Data.Nat.Periodic

/-!
# Weighted rotation

A list of members with weights cuts the slots below its total into consecutive ranges, one for each member and as long as its
weight. When the slot of a turn is the turn modulo the total, every run of as many turns as the total gives each member as
many turns as its weight, wherever the run begins.
-/

namespace WeightedRotation

variable {α : Type}

/-- The sum of the weights. -/
def total (l : List (α × Nat)) : Nat :=
  (l.map Prod.snd).sum

/-- The member whose range holds the slot. -/
def pick : List (α × Nat) → Nat → Option α
  | [], _ => none
  | (a, w) :: rest, slot => if slot < w then some a else pick rest (slot - w)

@[simp] theorem total_nil : total ([] : List (α × Nat)) = 0 := rfl

@[simp] theorem total_cons (a : α) (w : Nat) (rest : List (α × Nat)) : total ((a, w) :: rest) = w + total rest := by
  simp [total]

variable {l : List (α × Nat)} {slot w : Nat} {a : α}

/-- Every slot below the total is in the range of a member. -/
theorem exists_pick (h : slot < total l) : ∃ a w, (a, w) ∈ l ∧ pick l slot = some a := by
  induction l generalizing slot with
  | nil => simp at h
  | cons e rest ih =>
    obtain ⟨a, w⟩ := e
    by_cases hslot : slot < w
    · exact ⟨a, w, List.mem_cons_self, if_pos hslot⟩
    · rw [total_cons] at h
      have hrest : slot - w < total rest := by omega
      obtain ⟨b, v, hmem, hpick⟩ := ih hrest
      exact ⟨b, v, List.mem_cons_of_mem _ hmem, (if_neg hslot).trans hpick⟩

theorem pick_mem (h : pick l slot = some a) : a ∈ l.map Prod.fst := by
  induction l generalizing slot with
  | nil => simp [pick] at h
  | cons e rest ih =>
    rw [pick] at h
    split at h
    · simp_all
    · exact List.mem_cons_of_mem _ (ih h)

variable [DecidableEq α]

/-- The slots of a member that the list does not name. -/
theorem count_pick_of_not_mem (h : a ∉ l.map Prod.fst) (n : Nat) : n.count (fun slot => pick l slot = some a) = 0 := by
  rw [Nat.count_eq_card_filter_range, Finset.card_eq_zero, Finset.filter_eq_empty_iff]
  intro slot _ hpick
  exact h (pick_mem hpick)

/-- Of the slots below the total, a member has as many as its weight. -/
theorem count_pick (hl : (l.map Prod.fst).Nodup) (h : (a, w) ∈ l) :
    (total l).count (fun slot => pick l slot = some a) = w := by
  induction l with
  | nil => simp at h
  | cons e rest ih =>
    obtain ⟨b, v⟩ := e
    rw [List.map_cons, List.nodup_cons] at hl
    have hlater : ∀ slot, (pick ((b, v) :: rest) (v + slot) = some a) = (pick rest slot = some a) := by
      intro slot
      simp [pick]
    rw [total_cons, Nat.count_add]
    simp only [hlater]
    rcases List.mem_cons.mp h with heq | hmem
    · -- the first range is the member's, and no later one is
      obtain ⟨rfl, rfl⟩ := Prod.mk.inj heq
      have hfirst : w.count (fun slot => pick ((a, w) :: rest) slot = some a) = w := by
        rw [Nat.count_iff_forall]
        intro slot hslot
        exact if_pos hslot
      rw [hfirst, count_pick_of_not_mem hl.1, Nat.add_zero]
    · have hne : b ≠ a := by
        rintro rfl
        exact hl.1 (List.mem_map.mpr ⟨_, hmem, rfl⟩)
      have hfirst : v.count (fun slot => pick ((b, v) :: rest) slot = some a) = 0 := by
        rw [Nat.count_iff_forall_not]
        intro slot hslot hpick
        rw [pick, if_pos hslot] at hpick
        exact hne (Option.some.inj hpick)
      rw [hfirst, ih hl.2 hmem, Nat.zero_add]

/-- Of as many consecutive turns as the total, a member has as many as its weight. -/
theorem card_turns (hl : (l.map Prod.fst).Nodup) (h : (a, w) ∈ l) (first : Nat) :
    ((Finset.Ico first (first + total l)).filter fun turn => pick l (turn % total l) = some a).card = w := by
  have hperiodic : Function.Periodic (fun turn => pick l (turn % total l) = some a) (total l) := by
    intro turn
    simp
  rw [Nat.filter_Ico_card_eq_of_periodic first (total l) _ hperiodic, ← count_pick hl h]
  rw [Nat.count_eq_card_filter_range, Nat.count_eq_card_filter_range]
  congr 1
  refine Finset.filter_congr fun turn hturn => ?_
  rw [Nat.mod_eq_of_lt (Finset.mem_range.mp hturn)]

end WeightedRotation
