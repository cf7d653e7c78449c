import Mathlib.Algebra.Order.BigOperators.Group.Finset

/-!
# Visiting what can be reached

A worklist visits a finite graph: the top of the stack is marked and its successors are pushed, unless it is marked already.
The number of steps is bounded by the edges, so with enough fuel the marked nodes are exactly those that can be reached.
-/

namespace Worklist

open List

variable {α : Type} [DecidableEq α] {next : α → List α}

/-- The nodes marked after at most `fuel` steps from a stack and the nodes marked before. -/
def visit (next : α → List α) : Nat → List α → List α → List α
  | 0, _, marked => marked
  | _ + 1, [], marked => marked
  | fuel + 1, x :: stack, marked =>
    if x ∈ marked then visit next fuel stack marked else visit next fuel (next x ++ stack) (x :: marked)

/-- A node can be reached from another along the edges. -/
def Reaches (next : α → List α) : α → α → Prop :=
  Relation.ReflTransGen fun a b => b ∈ next a

theorem subset_visit (fuel : Nat) (stack marked : List α) : marked ⊆ visit next fuel stack marked := by
  induction fuel generalizing stack marked with
  | zero => exact List.Subset.refl _
  | succ fuel ih =>
    cases stack with
    | nil => exact List.Subset.refl _
    | cons x stack =>
      unfold visit
      split_ifs
      · exact ih stack marked
      · exact fun y hy => ih _ _ (mem_cons_of_mem _ hy)

variable {fuel : Nat} {marked : List α} {nodes : Finset α}

/-- What is visited was marked before or can be reached from the stack. -/
theorem reaches_of_mem_visit {stack : List α} {y : α} (hy : y ∈ visit next fuel stack marked) :
    y ∈ marked ∨ ∃ x ∈ stack, Reaches next x y := by
  induction fuel generalizing stack marked with
  | zero => exact .inl hy
  | succ fuel ih =>
    cases stack with
    | nil => exact .inl hy
    | cons x stack =>
      unfold visit at hy
      split_ifs at hy with hx
      · rcases ih hy with hold | ⟨z, hz, hreach⟩
        · exact .inl hold
        · exact .inr ⟨z, mem_cons_of_mem _ hz, hreach⟩
      · rcases ih hy with hold | ⟨z, hz, hreach⟩
        · rcases mem_cons.mp hold with rfl | hold
          · exact .inr ⟨y, mem_cons_self .., .refl⟩
          · exact .inl hold
        · rcases mem_append.mp hz with hz | hz
          · exact .inr ⟨x, mem_cons_self .., .head hz hreach⟩
          · exact .inr ⟨z, mem_cons_of_mem _ hz, hreach⟩

/-- The steps that are left: one for each node on the stack and one for each edge from a node that is not marked. -/
def budget (next : α → List α) (nodes : Finset α) (stack marked : List α) : Nat :=
  stack.length + ∑ x ∈ nodes \ marked.toFinset, (next x).length

theorem budget_push (next : α → List α) (stack : List α) (hx : x ∈ nodes) (hnew : x ∉ marked) :
    budget next nodes (next x ++ stack) (x :: marked) + 1 = budget next nodes (x :: stack) marked := by
  have hmem : x ∈ nodes \ marked.toFinset := Finset.mem_sdiff.mpr ⟨hx, fun h => hnew (mem_toFinset.mp h)⟩
  have hrest : nodes \ (x :: marked).toFinset = (nodes \ marked.toFinset).erase x := by
    rw [toFinset_cons, Finset.sdiff_insert]
  have hsum := Finset.add_sum_erase (nodes \ marked.toFinset) (fun y => (next y).length) hmem
  simp only [budget, hrest, length_append, length_cons]
  omega

/-- With enough fuel what is visited contains the stack and is closed under the edges. -/
theorem closed_visit (hnodes : ∀ x ∈ nodes, ∀ y ∈ next x, y ∈ nodes) (fuel : Nat) (stack marked : List α)
    (hstack : ∀ x ∈ stack, x ∈ nodes) (hmarked : ∀ x ∈ marked, ∀ y ∈ next x, y ∈ marked ∨ y ∈ stack)
    (hfuel : budget next nodes stack marked ≤ fuel) : (∀ x ∈ stack, x ∈ visit next fuel stack marked) ∧
      ∀ x ∈ visit next fuel stack marked, ∀ y ∈ next x, y ∈ visit next fuel stack marked := by
  induction fuel generalizing stack marked with
  | zero =>
    obtain rfl : stack = [] := by
      have hzero := Nat.le_zero.mp hfuel
      exact length_eq_zero_iff.mp (Nat.eq_zero_of_add_eq_zero_right hzero)
    exact ⟨fun x hx => absurd hx not_mem_nil, fun x hx y hy => (hmarked x hx y hy).resolve_right not_mem_nil⟩
  | succ fuel ih =>
    cases stack with
    | nil =>
      exact ⟨fun x hx => absurd hx not_mem_nil, fun x hx y hy => (hmarked x hx y hy).resolve_right not_mem_nil⟩
    | cons x stack =>
      rw [forall_mem_cons] at hstack
      unfold visit
      split_ifs with hx
      · obtain ⟨hpushed, hclosed⟩ := ih stack marked hstack.2
          (fun z hz y hy => (hmarked z hz y hy).elim .inl fun h =>
            (mem_cons.mp h).elim (fun h => .inl (h ▸ hx)) .inr)
          (by simp only [budget, length_cons] at hfuel ⊢; omega)
        exact ⟨forall_mem_cons.mpr ⟨subset_visit _ _ _ hx, hpushed⟩, hclosed⟩
      · have hbudget := budget_push next stack hstack.1 hx
        obtain ⟨hpushed, hclosed⟩ := ih (next x ++ stack) (x :: marked)
          (fun z hz => (mem_append.mp hz).elim (hnodes x hstack.1 z) (hstack.2 z))
          (fun z hz y hy => by
            rcases mem_cons.mp hz with rfl | hz
            · exact .inr (mem_append_left _ hy)
            · rcases hmarked z hz y hy with hy | hy
              · exact .inl (mem_cons_of_mem _ hy)
              · rcases mem_cons.mp hy with rfl | hy
                · exact .inl (mem_cons_self ..)
                · exact .inr (mem_append_right _ hy))
          (by omega)
        refine ⟨forall_mem_cons.mpr ⟨subset_visit _ _ _ (mem_cons_self ..), fun z hz => ?_⟩, hclosed⟩
        exact hpushed z (mem_append_right _ hz)

/-- A visit from one node with a step for each edge and one more finds exactly what can be reached. -/
theorem mem_visit_iff (nodes : Finset α) (hnodes : ∀ x ∈ nodes, ∀ y ∈ next x, y ∈ nodes) {root : α} (hroot : root ∈ nodes)
    (hfuel : 1 + ∑ x ∈ nodes, (next x).length ≤ fuel) : x ∈ visit next fuel [root] [] ↔ Reaches next root x := by
  constructor
  · intro hx
    rcases reaches_of_mem_visit hx with hx | ⟨z, hz, hreach⟩
    · cases hx
    · exact mem_singleton.mp hz ▸ hreach
  · intro hreach
    obtain ⟨hpushed, hclosed⟩ := closed_visit hnodes fuel [root] [] (by simpa using hroot) (by simp)
      (by simpa [budget] using hfuel)
    induction hreach with
    | refl => exact hpushed root (mem_singleton_self _)
    | tail _ hedge ih => exact hclosed _ ih _ hedge

end Worklist
