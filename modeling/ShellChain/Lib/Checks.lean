import Mathlib.Tactic.Common

/-!
# Sequences of checks

A check fails with an error or lets the next step run. A sequence of checks in `Except` succeeds exactly when every check
holds and every step succeeds: the lemmas below take such a success apart, one step at a time.
-/

namespace Checks

open List

variable {ε α β : Type}

/-- The check of a condition. -/
def ensure (condition : Bool) (error : ε) : Except ε Unit :=
  if condition then .ok () else .error error

theorem ensure_ok_iff {condition : Bool} {error : ε} {u : Unit} : ensure condition error = .ok u ↔ condition = true := by
  unfold ensure
  split <;> simp_all

variable {b : β} {f : α → Except ε β} {x : Except ε α} {a : α} {l : List α} {l' : List β}

theorem bind_ok_iff : (x >>= f) = .ok b ↔ ∃ a, x = .ok a ∧ f a = .ok b := by
  cases x <;> simp [bind, Except.bind]

theorem pure_ok_iff {b : α} : (pure a : Except ε α) = .ok b ↔ a = b := by
  simp [pure, Except.pure]

theorem map_ok_iff {f : α → β} : x.map f = .ok b ↔ ∃ a, x = .ok a ∧ f a = b := by
  cases x <;> simp [Except.map]

theorem throw_ne_ok {e : ε} : (throw e : Except ε α) ≠ .ok a := by
  simp [throw, throwThe, MonadExceptOf.throw]

theorem isOk_iff : x.isOk = true ↔ ∃ a, x = .ok a := by
  cases x <;> simp [Except.isOk, Except.toBool]

variable {ε' : Type}

/-- A mapped error changes no success. -/
theorem mapError_ok_iff {f : ε → ε'} : x.mapError f = .ok a ↔ x = .ok a := by
  cases x <;> simp [Except.mapError]

/-- A success that is seen through a function of its value. -/
theorem exists_ok_of_toOption {f : α → β} (h : x.toOption.map f = some b) : ∃ a, x = .ok a ∧ f a = b := by
  cases x with
  | error e => simp [Except.toOption] at h
  | ok a => exact ⟨a, rfl, by simpa [Except.toOption] using h⟩

/-! ## A check of every element -/

/-- The results of a list are those of its elements, in order. -/
theorem getElem?_of_mapM_ok (h : l.mapM f = .ok l') {i : Nat} (ha : l[i]? = some a) :
    ∃ b, l'[i]? = some b ∧ f a = .ok b := by
  induction l generalizing l' i with
  | nil => simp at ha
  | cons x rest ih =>
    simp only [mapM_cons, bind_ok_iff, pure_ok_iff] at h
    obtain ⟨b, hb, bs, hbs, rfl⟩ := h
    cases i with
    | zero =>
      obtain rfl : x = a := by simpa using ha
      exact ⟨b, rfl, hb⟩
    | succ i => exact ih hbs (by simpa using ha)

/-- What is seen of the results of a list when the success of a step tells it. -/
theorem map_eq_of_mapM_ok {γ : Type} {g : β → γ} {k : α → γ} (h : ∀ a b, f a = .ok b → g b = k a)
    (hl : l.mapM f = .ok l') : l'.map g = l.map k := by
  induction l generalizing l' with
  | nil =>
    rw [mapM_nil, pure_ok_iff] at hl
    rw [← hl, map_nil, map_nil]
  | cons a l ih =>
    simp only [mapM_cons, bind_ok_iff, pure_ok_iff] at hl
    obtain ⟨b, hb, bs, hbs, rfl⟩ := hl
    rw [map_cons, map_cons, h a b hb, ih hbs]

theorem length_of_mapM_ok (h : l.mapM f = .ok l') : l'.length = l.length := by
  have hunits := map_eq_of_mapM_ok (g := fun _ => ()) (k := fun _ => ()) (fun _ _ _ => rfl) h
  simpa using congrArg length hunits

/-- A list of checks passes if each of them does. -/
theorem forM_ok {f : α → Except ε Unit} (h : l.forM f = .ok ()) : ∀ a ∈ l, f a = .ok () := by
  induction l with
  | nil =>
    intro a ha
    cases ha
  | cons x rest ih =>
    rw [forM_eq_forM, forM_cons] at h
    simp only [bind_ok_iff] at h
    obtain ⟨_, hx, hrest⟩ := h
    intro a ha
    rcases mem_cons.mp ha with rfl | ha
    · exact hx
    · exact ih hrest a ha

theorem forM_congr {f g : α → Except ε Unit} (h : ∀ a ∈ l, f a = g a) : l.forM f = l.forM g := by
  induction l with
  | nil => rfl
  | cons x rest ih =>
    rw [forall_mem_cons] at h
    simp only [forM_eq_forM, forM_cons, h.1] at ih ⊢
    rw [ih h.2]

/-! ## Folds that can fail -/

theorem foldlM_ok {f : β → α → Except ε β} {g : β → α → β} (h : ∀ b, ∀ a ∈ l, f b a = .ok (g b a)) (b : β) :
    l.foldlM f b = .ok (l.foldl g b) := by
  induction l generalizing b with
  | nil => rfl
  | cons a l ih =>
    rw [foldlM_cons, h b a mem_cons_self]
    exact ih (fun b x hx => h b x (.tail _ hx)) (g b a)

/-- An element at which no step succeeds fails the fold. -/
theorem foldlM_error {f : β → α → Except ε β} (ha : a ∈ l) (h : ∀ b b', f b a ≠ .ok b') (b b' : β) :
    l.foldlM f b ≠ .ok b' := by
  induction l generalizing b with
  | nil => cases ha
  | cons x l ih =>
    intro hrun
    rw [foldlM_cons, bind_ok_iff] at hrun
    obtain ⟨c, hx, hrest⟩ := hrun
    rcases mem_cons.mp ha with rfl | ha
    · exact h b c hx
    · exact ih ha c hrest

end Checks
