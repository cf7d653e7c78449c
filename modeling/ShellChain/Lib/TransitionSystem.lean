import Mathlib.Data.List.Basic

/-!
# Runs of a deterministic transition system

A component that takes inputs one at a time is a function from a state and an input to the next state. A run is the fold of
that function over a list of inputs. `Admits` says that every input of a run meets a condition in the state it arrives in,
so that an invariant which one step keeps under the condition is kept by the whole run.
-/

/-- A deterministic transition system: the state that follows a state and an input. -/
structure TransitionSystem (σ ι : Type) where
  /-- The state after one input. -/
  step : σ → ι → σ

namespace TransitionSystem

variable {σ ι : Type} (M : TransitionSystem σ ι)

/-- The state after a list of inputs. -/
def run (s : σ) (l : List ι) : σ :=
  l.foldl M.step s

@[simp] theorem run_nil (s : σ) : M.run s [] = s := rfl

@[simp] theorem run_cons (s : σ) (i : ι) (l : List ι) : M.run s (i :: l) = M.run (M.step s i) l := rfl

@[simp] theorem run_append (s : σ) (l l' : List ι) : M.run s (l ++ l') = M.run (M.run s l) l' :=
  List.foldl_append

/-- Every input of the run meets `C` in the state it arrives in. -/
def Admits (C : σ → ι → Prop) : σ → List ι → Prop
  | _, [] => True
  | s, i :: l => C s i ∧ Admits C (M.step s i) l

instance decidableAdmits (C : σ → ι → Prop) [∀ s i, Decidable (C s i)] : ∀ s l, Decidable (M.Admits C s l)
  | _, [] => .isTrue trivial
  | s, i :: l => @instDecidableAnd _ _ _ (decidableAdmits C (M.step s i) l)

variable {M} {C D : σ → ι → Prop} {I : σ → Prop} {l : List ι} {s : σ}

theorem admits_append {l' : List ι} : M.Admits C s (l ++ l') ↔ M.Admits C s l ∧ M.Admits C (M.run s l) l' := by
  induction l generalizing s with
  | nil => simp [Admits]
  | cons i l ih => simp [Admits, ih, and_assoc]

/-- A condition on the inputs alone is met in whatever state they arrive. -/
theorem admits_of_forall (h : ∀ i ∈ l, ∀ s, C s i) : M.Admits C s l := by
  induction l generalizing s with
  | nil => trivial
  | cons i l ih => exact ⟨h i List.mem_cons_self s, ih fun j hj => h j (List.mem_cons_of_mem i hj)⟩

/-- Two conditions on a run as one. -/
theorem admits_and : M.Admits (fun s i => C s i ∧ D s i) s l ↔ M.Admits C s l ∧ M.Admits D s l := by
  induction l generalizing s with
  | nil => simp [Admits]
  | cons i l ih =>
    simp only [Admits, ih]
    tauto

/-- The invariant rule: what holds at the start, and is kept by every step that meets the condition, holds after the run. -/
theorem invariant_run (hstep : ∀ s i, I s → C s i → I (M.step s i)) (h0 : I s) (hl : M.Admits C s l) : I (M.run s l) := by
  induction l generalizing s with
  | nil => exact h0
  | cons i l ih => exact ih (hstep s i h0 hl.1) hl.2

/-- The invariant rule when every step keeps the invariant. -/
theorem invariant_run_of_step (hstep : ∀ s i, I s → I (M.step s i)) (h0 : I s) (l : List ι) : I (M.run s l) :=
  List.foldlRecOn l M.step h0 fun s hs i _ => hstep s i hs

/-- What an invariant and a condition give at one step holds at every step of a run that meets the condition. -/
theorem admits_of_invariant (hstep : ∀ s i, I s → I (M.step s i)) (hCD : ∀ s i, I s → C s i → D s i) (h0 : I s)
    (hl : M.Admits C s l) : M.Admits D s l := by
  induction l generalizing s with
  | nil => trivial
  | cons i l ih => exact ⟨hCD s i h0 hl.1, ih (hstep s i h0) hl.2⟩

/-- Two conditions that agree under an invariant, which the first keeps, are met by the same runs. -/
theorem admits_iff_of_invariant (hiff : ∀ s i, I s → (C s i ↔ D s i)) (hstep : ∀ s i, I s → C s i → I (M.step s i))
    (h0 : I s) : M.Admits C s l ↔ M.Admits D s l := by
  induction l generalizing s with
  | nil => exact Iff.rfl
  | cons i l ih =>
    constructor
    · rintro ⟨hi, hl⟩
      exact ⟨(hiff s i h0).mp hi, (ih (hstep s i h0 hi)).mp hl⟩
    · rintro ⟨hi, hl⟩
      have hC := (hiff s i h0).mpr hi
      exact ⟨hC, (ih (hstep s i h0 hC)).mpr hl⟩

/-- When steps that meet the condition keep the invariant, and only they lead from it to a state with the property, the
property holds after every part of a run exactly when the run meets the condition. -/
theorem forall_take_iff_admits_of {P : σ → Prop} {D : ι → Prop} (hP : ∀ s, I s → P s)
    (hstep : ∀ s i, I s → D i → C s i → I (M.step s i)) (hC : ∀ s i, I s → D i → P (M.step s i) → C s i) (h0 : I s)
    (hl : ∀ i ∈ l, D i) : (∀ n, P (M.run s (l.take n))) ↔ M.Admits C s l := by
  induction l generalizing s with
  | nil => simp [Admits, hP s h0]
  | cons i l ih =>
    have hi := hl i List.mem_cons_self
    have ih := fun hnext => ih (s := M.step s i) hnext fun j hj => hl j (List.mem_cons_of_mem i hj)
    constructor
    · intro h
      have hc := hC s i h0 hi (by simpa using h 1)
      exact ⟨hc, (ih (hstep s i h0 hi hc)).mp fun n => by simpa using h (n + 1)⟩
    · rintro ⟨hc, hl⟩ n
      cases n with
      | zero => exact hP s h0
      | succ n => exact (ih (hstep s i h0 hi hc)).mpr hl n

/-- When a step from the invariant keeps it exactly under the condition, the invariant holds after every part of a run
exactly when the run meets the condition. -/
theorem forall_take_iff_admits (hstep : ∀ s i, I s → (I (M.step s i) ↔ C s i)) (h0 : I s) (l : List ι) :
    (∀ n, I (M.run s (l.take n))) ↔ M.Admits C s l :=
  forall_take_iff_admits_of (D := fun _ => True) (fun _ h => h) (fun s i h _ => (hstep s i h).mpr)
    (fun s i h _ => (hstep s i h).mp) h0 fun _ _ => trivial

/-! ## Runs with their history -/

/-- The system that also keeps the inputs it has taken, oldest first. -/
def withHistory (M : TransitionSystem σ ι) : TransitionSystem (σ × List ι) ι where
  step p i := (M.step p.1 i, p.2 ++ [i])

theorem run_withHistory (M : TransitionSystem σ ι) (s : σ) (h l : List ι) :
    M.withHistory.run (s, h) l = (M.run s l, h ++ l) := by
  induction l generalizing s h with
  | nil => simp
  | cons i l ih =>
    rw [run_cons, run_cons, show M.withHistory.step (s, h) i = (M.step s i, h ++ [i]) from rfl, ih, List.append_assoc,
      List.singleton_append]

/-- The system that also keeps the inputs it has taken with the states they arrived in, oldest first. -/
def withTrace (M : TransitionSystem σ ι) : TransitionSystem (σ × List (σ × ι)) ι where
  step p i := (M.step p.1 i, p.2 ++ [(p.1, i)])

/-- A condition on the state and the input does not see the trace. -/
theorem admits_withTrace {p : σ × List (σ × ι)} : M.withTrace.Admits (fun p i => C p.1 i) p l ↔ M.Admits C p.1 l := by
  induction l generalizing p with
  | nil => exact Iff.rfl
  | cons i l ih => exact and_congr_right fun _ => ih

theorem run_withTrace_fst (M : TransitionSystem σ ι) (p : σ × List (σ × ι)) (l : List ι) :
    (M.withTrace.run p l).1 = M.run p.1 l := by
  induction l generalizing p with
  | nil => rfl
  | cons i l ih => exact ih _

end TransitionSystem
