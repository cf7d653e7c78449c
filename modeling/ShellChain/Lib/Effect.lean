import Mathlib.Logic.Relation

/-!
# Computations whose writes survive a failure

An operation that writes its state in place and can return an error in between leaves what it wrote before the error. An
`Effect` is such an operation: it returns a value or an error, and in both cases a state. `KeepsState`, `Within`, `Total` and
`Atomic` are the properties that a caller asks of it, with the rules by which they compose.
-/

/-- A computation on a state that may fail; the state it leaves is returned in both cases. -/
def Effect (σ ε α : Type) : Type :=
  σ → Except ε α × σ

namespace Effect

variable {σ ε α β : Type}

instance : Monad (Effect σ ε) where
  pure a s := (.ok a, s)
  bind x f s := match x s with
    | (.ok a, s') => f a s'
    | (.error e, s') => (.error e, s')

/-- A value read from the state. -/
def read (g : σ → α) : Effect σ ε α :=
  fun s => (.ok (g s), s)

/-- A change of the state. -/
def write (g : σ → σ) : Effect σ ε Unit :=
  fun s => (.ok (), g s)

def fail (e : ε) : Effect σ ε α :=
  fun s => (.error e, s)

/-- A result that does not depend on the state. -/
def lift (x : Except ε α) : Effect σ ε α :=
  fun s => (x, s)

/-- A condition that is needed to go on. -/
def require (c : Bool) (e : ε) : Effect σ ε Unit :=
  if c then pure () else fail e

/-! ## Runs -/

section Runs

variable {s s' : σ} {x : Effect σ ε α} {f : α → Effect σ ε β}

theorem bind_run (x : Effect σ ε α) (f : α → Effect σ ε β) (s : σ) :
    (x >>= f) s = match x s with | (.ok a, t) => f a t | (.error e, t) => (.error e, t) := rfl

variable {a : α} {e : ε} {u : Unit}

theorem bind_of_ok (h : x s = (.ok a, s')) : (x >>= f) s = f a s' := by
  rw [bind_run, h]

theorem bind_of_error (h : x s = (.error e, s')) : (x >>= f) s = (.error e, s') := by
  rw [bind_run, h]

theorem bind_ok_iff {b : β} : (x >>= f) s = (.ok b, s') ↔ ∃ a t, x s = (.ok a, t) ∧ f a t = (.ok b, s') := by
  rw [bind_run]
  rcases x s with ⟨e | a, t⟩
  · simp
  · constructor
    · exact fun h => ⟨a, t, rfl, h⟩
    · rintro ⟨_, _, ⟨⟩, h⟩
      exact h

theorem bind_error_iff : (x >>= f) s = (.error e, s') ↔
      x s = (.error e, s') ∨ ∃ a t, x s = (.ok a, t) ∧ f a t = (.error e, s') := by
  rw [bind_run]
  rcases x s with ⟨e' | a, t⟩
  · simp
  · constructor
    · exact fun h => .inr ⟨a, t, rfl, h⟩
    · rintro (h | ⟨_, _, ⟨⟩, h⟩)
      · cases h
      · exact h

theorem bind_assoc {γ : Type} (x : Effect σ ε α) (f : α → Effect σ ε β) (k : β → Effect σ ε γ) :
    ((x >>= f) >>= k) = x >>= fun a => f a >>= k := by
  funext s
  rw [bind_run, bind_run, bind_run]
  rcases x s with ⟨e | a, t⟩
  · rfl
  · rfl

theorem lift_ok_bind (a : α) (f : α → Effect σ ε β) : (lift (.ok a) >>= f) = f a := rfl

theorem lift_error_bind (e : ε) (f : α → Effect σ ε β) : (lift (.error e) >>= f) = fail e := rfl

theorem read_bind_run (g : σ → α) (f : α → Effect σ ε β) (s : σ) : (read g >>= f) s = f (g s) s := rfl

theorem require_bind (c : Bool) (e : ε) (f : Unit → Effect σ ε α) : (require c e >>= f) = if c then f () else fail e := by
  cases c
  · rfl
  · rfl

/-- A result that is only rewritten leaves the state of the effect. -/
theorem bind_pure_snd (x : Effect σ ε α) (g : α → β) (s : σ) : ((x >>= fun a => pure (g a)) s).2 = (x s).2 := by
  rw [bind_run]
  rcases x s with ⟨e | a, t⟩
  · rfl
  · rfl

@[simp] theorem pure_ok_iff {b : α} : (pure a : Effect σ ε α) s = (.ok b, s') ↔ a = b ∧ s = s' := by
  change ((.ok a, s) : Except ε α × σ) = (.ok b, s') ↔ _
  simp

@[simp] theorem read_ok_iff {g : σ → α} : (read g : Effect σ ε α) s = (.ok a, s') ↔ g s = a ∧ s = s' := by
  simp [read]

@[simp] theorem write_ok_iff {g : σ → σ} : (write g : Effect σ ε Unit) s = (.ok u, s') ↔ g s = s' := by
  simp [write]

@[simp] theorem lift_ok_iff {y : Except ε α} : (lift y : Effect σ ε α) s = (.ok a, s') ↔ y = .ok a ∧ s = s' := by
  simp [lift]

@[simp] theorem fail_ok_iff : (fail e : Effect σ ε α) s = (.ok a, s') ↔ False := by
  simp [fail]

@[simp] theorem require_ok_iff {c : Bool} : (require c e : Effect σ ε Unit) s = (.ok u, s') ↔ c = true ∧ s = s' := by
  cases c
  · simp [require]
  · simp [require]

end Runs

/-! ## Properties of an effect -/

/-- The effect only reads. -/
def KeepsState (x : Effect σ ε α) : Prop :=
  ∀ s, (x s).2 = s

/-- The effect moves the state along a relation, also when it fails. -/
def Within (R : σ → σ → Prop) (x : Effect σ ε α) : Prop :=
  ∀ s, R s (x s).2

/-- A relation that no step and two steps in a row keep. -/
class StepRelation (R : σ → σ → Prop) : Prop where
  refl : ∀ s, R s s
  trans : ∀ {s t u}, R s t → R t u → R s u

/-- A part of the state is as it was. -/
def Same {τ : Type} (g : σ → τ) (s t : σ) : Prop :=
  g t = g s

instance {τ : Type} (g : σ → τ) : StepRelation (Same g) where
  refl _ := rfl
  trans h h' := h'.trans h

instance {R : σ → σ → Prop} : StepRelation (Relation.ReflTransGen R) where
  refl _ := .refl
  trans := .trans

variable {s t : σ} {x : Effect σ ε α} {e : ε} {g : α → β}

/-- Steps in a row are along every relation that each of them is along. -/
theorem StepRelation.of_steps {R S : σ → σ → Prop} [StepRelation S] (h : ∀ s t, R s t → S s t)
    (hst : Relation.ReflTransGen R s t) : S s t := by
  induction hst with
  | refl => exact StepRelation.refl s
  | tail _ hstep ih => exact StepRelation.trans ih (h _ _ hstep)

/-- The effect never fails. -/
def Succeeds (x : Effect σ ε α) : Prop :=
  ∀ s, ∃ a, (x s).1 = .ok a

/-- A failure leaves the state as it was. -/
def FailsClean (x : Effect σ ε α) : Prop :=
  ∀ s e, (x s).1 = .error e → (x s).2 = s

/-- The effect never fails, and moves the state along a relation. -/
structure Total (R : σ → σ → Prop) (x : Effect σ ε α) : Prop where
  succeeds : x.Succeeds
  within : x.Within R

/-- The effect moves the state along a relation, or fails and leaves it. -/
structure Atomic (R : σ → σ → Prop) (x : Effect σ ε α) : Prop where
  failsClean : x.FailsClean
  within : x.Within R

theorem KeepsState.eq_of_ok {a : α} (hx : x.KeepsState) (h : x s = (.ok a, t)) : s = t := by
  have := hx s
  rw [h] at this
  exact this.symm

theorem KeepsState.eq_of_error (hx : x.KeepsState) (h : x s = (.error e, t)) : s = t := by
  have := hx s
  rw [h] at this
  exact this.symm

variable {f : α → Effect σ ε β}

/-- What only reads fails, or is followed in the state it was run in. -/
theorem KeepsState.bind_cases {y : Except ε β} (hx : x.KeepsState) (h : (x >>= f) s = (y, t)) :
    (∃ e, x s = (.error e, s) ∧ y = .error e ∧ t = s) ∨ ∃ a, x s = (.ok a, s) ∧ f a s = (y, t) := by
  rcases hs : x s with ⟨e | a, s'⟩
  · obtain rfl := hx.eq_of_error hs
    obtain ⟨rfl, rfl⟩ := Prod.mk.inj ((bind_of_error hs).symm.trans h)
    exact .inl ⟨e, rfl, rfl, rfl⟩
  · obtain rfl := hx.eq_of_ok hs
    exact .inr ⟨a, rfl, (bind_of_ok hs).symm.trans h⟩

theorem keepsState_pure (a : α) : (pure a : Effect σ ε α).KeepsState :=
  fun _ => rfl

theorem keepsState_read (g : σ → α) : (read g : Effect σ ε α).KeepsState :=
  fun _ => rfl

theorem keepsState_fail (e : ε) : (fail e : Effect σ ε α).KeepsState :=
  fun _ => rfl

theorem keepsState_lift (y : Except ε α) : (lift y : Effect σ ε α).KeepsState :=
  fun _ => rfl

theorem keepsState_require (c : Bool) (e : ε) : (require c e : Effect σ ε Unit).KeepsState := by
  cases c
  · exact keepsState_fail e
  · exact keepsState_pure ()

section Within

variable {R : σ → σ → Prop} {x : Effect σ ε α} {f : α → Effect σ ε β}

theorem within_write {g : σ → σ} (h : ∀ s, R s (g s)) : (write g : Effect σ ε Unit).Within R :=
  h

variable {y : Except ε α}

theorem Within.of_run (hx : x.Within R) (h : x s = (y, t)) : R s t := by
  have := hx s
  rw [h] at this
  exact this

theorem Within.mono {R' : σ → σ → Prop} (hx : x.Within R) (h : ∀ s t, R s t → R' s t) : x.Within R' :=
  fun s => h _ _ (hx s)

variable [StepRelation R]

theorem KeepsState.within (h : x.KeepsState) : x.Within R := by
  intro s
  rw [h s]
  exact StepRelation.refl s

theorem Within.bind (hx : x.Within R) (hf : ∀ a, (f a).Within R) : (x >>= f).Within R := by
  intro s
  rcases hrun : x s with ⟨e | a, t⟩
  · rw [bind_of_error hrun]
    exact hx.of_run hrun
  · rw [bind_of_ok hrun]
    exact StepRelation.trans (hx.of_run hrun) (hf a t)

theorem Within.pure (a : α) : (pure a : Effect σ ε α).Within R :=
  (keepsState_pure a).within

theorem Within.fail (e : ε) : (fail e : Effect σ ε α).Within R :=
  (keepsState_fail e).within

theorem Within.check (hx : x.KeepsState) (hf : ∀ a, (f a).Within R) : (x >>= f).Within R :=
  hx.within.bind hf

theorem Within.read {g : σ → α} (hf : ∀ a, (f a).Within R) : (read g >>= f).Within R :=
  .check (keepsState_read g) hf

theorem Within.lift (hf : ∀ a, (f a).Within R) : (lift y >>= f).Within R :=
  .check (keepsState_lift y) hf

theorem Within.require {c : Bool} {k : Unit → Effect σ ε β} (hk : ∀ u, (k u).Within R) : (require c e >>= k).Within R :=
  .check (keepsState_require c e) hk

theorem Within.map (hx : x.Within R) (g : α → β) : (g <$> x).Within R :=
  hx.bind fun _ => .pure _

end Within

theorem KeepsState.bind (hx : x.KeepsState) (hf : ∀ a, (f a).KeepsState) : (x >>= f).KeepsState :=
  Within.bind (R := Same id) hx hf

theorem KeepsState.require {c : Bool} {k : Unit → Effect σ ε β} (hk : ∀ u, (k u).KeepsState) :
    (require c e >>= k).KeepsState :=
  (keepsState_require c e).bind hk

theorem KeepsState.failsClean (h : x.KeepsState) : x.FailsClean :=
  fun s _ _ => h s

theorem FailsClean.eq_of_error (hx : x.FailsClean) (h : x s = (.error e, t)) : t = s := by
  have := hx s e (by rw [h])
  rwa [h] at this

/-- A result that is only rewritten. -/
theorem bind_pure_of_run {y : Except ε α} (h : x s = (y, t)) : (x >>= fun a => pure (g a)) s = (y.map g, t) := by
  rw [bind_run, h]
  cases y with
  | error e => rfl
  | ok a => rfl

/-- A result that is only rewritten fails as the effect does. -/
theorem bind_pure_error_iff : (x >>= fun a => pure (g a)) s = (.error e, t) ↔ x s = (.error e, t) := by
  rw [bind_error_iff]
  constructor
  · rintro (h | ⟨a, s', -, h⟩)
    · exact h
    · cases congrArg Prod.fst h
  · exact .inl

section Total

variable {R : σ → σ → Prop} {x : Effect σ ε α} {f : α → Effect σ ε β}

theorem Total.write {g : σ → σ} (h : ∀ s, R s (g s)) : (write g : Effect σ ε Unit).Total R :=
  ⟨fun _ => ⟨(), rfl⟩, within_write h⟩

variable [StepRelation R]

theorem Total.pure (a : α) : (pure a : Effect σ ε α).Total R :=
  ⟨fun _ => ⟨a, rfl⟩, .pure a⟩

theorem Total.read (g : σ → α) : (read g : Effect σ ε α).Total R :=
  ⟨fun s => ⟨g s, rfl⟩, (keepsState_read g).within⟩

theorem Total.bind (hx : x.Total R) (hf : ∀ a, (f a).Total R) : (x >>= f).Total R := by
  refine ⟨fun s => ?_, hx.within.bind fun a => (hf a).within⟩
  obtain ⟨a, ha⟩ := hx.succeeds s
  rw [bind_of_ok (Prod.ext ha rfl)]
  exact (hf a).succeeds _

end Total

section Atomic

variable {R : σ → σ → Prop} {x : Effect σ ε α} {f : α → Effect σ ε β}

theorem Total.atomic (hx : x.Total R) : x.Atomic R := by
  refine ⟨fun s e he => ?_, hx.within⟩
  obtain ⟨a, ha⟩ := hx.succeeds s
  rw [ha] at he
  cases he

theorem Atomic.write {g : σ → σ} (h : ∀ s, R s (g s)) : (write g : Effect σ ε Unit).Atomic R :=
  (Total.write h).atomic

theorem FailsClean.atomic (hx : x.FailsClean) : x.Atomic (Same fun _ : σ => ()) :=
  ⟨hx, fun _ => rfl⟩

variable [StepRelation R]

theorem KeepsState.atomic (hx : x.KeepsState) : x.Atomic R :=
  ⟨hx.failsClean, hx.within⟩

theorem Atomic.pure (a : α) : (pure a : Effect σ ε α).Atomic R :=
  (Total.pure a).atomic

theorem Atomic.fail (e : ε) : (fail e : Effect σ ε α).Atomic R :=
  (keepsState_fail e).atomic

/-- What only reads may come before what is atomic, and passes on what it read. -/
theorem Atomic.check_ok (hx : x.KeepsState) (hf : ∀ s a, x s = (.ok a, s) → (f a).Atomic R) : (x >>= f).Atomic R := by
  refine ⟨fun s e he => ?_, fun s => ?_⟩
  · rcases hrun : (x >>= f) s with ⟨y, t⟩
    rcases hx.bind_cases hrun with ⟨_, -, -, rfl⟩ | ⟨a, ha, hs⟩
    · rfl
    · rw [hrun, ← hs] at he
      rw [← hs]
      exact (hf s a ha).failsClean s e he
  · rcases hrun : (x >>= f) s with ⟨y, t⟩
    rcases hx.bind_cases hrun with ⟨_, -, -, rfl⟩ | ⟨a, ha, hs⟩
    · exact StepRelation.refl t
    · rw [← hs]
      exact (hf s a ha).within s

theorem Atomic.check (hx : x.KeepsState) (hf : ∀ a, (f a).Atomic R) : (x >>= f).Atomic R :=
  .check_ok hx fun _ a _ => hf a

theorem Atomic.read {g : σ → α} (hf : ∀ a, (f a).Atomic R) : (read g >>= f).Atomic R :=
  .check (keepsState_read g) hf

theorem Atomic.lift {y : Except ε α} (hf : ∀ a, y = .ok a → (f a).Atomic R) : (lift y >>= f).Atomic R :=
  .check_ok (keepsState_lift y) fun _ a h => hf a (lift_ok_iff.mp h).1

theorem Atomic.require {c : Bool} {k : Unit → Effect σ ε β} (hk : c = true → (k ()).Atomic R) :
    (require c e >>= k).Atomic R :=
  .check_ok (keepsState_require c e) fun _ _ h => hk (require_ok_iff.mp h).1

/-- What never fails may come after what is atomic. -/
theorem Atomic.bind_total (hx : x.Atomic R) (hf : ∀ a, (f a).Total R) : (x >>= f).Atomic R := by
  refine ⟨fun s e he => ?_, hx.within.bind fun a => (hf a).within⟩
  rcases hrun : x s with ⟨e' | a, t⟩
  · rw [bind_of_error hrun]
    exact hx.failsClean.eq_of_error hrun
  · rw [bind_of_ok hrun] at he
    obtain ⟨b, hb⟩ := (hf a).succeeds t
    rw [hb] at he
    cases he

end Atomic

end Effect
