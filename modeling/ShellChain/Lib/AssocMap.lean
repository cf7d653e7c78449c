import Mathlib.Data.List.AList

/-!
# Finite maps as association lists

Operations of a hash map that `AList` does not have: the number of entries, keeping the entries that pass a test, and
removing a list of keys, each with what a lookup then finds.
-/

namespace AList

variable {α β : Type} [DecidableEq α]

/-- The number of entries. -/
def size (m : AList fun _ : α => β) : Nat :=
  m.entries.length

/-- The entries whose key and value pass the test. -/
def retain (p : α → β → Bool) (m : AList fun _ : α => β) : AList fun _ : α => β :=
  ⟨m.entries.filter fun e => p e.1 e.2, m.nodupKeys.sublist List.filter_sublist⟩

/-- The map without the keys of a list. -/
def eraseAll (ks : List α) (m : AList fun _ : α => β) : AList fun _ : α => β :=
  ks.foldl (fun m k => m.erase k) m

/-- The map with a function applied to every value. -/
def mapVal {γ : Type} (f : β → γ) (m : AList fun _ : α => β) : AList fun _ : α => γ :=
  ⟨m.entries.map fun e => ⟨e.1, f e.2⟩, List.NodupKeys.map₂ (fun _ => f) m.entries m.nodupKeys⟩

theorem size_insert_of_mem {m : AList fun _ : α => β} {a : α} {b : β} (h : a ∈ m) : (m.insert a b).size = m.size := by
  have hkeys := congrArg List.length (keys_insert (b := b) m (a := a))
  rw [List.length_cons, List.length_erase_add_one (mem_keys.mpr h)] at hkeys
  simpa only [size, keys, List.keys, List.length_map] using hkeys

theorem lookup_mapVal {γ : Type} (f : β → γ) (m : AList fun _ : α => β) (a : α) :
    (m.mapVal f).lookup a = (m.lookup a).map f :=
  List.dlookup_map₂ (f := fun _ => f) a

/-- The map with a function of the key applied to every value. -/
def mapWithKey (f : α → β → β) (m : AList fun _ : α => β) : AList fun _ : α => β :=
  ⟨m.entries.map fun e => ⟨e.1, f e.1 e.2⟩, List.NodupKeys.map₂ f m.entries m.nodupKeys⟩

theorem lookup_mapWithKey (f : α → β → β) (m : AList fun _ : α => β) (a : α) :
    (m.mapWithKey f).lookup a = (m.lookup a).map (f a) :=
  List.dlookup_map₂ a

variable {a : α} {b : β} {m : AList fun _ : α => β}

theorem lookup_insert_eq_some {k : α} {v : β} :
    (m.insert k v).lookup a = some b ↔ (a = k ∧ v = b) ∨ (a ≠ k ∧ m.lookup a = some b) := by
  by_cases h : a = k
  · subst h
    simp [lookup_insert]
  · simp [lookup_insert_ne h, h]

theorem lookup_retain (p : α → β → Bool) (m : AList fun _ : α => β) (a : α) :
    (m.retain p).lookup a = (m.lookup a).filter (p a) := by
  ext b
  have hm : (m.retain p).lookup a = some b ↔ m.lookup a = some b ∧ p a b := by
    rw [← Option.mem_def, ← Option.mem_def, mem_lookup_iff, mem_lookup_iff]
    simp [retain]
  rw [hm, Option.filter_eq_some_iff]

theorem lookup_eraseAll (ks : List α) (m : AList fun _ : α => β) (a : α) :
    (m.eraseAll ks).lookup a = if a ∈ ks then none else m.lookup a := by
  induction ks generalizing m with
  | nil => rfl
  | cons k ks ih =>
    rw [eraseAll, List.foldl_cons, ← eraseAll, ih]
    by_cases hk : a = k
    · subst hk
      simp
    · simp [hk, lookup_erase_ne hk]

theorem lookup_retain_eq_some {p : α → β → Bool} : (m.retain p).lookup a = some b ↔ m.lookup a = some b ∧ p a b = true := by
  rw [lookup_retain, Option.filter_eq_some_iff]

/-! ## Folding over the entries -/

section Fold

variable {γ δ : Type}

omit [DecidableEq α] in
/-- A fold over a list whose step changes only what is seen at the key of its element; no key comes twice. -/
theorem view_foldl_list {ε : Type} (key : ε → α) (step : γ → ε → γ) (view : γ → α → δ) (change : ε → δ → δ)
    (hself : ∀ g e, view (step g e) (key e) = change e (view g (key e)))
    (hother : ∀ g e a, a ≠ key e → view (step g e) a = view g a) (l : List ε)
    (hdistinct : l.Pairwise fun x y => key x ≠ key y) (g : γ) (a : α) :
    (∀ e ∈ l, key e = a → view (l.foldl step g) a = change e (view g a)) ∧
      ((∀ e ∈ l, key e ≠ a) → view (l.foldl step g) a = view g a) := by
  induction l generalizing g with
  | nil => exact ⟨fun e h => (List.not_mem_nil h).elim, fun _ => rfl⟩
  | cons e l ih =>
    obtain ⟨hhead, htail⟩ := List.pairwise_cons.mp hdistinct
    obtain ⟨hmem, hnot⟩ := ih htail (step g e)
    rw [List.foldl_cons]
    constructor
    · intro x hx hkey
      subst hkey
      rcases List.mem_cons.mp hx with rfl | hx
      · rw [hnot fun y hy => (hhead y hy).symm, hself]
      · rw [hmem x hx rfl, hother _ _ _ (hhead x hx).symm]
    · intro hne
      rw [hnot fun y hy => hne y (.tail _ hy)]
      exact hother _ _ _ (hne e List.mem_cons_self).symm

/-- A fold whose step at a key changes only what is seen at that key. -/
theorem view_foldl (step : γ → α → β → γ) (view : γ → α → δ) (change : α → β → δ → δ)
    (hself : ∀ g a b, view (step g a b) a = change a b (view g a))
    (hother : ∀ g a b a', a' ≠ a → view (step g a b) a' = view g a') (m : AList fun _ : α => β) (g : γ) (a : α) :
    view (m.entries.foldl (fun g e => step g e.1 e.2) g) a =
      (m.lookup a).elim (view g a) fun b => change a b (view g a) := by
  obtain ⟨hmem, hnot⟩ := view_foldl_list Sigma.fst (fun g e => step g e.1 e.2) view (fun e => change e.1 e.2)
    (fun g e => hself g e.1 e.2) (fun g e => hother g e.1 e.2) m.entries
    (List.nodupKeys_iff_pairwise.mp m.nodupKeys) g a
  cases ha : m.lookup a with
  | none =>
    refine hnot fun e he heq => ?_
    have hfound : m.lookup e.1 = some e.2 := mem_lookup_iff.mpr he
    rw [heq, ha] at hfound
    cases hfound
  | some b => exact hmem ⟨a, b⟩ (mem_lookup_iff.mp ha) rfl

/-- The map with the keys renamed by an injective function. -/
def mapKeys [DecidableEq γ] (f : α → γ) (m : AList fun _ : α => β) : AList fun _ : γ => β :=
  m.entries.foldl (fun renamed e => renamed.insert (f e.1) e.2) ∅

variable [DecidableEq γ] {f : α → γ}

theorem lookup_mapKeys (hinj : Function.Injective f) (m : AList fun _ : α => β) (a : α) :
    (m.mapKeys f).lookup (f a) = m.lookup a := by
  have hview := view_foldl (fun renamed a b => renamed.insert (f a) b)
    (fun (renamed : AList fun _ : γ => β) a => renamed.lookup (f a)) (fun _ b _ => some b)
    (fun g a b => lookup_insert g) (fun g a b a' h => lookup_insert_ne fun heq => h (hinj heq)) m ∅ a
  rw [mapKeys, hview, lookup_empty]
  cases m.lookup a <;> rfl

omit [DecidableEq α] in
theorem lookup_mapKeys_eq_none (m : AList fun _ : α => β) {c : γ} (hout : ∀ a, f a ≠ c) :
    (m.mapKeys f).lookup c = none := by
  refine List.foldlRecOn (motive := fun renamed : AList fun _ : γ => β => renamed.lookup c = none) _ _ (lookup_empty _) ?_
  intro renamed h e _
  exact (lookup_insert_ne (hout e.1).symm).trans h

end Fold

end AList

/-- A lookup in a map that is a function, after a write. -/
theorem Function.update_eq_some {α β : Type} [DecidableEq α] {f : α → Option β} {a k : α} {v b : β} :
    update f k (some v) a = some b ↔ (a = k ∧ v = b) ∨ (a ≠ k ∧ f a = some b) := by
  by_cases h : a = k
  · simp [h]
  · simp [h]
