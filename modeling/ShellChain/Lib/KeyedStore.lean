import Mathlib.Data.List.Nodup

/-!
# Batches over a store of keyed records

A store gives each key at most one value, of a type that may depend on the key. A batch is a list of puts and deletions that
is applied in order. `Holds` says that, on the keys of a class, the store holds exactly the entries of a list: entries are
added by puts of fresh keys and removed by deletions of their own keys, and nothing else of a batch matters to the class.
-/

namespace KeyedStore

open Function List

variable {κ : Type} [DecidableEq κ] {V : κ → Type}

/-- The store after a batch. -/
def write (s : ∀ k, Option (V k)) (batch : List (Σ k, Option (V k))) : ∀ k, Option (V k) :=
  batch.foldl (fun s op => Function.update s op.1 op.2) s

/-- The batch that puts the entries of a list. -/
def puts (entries : List (Σ k, V k)) : List (Σ k, Option (V k)) :=
  entries.map fun e => ⟨e.1, some e.2⟩

/-- The batch that deletes the keys of a list. -/
def deletes (keys : List κ) : List (Σ k, Option (V k)) :=
  keys.map fun k => ⟨k, none⟩

/-! ## Reads after a batch -/

theorem write_cons (s : ∀ k, Option (V k)) (op : Σ k, Option (V k)) (batch : List (Σ k, Option (V k))) :
    write s (op :: batch) = write (update s op.1 op.2) batch :=
  rfl

theorem write_append (s : ∀ k, Option (V k)) (batch batch' : List (Σ k, Option (V k))) :
    write s (batch ++ batch') = write (write s batch) batch' :=
  foldl_append

variable {s : ∀ k, Option (V k)} {entries : List (Σ k, V k)} {k : κ}

/-- A key that no operation of the batch names. -/
theorem write_of_not_mem {batch : List (Σ k, Option (V k))} (h : ∀ op ∈ batch, op.1 ≠ k) :
    write s batch k = s k := by
  induction batch generalizing s with
  | nil => rfl
  | cons op batch ih =>
    rw [write_cons, ih fun o ho => h o (.tail _ ho), update_of_ne (h op mem_cons_self).symm]

/-- Only the operations on the keys of a class matter to the class. -/
theorem write_filter (p : κ → Bool) (s : ∀ k, Option (V k)) (batch : List (Σ k, Option (V k))) {k : κ} (hk : p k) :
    write s batch k = write s (batch.filter fun op => p op.1) k := by
  suffices h : ∀ s t : ∀ k, Option (V k), (∀ k, p k → s k = t k) →
      ∀ k, p k → write s batch k = write t (batch.filter fun op => p op.1) k from h s s (fun _ _ => rfl) k hk
  clear hk k s
  induction batch with
  | nil => exact fun s t h => h
  | cons op batch ih =>
    intro s t h
    by_cases hop : p op.1
    · rw [filter_cons, if_pos hop]
      refine ih (update s op.1 op.2) (update t op.1 op.2) fun k hk => ?_
      by_cases heq : k = op.1
      · subst heq
        rw [update_self, update_self]
      · rw [update_of_ne heq, update_of_ne heq, h k hk]
    · rw [filter_cons, if_neg hop]
      refine ih (update s op.1 op.2) t fun k hk => ?_
      rw [update_of_ne, h k hk]
      rintro rfl
      exact hop hk

theorem write_deletes (s : ∀ k, Option (V k)) (keys : List κ) (k : κ) :
    write s (deletes keys) k = if k ∈ keys then none else s k := by
  induction keys generalizing s with
  | nil => rfl
  | cons key keys ih =>
    rw [deletes, map_cons, write_cons, ← deletes, ih]
    by_cases hk : k ∈ keys
    · rw [if_pos hk, if_pos (.tail _ hk)]
    · rw [if_neg hk]
      by_cases heq : k = key
      · subst heq
        rw [if_pos mem_cons_self, update_self]
      · rw [if_neg, update_of_ne heq]
        rw [mem_cons, not_or]
        exact ⟨heq, hk⟩

theorem write_puts_of_not_mem (h : k ∉ entries.map Sigma.fst) :
    write s (puts entries) k = s k := by
  refine write_of_not_mem fun op hop heq => h ?_
  obtain ⟨e, he, rfl⟩ := mem_map.mp hop
  exact mem_map.mpr ⟨e, he, heq⟩

theorem write_puts_of_mem (hnodup : (entries.map Sigma.fst).Nodup)
    {e : Σ k, V k} (he : e ∈ entries) : write s (puts entries) e.1 = some e.2 := by
  induction entries generalizing s with
  | nil => cases he
  | cons x entries ih =>
    rw [map_cons, nodup_cons] at hnodup
    rw [puts, map_cons, write_cons, ← puts]
    rcases mem_cons.mp he with rfl | he
    · rw [write_puts_of_not_mem hnodup.1, update_self]
    · exact ih hnodup.2 he

/-! ## The operations of a class -/

section Filter

omit [DecidableEq κ]

variable {p : κ → Bool}

theorem filter_puts (h : ∀ e ∈ entries, p e.1) :
    (puts entries).filter (fun op => p op.1) = puts entries :=
  filter_eq_self.mpr (forall_mem_map.mpr h)

theorem filter_puts_eq_nil (h : ∀ e ∈ entries, p e.1 = false) :
    (puts entries).filter (fun op => p op.1) = [] :=
  filter_eq_nil_iff.mpr (forall_mem_map.mpr fun e he => by simp [h e he])

theorem filter_deletes {keys : List κ} (h : ∀ k ∈ keys, p k) :
    (deletes (V := V) keys).filter (fun op => p op.1) = deletes keys :=
  filter_eq_self.mpr (forall_mem_map.mpr h)

theorem filter_deletes_eq_nil {keys : List κ} (h : ∀ k ∈ keys, p k = false) :
    (deletes (V := V) keys).filter (fun op => p op.1) = [] :=
  filter_eq_nil_iff.mpr (forall_mem_map.mpr fun k hk => by simp [h k hk])

theorem puts_append (entries entries' : List (Σ k, V k)) : puts (entries ++ entries') = puts entries ++ puts entries' :=
  map_append

theorem deletes_append (keys keys' : List κ) : deletes (V := V) (keys ++ keys') = deletes keys ++ deletes keys' :=
  map_append

end Filter

/-! ## Stores that hold a list of entries -/

/-- On the keys of a class the store holds exactly the entries of a list. -/
def Holds (p : κ → Bool) (s : ∀ k, Option (V k)) (entries : List (Σ k, V k)) : Prop :=
  ∀ k, p k → ∀ v, s k = some v ↔ ⟨k, v⟩ ∈ entries

variable {p : κ → Bool} {added : List (Σ k, V k)}

/-- What a batch does to a class is what its operations on the class do. -/
theorem Holds.of_filter {batch : List (Σ k, Option (V k))} (h : Holds p (write s (batch.filter fun op => p op.1)) entries) :
    Holds p (write s batch) entries := by
  intro k hk v
  rw [write_filter p s batch hk]
  exact h k hk v

/-- Entries of fresh keys are added. -/
theorem Holds.puts (h : Holds p s entries) (hnodup : ((entries ++ added).map Sigma.fst).Nodup) :
    Holds p (write s (puts added)) (entries ++ added) := by
  rw [map_append, nodup_append] at hnodup
  obtain ⟨-, hadded, hdisjoint⟩ := hnodup
  intro k hk v
  by_cases hmem : k ∈ added.map Sigma.fst
  · obtain ⟨⟨k', v'⟩, he, rfl⟩ := mem_map.mp hmem
    have hold : ⟨k', v⟩ ∉ entries := fun hin => hdisjoint _ (mem_map_of_mem (f := Sigma.fst) hin) _ hmem rfl
    rw [write_puts_of_mem hadded he, mem_append]
    constructor
    · rintro ⟨⟩
      exact .inr he
    · rintro (hin | hin)
      · exact (hold hin).elim
      · exact (write_puts_of_mem (s := s) hadded he).symm.trans (write_puts_of_mem hadded hin)
  · rw [write_puts_of_not_mem hmem, h k hk v, mem_append]
    exact ⟨.inl, fun hin => hin.resolve_right fun hin => hmem (mem_map_of_mem (f := Sigma.fst) hin)⟩

/-- Entries are removed by the deletion of their keys. -/
theorem Holds.deletes (h : Holds p s (entries ++ added)) (hnodup : ((entries ++ added).map Sigma.fst).Nodup) :
    Holds p (write s (deletes (added.map Sigma.fst))) entries := by
  rw [map_append, nodup_append] at hnodup
  obtain ⟨-, -, hdisjoint⟩ := hnodup
  intro k hk v
  rw [write_deletes]
  split
  · rename_i hmem
    constructor
    · intro hnone
      cases hnone
    · intro hin
      exact (hdisjoint _ (mem_map_of_mem (f := Sigma.fst) hin) _ hmem rfl).elim
  · rename_i hmem
    rw [h k hk v, mem_append]
    exact ⟨fun hin => hin.resolve_right fun hin => hmem (mem_map_of_mem (f := Sigma.fst) hin), .inl⟩

end KeyedStore
