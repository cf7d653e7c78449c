import ShellChain.Lib.AssocMap
import Mathlib.Algebra.GroupWithZero.Nat
import Mathlib.Algebra.Order.BigOperators.Group.List
import Mathlib.Algebra.Order.Group.Nat
import Mathlib.Data.List.Perm.Subperm

/-!
# Stores with secondary indexes

A store maps keys to entries. A secondary index maps a slot, which every entry determines, back to the key of the entry that
has it. `Mirrors` says that the index is exactly that: an update of both sides at an entry and its slot keeps it. The maps
are association lists and ordered maps. Totals over the store are sums over its entries, and change by the value of the entry
that comes or goes.
-/

/-! ## Indexes -/

/-- The index maps a slot to a key exactly if the entry of the key has that slot. -/
def Mirrors {α β γ : Type} (entry : α → Option β) (slot : β → γ) (index : γ → Option α) : Prop :=
  ∀ g a, index g = some a ↔ ∃ b, entry a = some b ∧ slot b = g

namespace Mirrors

variable {α β γ : Type} {entry entry' : α → Option β} {slot : β → γ} {index index' : γ → Option α}

theorem empty (h : ∀ a, entry a = none) (h' : ∀ g, index g = none) : Mirrors entry slot index := by
  intro g a
  simp [h, h']

variable {a : α} {b : β}

/-- An entry is found through its slot. -/
theorem index_slot (h : Mirrors entry slot index) (ha : entry a = some b) : index (slot b) = some a :=
  (h _ _).2 ⟨b, ha, rfl⟩

/-- The key that a slot holds has an entry. -/
theorem isSome_of_index (h : Mirrors entry slot index) {g : γ} (hg : index g = some a) : (entry a).isSome := by
  obtain ⟨b, hb, _⟩ := (h g a).1 hg
  simp [hb]

/-- Entries of different keys have different slots. -/
theorem key_eq (h : Mirrors entry slot index) {a' : α} {b' : β} (ha : entry a = some b) (ha' : entry a' = some b')
    (hs : slot b = slot b') : a = a' := by
  have h1 := h.index_slot ha
  rw [hs, h.index_slot ha'] at h1
  exact (Option.some.inj h1).symm

variable [DecidableEq α] [DecidableEq γ]

/-- Dropping an entry and its slot. -/
theorem drop (h : Mirrors entry slot index) (ha : entry a = some b) (he : ∀ x, entry' x = if x = a then none else entry x)
    (hi : ∀ g, index' g = if g = slot b then none else index g) : Mirrors entry' slot index' := by
  intro g x
  rw [hi, he]
  by_cases hg : g = slot b
  · rw [if_pos hg]
    refine ⟨fun hx => by simp at hx, ?_⟩
    rintro ⟨b', hb', hs⟩
    by_cases hx : x = a
    · simp [hx] at hb'
    · rw [if_neg hx] at hb'
      exact absurd (h.key_eq hb' ha (hs.trans hg)) hx
  · rw [if_neg hg, h g x]
    by_cases hx : x = a
    · subst hx
      simp only [ha, Option.some.injEq, if_true, reduceCtorEq, false_and, exists_false, iff_false]
      rintro ⟨b', rfl, hs⟩
      exact hg hs.symm
    · rw [if_neg hx]

/-- Adding an entry under a new key in a free slot. -/
theorem add (h : Mirrors entry slot index) (ha : entry a = none) (hb : index (slot b) = none)
    (he : ∀ x, entry' x = if x = a then some b else entry x) (hi : ∀ g, index' g = if g = slot b then some a else index g) :
    Mirrors entry' slot index' := by
  intro g x
  rw [hi, he]
  by_cases hx : x = a
  · subst hx
    rw [if_pos rfl]
    by_cases hg : g = slot b
    · simp [hg]
    · rw [if_neg hg, h g x]
      simp only [ha, reduceCtorEq, false_and, exists_false, Option.some.injEq, false_iff, not_exists, not_and]
      rintro b' rfl hs
      exact hg hs.symm
  · rw [if_neg hx]
    by_cases hg : g = slot b
    · rw [if_pos hg]
      constructor
      · intro hax
        exact absurd (Option.some.inj hax).symm hx
      · rintro ⟨b', hb', hs⟩
        have hslot := h.index_slot hb'
        rw [hs, hg, hb] at hslot
        cases hslot
    · rw [if_neg hg, h g x]

end Mirrors

/-! ## Ordered maps -/

namespace Std.TreeMap

variable {α β : Type} [Ord α] [Std.TransOrd α] {t : Std.TreeMap α β} {a : α} {b : β}

theorem find_eq_none_of_isEmpty (h : t.isEmpty) (a : α) : t[a]? = none := by
  have hnot := isEmpty_iff_forall_not_mem.1 h a
  rw [mem_iff_isSome_getElem?, Bool.not_eq_true, Option.isSome_eq_false_iff, Option.isNone_iff_eq_none] at hnot
  exact hnot

theorem size_pos_of_find (h : t[a]? = some b) : 0 < t.size := by
  rcases Nat.eq_zero_or_pos t.size with hzero | hpos
  · have hempty : t.isEmpty := by simp [isEmpty_eq_size_eq_zero, hzero]
    rw [find_eq_none_of_isEmpty hempty] at h
    cases h
  · exact hpos

theorem size_erase_of_find (h : t[a]? = some b) : (t.erase a).size + 1 = t.size := by
  have hpos := size_pos_of_find h
  have hmem : t.contains a := by simp [contains_eq_isSome_getElem?, h]
  rw [size_erase, if_pos hmem]
  omega

theorem size_insert_of_free (h : t[a]? = none) (b : β) : (t.insert a b).size = t.size + 1 := by
  simp [size_insert, contains_eq_isSome_getElem?, h]

theorem nodup_toList (t : Std.TreeMap α β) : t.toList.Nodup := by
  refine distinct_keys_toList.imp ?_
  rintro a _ hne rfl
  exact hne Std.ReflCmp.compare_self

variable [Std.LawfulEqOrd α] [DecidableEq α]

theorem find_erase (t : Std.TreeMap α β) (k a : α) : (t.erase k)[a]? = if a = k then none else t[a]? := by
  simp [getElem?_erase, eq_comm (a := a)]

theorem find_insert (t : Std.TreeMap α β) (k a : α) (v : β) : (t.insert k v)[a]? = if a = k then some v else t[a]? := by
  simp [getElem?_insert, eq_comm (a := a)]

end Std.TreeMap

/-! ## Totals -/

namespace AList

variable {α β : Type}

/-- The sum of a measure over the entries. -/
def total (m : AList fun _ : α => β) (f : β → Nat) : Nat :=
  (m.entries.map fun e => f e.2).sum

theorem size_eq_total (m : AList fun _ : α => β) : m.size = m.total fun _ => 1 := by
  simp [size, total]

variable [DecidableEq α]

theorem lookup_erase' (m : AList fun _ : α => β) (a x : α) : (m.erase a).lookup x = if x = a then none else m.lookup x := by
  by_cases h : x = a
  · subst h
    simp
  · simp [h, lookup_erase_ne h]

theorem lookup_insert' (m : AList fun _ : α => β) (a x : α) (b : β) :
    (m.insert a b).lookup x = if x = a then some b else m.lookup x := by
  by_cases h : x = a
  · subst h
    simp
  · simp [h, lookup_insert_ne h]

variable {a : α} {m : AList fun _ : α => β} {ks : List α}

/-- A total without one entry. -/
theorem total_erase {b : β} (h : m.lookup a = some b) (f : β → Nat) : (m.erase a).total f + f b = m.total f := by
  have hmem : a ∈ m.entries.keys := mem_keys.1 (lookup_isSome.1 (by simp [h]))
  obtain ⟨b', l₁, l₂, hl₁, he, hk⟩ := List.exists_of_kerase hmem
  have hb : m.lookup a = some b' := mem_lookup_iff.2 (by simp [he])
  obtain rfl : b = b' := Option.some.inj (h.symm.trans hb)
  have herase : (m.erase a).entries = l₁ ++ l₂ := hk
  simp only [total, herase, he, List.map_append, List.map_cons, List.sum_append, List.sum_cons]
  omega

/-- A total with one more entry. -/
theorem total_insert (h : m.lookup a = none) (b : β) (f : β → Nat) : (m.insert a b).total f = m.total f + f b := by
  simp only [total, entries_insert_of_notMem (lookup_eq_none.1 h), List.map_cons, List.sum_cons]
  omega

theorem erase_of_lookup_none (h : m.lookup a = none) : m.erase a = m :=
  AList.ext (List.kerase_of_notMem_keys (lookup_eq_none.1 h))

/-- A total without the entries of a list of different keys. -/
theorem total_eraseAll (hks : ks.Nodup) (m : AList fun _ : α => β) (f : β → Nat) :
    (m.eraseAll ks).total f + ((ks.filterMap m.lookup).map f).sum = m.total f := by
  induction ks generalizing m with
  | nil => simp [eraseAll]
  | cons k ks ih =>
    obtain ⟨hk, hks⟩ := List.nodup_cons.1 hks
    have hrest : ks.filterMap (m.erase k).lookup = ks.filterMap m.lookup := by
      refine List.filterMap_congr ?_
      intro x hx
      exact lookup_erase_ne fun he => hk (he ▸ hx)
    have htail := ih hks (m.erase k)
    rw [hrest] at htail
    cases hb : m.lookup k with
    | none =>
      rw [erase_of_lookup_none hb] at htail
      simpa [eraseAll, hb, erase_of_lookup_none hb] using htail
    | some b =>
      have hone := total_erase hb f
      simp only [List.filterMap_cons, hb, List.map_cons, List.sum_cons]
      have heq : m.eraseAll (k :: ks) = (m.erase k).eraseAll ks := rfl
      rw [heq]
      omega

/-- A total is at least another if the measure is, at every entry. -/
theorem total_le_total {f g : β → Nat} (h : ∀ a b, m.lookup a = some b → f b ≤ g b) : m.total f ≤ m.total g := by
  refine List.sum_le_sum ?_
  rintro ⟨a, b⟩ he
  exact h a b (mem_lookup_iff.2 he)

/-- There are at most as many different keys with an entry as entries. -/
theorem length_le_size (hks : ks.Nodup) (h : ∀ k ∈ ks, (m.lookup k).isSome) : ks.length ≤ m.size := by
  have hsub : ks ⊆ m.keys := fun k hk => mem_keys.1 (lookup_isSome.1 (h k hk))
  have hlen := (hks.subperm hsub).length_le
  simpa [size, keys, List.keys] using hlen

/-- A list of the slots of an index, with their keys, names every key of the store once. -/
theorem perm_keys_of_mirrors {γ : Type} {slot : β → γ} {index : γ → Option α} (h : Mirrors m.lookup slot index)
    {l : List (γ × α)} (hl : l.Nodup) (hmem : ∀ g a, (g, a) ∈ l ↔ index g = some a) : (l.map Prod.snd).Perm m.keys := by
  have hnodup : (l.map Prod.snd).Nodup := by
    refine List.Nodup.map_on ?_ hl
    rintro ⟨g, a⟩ hx ⟨g', a'⟩ hy (rfl : a = a')
    obtain ⟨b, hb, rfl⟩ := (h g a).1 ((hmem g a).1 hx)
    obtain ⟨b', hb', rfl⟩ := (h g' a).1 ((hmem g' a).1 hy)
    rw [Option.some.inj (hb.symm.trans hb')]
  rw [List.perm_ext_iff_of_nodup hnodup m.keys_nodup]
  intro a
  rw [← mem_keys, ← lookup_isSome, List.mem_map]
  constructor
  · rintro ⟨⟨g, x⟩, hx, rfl⟩
    exact h.isSome_of_index ((hmem g x).1 hx)
  · intro hsome
    obtain ⟨b, hb⟩ := Option.isSome_iff_exists.1 hsome
    exact ⟨(slot b, a), (hmem _ _).2 (h.index_slot hb), rfl⟩

end AList
