import ShellChain.Lib.IndexedStore

/-!
# Layered ordered maps

An ordered map may be read through a layer of changes, each of which is a new value or a deletion. What the two show together
is again an ordered map: `patch`. Two ordered maps with the same lookups list the same entries, so a listing is determined by
lookups. Totals are sums of a measure over the entries.
-/

namespace Std.TreeMap

variable {α β γ δ : Type} [Ord α] [Std.TransOrd α] [Std.LawfulEqOrd α]

/-! ## Listings -/

variable {t u : Std.TreeMap α β}

theorem toList_eq_of_find (h : ∀ a : α, t[a]? = u[a]?) : t.toList = u.toList :=
  (Equiv.of_forall_constGet?_eq h).toList_eq

theorem find_filter_key (t : Std.TreeMap α β) (f : α → Bool) (a : α) :
    (t.filter fun k _ => f k)[a]? = if f a then t[a]? else none := by
  ext b
  rw [← mem_toList_iff_getElem?_eq_some, toList_filter, List.mem_filter, mem_toList_iff_getElem?_eq_some]
  cases hf : f a <;> simp

/-- The entries of a map that pass a test of their keys, through lookups. -/
theorem toList_filter_eq {f : α → Bool} (h : ∀ a : α, u[a]? = if f a then t[a]? else none) :
    u.toList = t.toList.filter fun e => f e.1 := by
  rw [← toList_filter (f := fun a _ => f a)]
  exact toList_eq_of_find fun a => (h a).trans (find_filter_key t f a).symm

theorem distinct_toList (t : Std.TreeMap α β) : t.toList.Pairwise fun x y => x.1 ≠ y.1 := by
  refine distinct_keys_toList.imp ?_
  intro x y hne heq
  rw [heq] at hne
  exact hne Std.ReflCmp.compare_self

/-! ## Folds -/

/-- A fold over the entries whose step at a key changes only what is seen at that key. -/
theorem view_foldl (step : γ → α → β → γ) (view : γ → α → δ) (change : α → β → δ → δ)
    (hself : ∀ g a b, view (step g a b) a = change a b (view g a))
    (hother : ∀ g a b a', a' ≠ a → view (step g a b) a' = view g a') (t : Std.TreeMap α β) (g : γ) (a : α) :
    view (t.toList.foldl (fun g e => step g e.1 e.2) g) a = t[a]?.elim (view g a) fun b => change a b (view g a) := by
  obtain ⟨hmem, hnot⟩ := AList.view_foldl_list Prod.fst (fun g e => step g e.1 e.2) view (fun e => change e.1 e.2)
    (fun g e => hself g e.1 e.2) (fun g e => hother g e.1 e.2) t.toList (distinct_toList t) g a
  cases ha : t[a]? with
  | none =>
    refine hnot fun e he heq => ?_
    have hfound : t[e.1]? = some e.2 := mem_toList_iff_getElem?_eq_some.mp he
    rw [heq, ha] at hfound
    cases hfound
  | some b => exact hmem (a, b) (mem_toList_iff_getElem?_eq_some.mpr ha) rfl

/-! ## Layers -/

variable [DecidableEq α]

theorem find_ofList_filter (t : Std.TreeMap α β) (f : α × β → Bool) (a : α) :
    (ofList (t.toList.filter f))[a]? = t[a]?.filter fun b => f (a, b) := by
  have hdistinct := (distinct_keys_toList (t := t)).filter f
  cases h : (t[a]?.filter fun b => f (a, b)) with
  | some b =>
    obtain ⟨hb, hf⟩ := Option.filter_eq_some_iff.mp h
    refine getElem?_ofList_of_mem Std.ReflCmp.compare_self hdistinct (List.mem_filter.mpr ⟨?_, hf⟩)
    exact mem_toList_iff_getElem?_eq_some.mpr hb
  | none =>
    refine getElem?_ofList_of_contains_eq_false (Bool.eq_false_iff.mpr fun hcontains => ?_)
    obtain ⟨⟨x, b⟩, hmem, rfl⟩ := List.mem_map.mp (List.contains_iff_mem.mp hcontains)
    obtain ⟨hb, hf⟩ := List.mem_filter.mp hmem
    rw [mem_toList_iff_getElem?_eq_some.mp hb, Option.filter_some, if_pos hf] at h
    cases h

/-- A change at a key: a new value, or the deletion of the entry. -/
def set (t : Std.TreeMap α β) (a : α) (b : Option β) : Std.TreeMap α β :=
  b.elim (t.erase a) (t.insert a)

theorem find_set (t : Std.TreeMap α β) (k a : α) (b : Option β) : (t.set k b)[a]? = if a = k then b else t[a]? := by
  cases b with
  | none => exact find_erase t k a
  | some b => exact find_insert t k a b

/-- The map with the entries of another put over it. -/
def putAll (t updates : Std.TreeMap α β) : Std.TreeMap α β :=
  updates.toList.foldl (fun t e => t.insert e.1 e.2) t

/-! ## Totals -/

/-- The sum of a measure over the entries. -/
def total (f : α → β → Nat) (t : Std.TreeMap α β) : Nat :=
  (t.toList.map fun e => f e.1 e.2).sum

omit [DecidableEq α] in
theorem total_eq_of_find {f : α → β → Nat} (h : ∀ a : α, t[a]? = u[a]?) : t.total f = u.total f := by
  rw [total, toList_eq_of_find h, total]

omit [Std.TransOrd α] [Std.LawfulEqOrd α] [DecidableEq α] in
theorem total_empty (f : α → β → Nat) : (∅ : Std.TreeMap α β).total f = 0 :=
  rfl

/-- The listing of a map with an entry, up to order. -/
theorem toList_perm_of_find {a : α} {b : β} (h : t[a]? = some b) : t.toList.Perm ((a, b) :: (t.erase a).toList) := by
  refine (List.perm_ext_iff_of_nodup (nodup_toList t) ?_).mpr ?_
  · refine List.nodup_cons.mpr ⟨fun hmem => ?_, nodup_toList _⟩
    rw [mem_toList_iff_getElem?_eq_some, find_erase, if_pos rfl] at hmem
    cases hmem
  · rintro ⟨x, y⟩
    rw [List.mem_cons, mem_toList_iff_getElem?_eq_some, mem_toList_iff_getElem?_eq_some, find_erase, Prod.mk.injEq]
    by_cases hx : x = a
    · subst hx
      simp [h, eq_comm]
    · simp [hx]

theorem total_eq_erase (f : α → β → Nat) (t : Std.TreeMap α β) (a : α) :
    t.total f = t[a]?.elim 0 (f a) + (t.erase a).total f := by
  cases h : t[a]? with
  | none =>
    rw [Option.elim_none, Nat.zero_add]
    refine total_eq_of_find fun x => ?_
    rw [find_erase]
    split
    · rename_i hx
      rw [hx, h]
    · rfl
  | some b => exact ((toList_perm_of_find h).map fun e => f e.1 e.2).sum_nat

theorem total_insert (f : α → β → Nat) (t : Std.TreeMap α β) (a : α) (b : β) :
    (t.insert a b).total f = f a b + (t.erase a).total f := by
  rw [total_eq_erase f (t.insert a b) a, find_insert, if_pos rfl, Option.elim_some]
  congr 1
  refine total_eq_of_find fun x => ?_
  rw [find_erase, find_insert, find_erase]
  split <;> rfl

end Std.TreeMap
