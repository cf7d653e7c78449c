import Mathlib.Data.List.Basic

/-!
# Pairwise hash folds

A list of leaves is folded level by level: neighbours are combined, and a last node without a neighbour is combined with
itself. Two lists of one length with the same root are equal, when the combination separates the pairs that occur in the
two folds.
-/

namespace MerkleFold

open List

variable {α : Type}

/-- Neighbours in pairs; a last node without a neighbour stands twice. -/
def pairs : List α → List (α × α)
  | [] => []
  | [a] => [(a, a)]
  | a :: b :: rest => (a, b) :: pairs rest

def level (node : α → α → α) (as : List α) : List α :=
  (pairs as).map fun p => node p.1 p.2

/-- The fold with a bound on the number of levels. -/
def fold (node : α → α → α) : Nat → List α → Option α
  | _, [] => none
  | _, [a] => some a
  | 0, _ :: _ :: _ => none
  | n + 1, a :: b :: rest => fold node n (level node (a :: b :: rest))

/-- The root of a list of leaves. -/
def root (node : α → α → α) (as : List α) : Option α :=
  fold node as.length as

/-- The pairs combined on all levels of a fold. -/
def inputs (node : α → α → α) : Nat → List α → List (α × α)
  | _, [] => []
  | _, [_] => []
  | 0, _ :: _ :: _ => []
  | n + 1, a :: b :: rest => pairs (a :: b :: rest) ++ inputs node n (level node (a :: b :: rest))

/-- The combination separates the pairs of two folds. -/
def Separates (node : α → α → α) (n : Nat) (as bs : List α) : Prop :=
  ∀ p ∈ inputs node n as, ∀ q ∈ inputs node n bs, node p.1 p.2 = node q.1 q.2 → p = q

theorem length_pairs (as : List α) : (pairs as).length = (as.length + 1) / 2 := by
  fun_induction pairs as with
  | case1 => simp
  | case2 => simp
  | case3 a b rest ih => simp only [length_cons, ih]; omega

theorem length_level (node : α → α → α) (as : List α) : (level node as).length = (as.length + 1) / 2 := by
  rw [level, length_map, length_pairs]

variable {as bs : List α} {n : Nat} {node : α → α → α}

/-- Lists of one length with the same pairs are equal. -/
theorem pairs_inj (hlen : as.length = bs.length) (h : pairs as = pairs bs) : as = bs := by
  induction as using pairs.induct generalizing bs with
  | case1 => exact (length_eq_zero_iff.mp hlen.symm).symm
  | case2 a =>
    obtain ⟨b, rfl⟩ := length_eq_one_iff.mp hlen.symm
    simpa [pairs] using h
  | case3 a b rest ih =>
    match bs, hlen, h with
    | c :: d :: rest', hlen, h =>
      simp only [pairs, cons.injEq, Prod.mk.injEq] at h
      obtain ⟨⟨rfl, rfl⟩, hrest⟩ := h
      rw [ih (by simpa using hlen) hrest]

/-- What each image determines, the list of images determines. -/
theorem map_eq_of_map_eq {β γ : Type} {f : α → β} {g : α → γ} (hsep : ∀ a ∈ as, ∀ b ∈ bs, f a = f b → g a = g b)
    (h : as.map f = bs.map f) : as.map g = bs.map g := by
  induction as generalizing bs with
  | nil => rw [map_eq_nil_iff.mp h.symm]
  | cons a as ih =>
    match bs, h with
    | b :: bs, h =>
      obtain ⟨hhead, htail⟩ := cons.inj h
      rw [map_cons, map_cons, hsep a mem_cons_self b mem_cons_self hhead,
        ih (fun a ha b hb => hsep a (.tail _ ha) b (.tail _ hb)) htail]

/-- Lists of one length whose folds agree are equal. -/
theorem fold_inj (hn : as.length ≤ n) (hlen : as.length = bs.length) (hsep : Separates node n as bs)
    (h : fold node n as = fold node n bs) : as = bs := by
  induction n generalizing as bs with
  | zero =>
    have has := length_eq_zero_iff.mp (Nat.le_zero.mp hn)
    subst has
    exact (length_eq_zero_iff.mp hlen.symm).symm
  | succ n ih =>
    match as, bs, hlen with
    | [], [], _ => rfl
    | [a], [b], _ => simpa [fold] using h
    | a :: a' :: as, b :: b' :: bs, hlen =>
      simp only [fold] at h
      simp only [Separates, inputs] at hsep
      have hlevel : level node (a :: a' :: as) = level node (b :: b' :: bs) := by
        refine ih ?_ (by rw [length_level, length_level, hlen]) ?_ h
        · rw [length_level]
          simp only [length_cons] at hn ⊢
          omega
        · intro p hp q hq
          exact hsep p (mem_append_right _ hp) q (mem_append_right _ hq)
      refine pairs_inj hlen ?_
      have hpairs := map_eq_of_map_eq (g := id)
        (fun p hp q hq => hsep p (mem_append_left _ hp) q (mem_append_left _ hq)) hlevel
      rwa [map_id, map_id] at hpairs

theorem isSome_fold (node : α → α → α) (hn : as.length ≤ n) (has : as ≠ []) : (fold node n as).isSome = true := by
  induction n generalizing as with
  | zero => exact absurd (length_eq_zero_iff.mp (Nat.le_zero.mp hn)) has
  | succ n ih =>
    match as, has with
    | [a], _ => rfl
    | a :: b :: rest, _ =>
      refine ih ?_ (by simp [level, pairs])
      rw [length_level]
      simp only [length_cons] at hn ⊢
      omega

/-- Lists of one length with one root are equal, also where the root of no leaves is a default. -/
theorem root_inj {d : α} (hlen : as.length = bs.length) (hsep : Separates node as.length as bs)
    (h : (root node as).getD d = (root node bs).getD d) : as = bs := by
  by_cases has : as = []
  · subst has
    exact (length_eq_zero_iff.mp hlen.symm).symm
  · have hbs : bs ≠ [] := by
      rintro rfl
      exact has (length_eq_zero_iff.mp hlen)
    obtain ⟨ra, hra⟩ := Option.isSome_iff_exists.mp (isSome_fold node (Nat.le_refl _) has)
    obtain ⟨rb, hrb⟩ := Option.isSome_iff_exists.mp (isSome_fold node (Nat.le_refl _) hbs)
    rw [root, root, hra, hrb, Option.getD_some, Option.getD_some] at h
    exact fold_inj (Nat.le_refl _) hlen hsep (by rw [hra, h, ← hrb, hlen])

end MerkleFold
