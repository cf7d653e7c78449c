import ShellChain.Lib.MerkleFold

/-!
# What the root of a pairwise fold determines

A fold repeats a last node without a neighbour, so that lists of different lengths can have one root. Where the combination
separates the pairs of two folds from each other and from the leaves, the roots of two lists are equal exactly when the two
folds read the same sequence of leaves, the repeated ones included.
-/

namespace MerkleFold

open List

variable {α β ι : Type}

/-- The combination separates the pairs of two folds from each other and from the leaves of the other fold. -/
structure Apart (node : α → α → α) (n m : Nat) (as bs : List α) : Prop where
  pairs : ∀ p ∈ inputs node n as, ∀ q ∈ inputs node m bs, node p.1 p.2 = node q.1 q.2 → p = q
  left : ∀ a ∈ as, ∀ q ∈ inputs node m bs, a ≠ node q.1 q.2
  right : ∀ b ∈ bs, ∀ p ∈ inputs node n as, b ≠ node p.1 p.2

theorem pairs_map (f : ι → α) (is : List ι) : pairs (is.map f) = (pairs is).map fun p => (f p.1, f p.2) := by
  fun_induction pairs is with
  | case1 => rfl
  | case2 i => rfl
  | case3 i j rest ih => simp only [map_cons, pairs, ih]

theorem level_map (node : α → α → α) (f : ι → α) (is : List ι) :
    level node (is.map f) = (pairs is).map fun p => node (f p.1) (f p.2) := by
  rw [level, pairs_map, map_map]
  rfl

variable {as bs : List α} {p q : α × α} {n m : Nat} {node : α → α → α} {x : α} {f : ι → α} {g : ι → β} {is js : List ι}

theorem mem_of_mem_pairs (h : p ∈ pairs as) : p.1 ∈ as ∧ p.2 ∈ as := by
  fun_induction pairs as with
  | case1 => cases h
  | case2 a => simp_all
  | case3 a b rest ih =>
    rcases mem_cons.mp h with rfl | h
    · exact ⟨mem_cons_self, .tail _ mem_cons_self⟩
    · exact ⟨.tail _ (.tail _ (ih h).1), .tail _ (.tail _ (ih h).2)⟩

theorem two_of_one_lt (h : 1 < as.length) : ∃ a b rest, as = a :: b :: rest := by
  match as, h with
  | a :: b :: rest, _ => exact ⟨a, b, rest, rfl⟩

/-- The pairs of a fold of more than one node: those of its first level, and those of the levels above. -/
theorem inputs_succ (node : α → α → α) (h : 1 < as.length) :
    inputs node (n + 1) as = pairs as ++ inputs node n (level node as) := by
  obtain ⟨a, b, rest, rfl⟩ := two_of_one_lt h
  rfl

theorem fold_succ (node : α → α → α) (h : 1 < as.length) : fold node (n + 1) as = fold node n (level node as) := by
  obtain ⟨a, b, rest, rfl⟩ := two_of_one_lt h
  rfl

/-- A node of a level above the leaves combines a pair. -/
theorem combines_of_mem_level (h : x ∈ level node as) : ∃ p ∈ pairs as, x = node p.1 p.2 := by
  obtain ⟨p, hp, rfl⟩ := mem_map.mp h
  exact ⟨p, hp, rfl⟩

/-- What stands first in a pair of a fold is a leaf or combines a pair. -/
theorem fst_of_mem_inputs (h : p ∈ inputs node n as) : p.1 ∈ as ∨ ∃ q ∈ inputs node n as, p.1 = node q.1 q.2 := by
  induction n generalizing as with
  | zero => match as, h with | _ :: _ :: _, h => nomatch h
  | succ n ih =>
    rcases Nat.lt_or_ge 1 as.length with hlen | hlen
    · rw [inputs_succ node hlen] at h ⊢
      rcases mem_append.mp h with h | h
      · exact .inl (mem_of_mem_pairs h).1
      · refine .inr ?_
        rcases ih h with hx | ⟨q, hq, hx⟩
        · obtain ⟨q, hq, hx⟩ := combines_of_mem_level hx
          exact ⟨q, mem_append_left _ hq, hx⟩
        · exact ⟨q, mem_append_right _ hq, hx⟩
    · match as, hlen with
      | [], _ => nomatch h
      | [_], _ => nomatch h

/-- The root of more than one leaf combines a pair. -/
theorem fold_combines (node : α → α → α) (hn : as.length ≤ n) (h : 1 < as.length) :
    ∃ p ∈ inputs node n as, fold node n as = some (node p.1 p.2) := by
  induction n generalizing as with
  | zero => omega
  | succ n ih =>
    rw [inputs_succ node h, fold_succ node h]
    rcases Nat.lt_or_ge 1 (level node as).length with hlen | hlen
    · obtain ⟨p, hp, hfold⟩ := ih (by rw [length_level]; omega) hlen
      exact ⟨p, mem_append_right _ hp, hfold⟩
    · have hone : (level node as).length = 1 := by rw [length_level] at hlen ⊢; omega
      obtain ⟨x, hx⟩ := length_eq_one_iff.mp hone
      obtain ⟨p, hp, rfl⟩ := combines_of_mem_level (by rw [hx]; exact mem_cons_self : x ∈ level node as)
      refine ⟨p, mem_append_left _ hp, ?_⟩
      rw [hx]
      cases n <;> rfl

theorem Apart.symm (h : Apart node n m as bs) : Apart node m n bs as :=
  ⟨fun q hq p hp e => (h.pairs p hp q hq e.symm).symm, h.right, h.left⟩

section

variable (ha : 1 < as.length) (hb : 1 < bs.length) (h : Apart node (n + 1) (m + 1) as bs)

include ha hb h

/-- A node of the first level does not combine a pair of the levels above. -/
theorem Apart.left_level (hx : x ∈ level node as) (hq : q ∈ inputs node m (level node bs)) : x ≠ node q.1 q.2 := by
  rintro rfl
  have hpairs := h.pairs
  have hleft := h.left
  rw [inputs_succ node ha, inputs_succ node hb] at hpairs
  rw [inputs_succ node hb] at hleft
  obtain ⟨p, hp, heq⟩ := combines_of_mem_level hx
  have hpq : p = q := hpairs p (mem_append_left _ hp) q (mem_append_right _ hq) heq.symm
  subst hpq
  -- the left part of the pair is a leaf on one side and a combination on the other
  have hleaf := (mem_of_mem_pairs hp).1
  rcases fst_of_mem_inputs hq with hx | ⟨r, hr, hx⟩
  · obtain ⟨r, hr, hx⟩ := combines_of_mem_level hx
    exact hleft _ hleaf r (mem_append_left _ hr) hx
  · exact hleft _ hleaf r (mem_append_right _ hr) hx

theorem Apart.level : Apart node n m (level node as) (level node bs) := by
  refine ⟨fun p hp q hq => ?_, fun x hx q hq => h.left_level ha hb hx hq, fun y hy p hp => h.symm.left_level hb ha hy hp⟩
  refine h.pairs p ?_ q ?_
  · rw [inputs_succ node ha]
    exact mem_append_right _ hp
  · rw [inputs_succ node hb]
    exact mem_append_right _ hq

theorem Apart.pair_eq_iff (hp : p ∈ MerkleFold.pairs as) (hq : q ∈ MerkleFold.pairs bs) :
    node p.1 p.2 = node q.1 q.2 ↔ p.1 = q.1 ∧ p.2 = q.2 := by
  refine ⟨fun heq => Prod.ext_iff.mp (h.pairs p ?_ q ?_ heq), fun ⟨h1, h2⟩ => by rw [h1, h2]⟩
  · rw [inputs_succ node ha]
    exact mem_append_left _ hp
  · rw [inputs_succ node hb]
    exact mem_append_left _ hq

end

/-- A single leaf is not the root of more leaves. -/
theorem Apart.fold_ne {a : α} (hb : 1 < bs.length) (hm : bs.length ≤ m) (h : Apart node n m [a] bs) :
    fold node n [a] ≠ fold node m bs := by
  obtain ⟨q, hq, hfold⟩ := fold_combines node hm hb
  have hone : fold node n [a] = some a := by cases n <;> rfl
  rw [hfold, hone]
  exact fun heq => h.left a mem_cons_self q hq (Option.some.inj heq)

/-- Two folds of images of the same leaves agree on whether two lists have one root, where they agree on the leaves and both
keep the pairs apart. -/
theorem fold_eq_iff {join : β → β → β} (hn : is.length ≤ n) (hm : js.length ≤ m) (hi : 0 < is.length) (hj : 0 < js.length)
    (hleaf : ∀ i ∈ is, ∀ j ∈ js, f i = f j ↔ g i = g j) (hf : Apart node n m (is.map f) (js.map f))
    (hg : Apart join n m (is.map g) (js.map g)) :
    fold node n (is.map f) = fold node m (js.map f) ↔ fold join n (is.map g) = fold join m (js.map g) := by
  -- the pairs of one level are the leaves of the next
  induction n generalizing ι m with
  | zero => omega
  | succ n ih =>
    obtain ⟨m, rfl⟩ : ∃ m', m = m' + 1 := ⟨m - 1, by omega⟩
    have hlong : ∀ {γ : Type} (k : ι → γ) {ls : List ι}, 1 < ls.length → 1 < (ls.map k).length := by
      intro γ k ls hls
      rwa [length_map]
    rcases Nat.lt_or_ge 1 is.length with hi' | hi'
    · rcases Nat.lt_or_ge 1 js.length with hj' | hj'
      · rw [fold_succ node (hlong f hi'), fold_succ node (hlong f hj'), fold_succ join (hlong g hi'),
          fold_succ join (hlong g hj')]
        have hf' := hf.level (hlong f hi') (hlong f hj')
        have hg' := hg.level (hlong g hi') (hlong g hj')
        simp only [level_map] at hf' hg' ⊢
        refine ih ?_ ?_ ?_ ?_ (fun p hp q hq => ?_) hf' hg'
        · rw [length_pairs]
          omega
        · rw [length_pairs]
          omega
        · rw [length_pairs]
          omega
        · rw [length_pairs]
          omega
        · have hmap : ∀ {γ : Type} (k : ι → γ) {ls : List ι} {r : ι × ι}, r ∈ pairs ls → (k r.1, k r.2) ∈ pairs (ls.map k) :=
            fun k _ r hr => by
              rw [pairs_map]
              exact mem_map_of_mem hr
          rw [hf.pair_eq_iff (hlong f hi') (hlong f hj') (hmap f hp) (hmap f hq),
            hg.pair_eq_iff (hlong g hi') (hlong g hj') (hmap g hp) (hmap g hq),
            hleaf _ (mem_of_mem_pairs hp).1 _ (mem_of_mem_pairs hq).1, hleaf _ (mem_of_mem_pairs hp).2 _ (mem_of_mem_pairs hq).2]
      · obtain ⟨j, rfl⟩ := length_eq_one_iff.mp (Nat.le_antisymm hj' hj)
        exact iff_of_false (hf.symm.fold_ne (hlong f hi') (by rwa [length_map])).symm
          (hg.symm.fold_ne (hlong g hi') (by rwa [length_map])).symm
    · obtain ⟨i, rfl⟩ := length_eq_one_iff.mp (Nat.le_antisymm hi' hi)
      rcases Nat.lt_or_ge 1 js.length with hj' | hj'
      · exact iff_of_false (hf.fold_ne (hlong f hj') (by rwa [length_map]))
          (hg.fold_ne (hlong g hj') (by rwa [length_map]))
      · obtain ⟨j, rfl⟩ := length_eq_one_iff.mp (Nat.le_antisymm hj' hj)
        simpa [fold] using hleaf i mem_cons_self j mem_cons_self

/-! ## The sequence of leaves that a fold reads -/

/-- The leaves that the fold reads, with those of a repeated node repeated. -/
def reads (as : List α) : List α :=
  (root (· ++ ·) (as.map fun a => [a])).getD []

/-- On every level the blocks have one length. -/
theorem length_eq_of_mem_inputs {k : Nat} {blocks : List (List α)} (hk : ∀ x ∈ blocks, x.length = k) (hpos : 0 < k)
    {p : List α × List α} (hp : p ∈ inputs (· ++ ·) n blocks) : p.1.length = p.2.length ∧ 0 < p.1.length := by
  induction n generalizing blocks k with
  | zero => match blocks, hp with | _ :: _ :: _, hp => nomatch hp
  | succ n ih =>
    rcases Nat.lt_or_ge 1 blocks.length with hlen | hlen
    · rw [inputs_succ _ hlen] at hp
      rcases mem_append.mp hp with hp | hp
      · have hmem := mem_of_mem_pairs hp
        rw [hk _ hmem.1, hk _ hmem.2]
        exact ⟨rfl, hpos⟩
      · refine ih (k := k + k) (fun x hx => ?_) (by omega) hp
        obtain ⟨q, hq, rfl⟩ := combines_of_mem_level hx
        have hmem := mem_of_mem_pairs hq
        rw [length_append, hk _ hmem.1, hk _ hmem.2]
    · match blocks, hlen with
      | [], _ => nomatch hp
      | [_], _ => nomatch hp

/-- Concatenation keeps the pairs of blocks apart. -/
theorem apart_append (n m : Nat) (as bs : List α) : Apart (· ++ ·) n m (as.map fun a => [a]) (bs.map fun b => [b]) := by
  have hone : ∀ cs : List α, ∀ x ∈ cs.map fun c => [c], x.length = 1 := fun cs => forall_mem_map.mpr fun _ _ => rfl
  refine ⟨fun p hp q hq heq => ?_, fun a ha q hq heq => ?_, fun b hb p hp heq => ?_⟩
  · obtain ⟨hp, -⟩ := length_eq_of_mem_inputs (hone as) Nat.one_pos hp
    obtain ⟨hq, -⟩ := length_eq_of_mem_inputs (hone bs) Nat.one_pos hq
    have hlen := congrArg length heq
    simp only [length_append] at hlen
    exact Prod.ext_iff.mpr (append_inj heq (by omega))
  · obtain ⟨hq, hpos⟩ := length_eq_of_mem_inputs (hone bs) Nat.one_pos hq
    have hlen := congrArg length heq
    rw [hone as a ha, length_append] at hlen
    omega
  · obtain ⟨hp, hpos⟩ := length_eq_of_mem_inputs (hone as) Nat.one_pos hp
    have hlen := congrArg length heq
    rw [hone bs b hb, length_append] at hlen
    omega

theorem root_isSome (node : α → α → α) (hi : is ≠ []) : ∃ x, root node (is.map f) = some x :=
  Option.isSome_iff_exists.mp (isSome_fold node (Nat.le_refl _) (by simpa using hi))

/-- The roots of two lists are equal exactly when their folds read the same leaves. -/
theorem root_eq_iff_reads_eq (hi : is ≠ []) (hj : js ≠ []) (hleaf : ∀ i ∈ is, ∀ j ∈ js, f i = f j ↔ g i = g j)
    (hf : Apart node is.length js.length (is.map f) (js.map f)) :
    root node (is.map f) = root node (js.map f) ↔ reads (is.map g) = reads (js.map g) := by
  have hg := apart_append is.length js.length (is.map g) (js.map g)
  rw [map_map, map_map] at hg
  have hiff := fold_eq_iff (Nat.le_refl _) (Nat.le_refl _) (length_pos_iff.mpr hi) (length_pos_iff.mpr hj)
    (g := fun i => [g i]) (fun i his j hjs => by simpa using hleaf i his j hjs) hf hg
  obtain ⟨x, hx⟩ := root_isSome (· ++ ·) (f := fun i => [g i]) hi
  obtain ⟨y, hy⟩ := root_isSome (· ++ ·) (f := fun i => [g i]) hj
  simp only [reads, root, length_map, map_map, Function.comp_def] at hx hy hiff ⊢
  rw [hiff, hx, hy, Option.some.injEq, Option.getD_some, Option.getD_some]

theorem reads_eq_nil_iff : reads as = [] ↔ as = [] := by
  refine ⟨fun h => ?_, fun h => by rw [h]; rfl⟩
  match as, h with
  | [], _ => rfl
  | [a], h => nomatch h
  | a :: b :: rest, h =>
    have htwo : 1 < ((a :: b :: rest).map fun c => [c]).length := by simp
    obtain ⟨p, hp, hfold⟩ := fold_combines (· ++ ·) (Nat.le_refl _) htwo
    have hpos := (length_eq_of_mem_inputs (k := 1) (by simp) Nat.one_pos hp).2
    rw [reads, root, hfold, Option.getD_some] at h
    rw [(append_eq_nil_iff.mp h).1] at hpos
    exact absurd hpos (Nat.lt_irrefl 0)

/-- Lists of one length that are read alike are equal. -/
theorem reads_inj (hlen : as.length = bs.length) (h : reads as = reads bs) : as = bs := by
  have hblocks := root_inj (by rw [length_map, length_map, hlen])
    (fun p hp q hq => (apart_append _ _ as bs).pairs p hp q (by simpa [hlen] using hq)) h
  exact map_injective_iff.mpr (fun a b hab => by simpa using hab) hblocks

end MerkleFold
