import ShellChain.Lemmas.ForkChoiceTree

/-!
# Common ancestors

The walk of `find_common_ancestor` ends at a block without a parent or at a parent that is not in the tree, which it takes
for an ancestor like any other. Two branches over one missing parent therefore have it as their common ancestor, although no
block of the tree is one.
-/

namespace ShellChain

open List

namespace ForkChoiceTree

variable {t : ForkChoiceTree} {a b c d x y p : ShellHash} {n : Nat}

/-- The parent of a block. The zero hash stands for none. -/
def Link (t : ForkChoiceTree) (child parent : ShellHash) : Prop :=
  t.parentMap.lookup child = some parent ∧ parent ≠ .zero

/-- A block is another block or above it. -/
def HasAncestor (t : ForkChoiceTree) : ShellHash → ShellHash → Prop :=
  Relation.ReflTransGen t.Link

/-- No block is above itself. -/
def Acyclic (t : ForkChoiceTree) : Prop :=
  ∀ hash, ¬ Relation.TransGen t.Link hash hash

/-- An ancestor of two blocks. -/
def Shared (t : ForkChoiceTree) (a b c : ShellHash) : Prop :=
  t.HasAncestor a c ∧ t.HasAncestor b c

/-- The blocks from right above one to another, each with the one before it as its parent. -/
def IsPath (t : ForkChoiceTree) (c : ShellHash) (path : List ShellHash) (x : ShellHash) : Prop :=
  (c :: path).IsChain (fun parent child => t.Link child parent) ∧ (c :: path).getLast? = some x

/-- The common ancestor is found exactly if there is one in the tree, it is the deepest one, and the paths from it to the two
blocks are disjoint. -/
structure AncestorExact (t : ForkChoiceTree) (a b : ShellHash) : Prop where
  found : (∃ c, t.findCommonAncestor a b = some c) ↔ ∃ c, t.contains c ∧ t.Shared a b c
  deepest : ∀ c, t.findCommonAncestor a b = some c → t.contains c ∧ t.Shared a b c ∧
    ∀ d, t.contains d → t.Shared a b d → t.HasAncestor c d
  paths : ∀ c, t.findCommonAncestor a b = some c → t.IsPath c (t.chainBetween a c) a ∧ t.IsPath c (t.chainBetween b c) b ∧
    (t.chainBetween a c).Disjoint (t.chainBetween b c)

/-! ## Walks -/

/-- The blocks that a walk from a block meets until it ends. -/
inductive Walk (t : ForkChoiceTree) : ShellHash → List ShellHash → Prop
  | last {x : ShellHash} (hend : ∀ p, ¬ t.Link x p) : Walk t x [x]
  | step {x p : ShellHash} {l : List ShellHash} (hlink : t.Link x p) (hwalk : Walk t p l) : Walk t x (x :: l)

/-- A block without a parent is a walk. -/
theorem ancestors_of_no_link (hend : ∀ p, ¬ t.Link x p) : t.ancestors n x = [x] := by
  cases n with
  | zero => rfl
  | succ n =>
    unfold ancestors
    cases hp : t.parentMap.lookup x with
    | none => rfl
    | some p => exact if_pos (by_contra fun hne => hend p ⟨hp, hne⟩)

/-- Every step of a walk without a cycle leaves a block that it does not meet again, so that the walk ends. -/
theorem walk_ancestors_of_card (h : t.Acyclic) (blocks : Finset ShellHash)
    (hblocks : ∀ y p, t.HasAncestor x y → t.Link y p → y ∈ blocks) (hcard : blocks.card ≤ n) :
    t.Walk x (t.ancestors n x) ∧ (t.ancestors n x).length ≤ n + 1 := by
  induction n generalizing x blocks with
  | zero =>
    refine ⟨.last fun p hp => ?_, le_rfl⟩
    have hx := hblocks x p .refl hp
    rw [Finset.card_eq_zero.mp (Nat.le_zero.mp hcard)] at hx
    cases hx
  | succ n ih =>
    by_cases hlink : ∃ p, t.Link x p
    · obtain ⟨p, hp⟩ := hlink
      have herase := Finset.card_erase_of_mem (hblocks x p .refl hp)
      obtain ⟨hwalk, hlength⟩ := ih (x := p) (blocks.erase x) (fun y q hy hq => Finset.mem_erase.mpr
        ⟨fun heq => h x (.head' hp (heq ▸ hy)), hblocks y q (hy.head hp) hq⟩) (by omega)
      have heq : t.ancestors (n + 1) x = x :: t.ancestors n p := by
        rw [ancestors, hp.1]
        exact if_neg hp.2
      rw [heq]
      exact ⟨.step hp hwalk, Nat.succ_le_succ hlength⟩
    · have hend : ∀ p, ¬ t.Link x p := fun p hp => hlink ⟨p, hp⟩
      rw [ancestors_of_no_link hend]
      exact ⟨.last hend, by simp⟩

theorem walk_ancestors (h : t.Acyclic) (x : ShellHash) :
    t.Walk x (t.ancestors t.parentMap.size x) ∧ (t.ancestors t.parentMap.size x).length ≤ t.parentMap.size + 1 := by
  refine walk_ancestors_of_card h t.parentMap.keys.toFinset (fun y p _ hp => mem_toFinset.mpr ?_) ?_
  · exact AList.mem_keys.mpr (AList.lookup_isSome.mp (by rw [hp.1]; rfl))
  · refine (toFinset_card_le _).trans (le_of_eq ?_)
    rw [AList.keys, keys, length_map, AList.size]

section Walks

variable {l : List ShellHash}

theorem HasAncestor.of_link (h : t.HasAncestor x y) (hp : t.Link x p) : y = x ∨ t.HasAncestor p y := by
  rcases Relation.ReflTransGen.cases_head h with heq | ⟨q, hq, hqy⟩
  · exact .inl heq.symm
  · exact .inr (Option.some.inj (hp.1.symm.trans hq.1) ▸ hqy)

theorem HasAncestor.of_no_link (h : t.HasAncestor x y) (hend : ∀ p, ¬ t.Link x p) : y = x := by
  rcases Relation.ReflTransGen.cases_head h with heq | ⟨q, hq, -⟩
  · exact heq.symm
  · exact absurd hq (hend q)

theorem Walk.mem_iff (h : t.Walk x l) : y ∈ l ↔ t.HasAncestor x y := by
  induction h with
  | last hend =>
    rw [mem_singleton]
    exact ⟨fun hy => hy ▸ .refl, fun hy => hy.of_no_link hend⟩
  | step hlink _ ih =>
    rw [mem_cons, ih]
    constructor
    · rintro (rfl | hy)
      · exact .refl
      · exact hy.head hlink
    · exact fun hy => hy.of_link hlink

/-- The first block of a walk that passes a test is above every other one that does. -/
theorem Walk.find {test : ShellHash → Bool} (h : t.Walk x l) (hfind : l.find? test = some c) (hd : t.HasAncestor x d)
    (htest : test d = true) : t.HasAncestor c d := by
  induction h with
  | last hend =>
    obtain rfl := hd.of_no_link hend
    rw [find?_cons_of_pos htest] at hfind
    exact Option.some.inj hfind ▸ .refl
  | @step x p l hlink _ ih =>
    by_cases hx : test x = true
    · rw [find?_cons_of_pos hx] at hfind
      exact Option.some.inj hfind ▸ hd
    · rw [find?_cons_of_neg hx] at hfind
      rcases hd.of_link hlink with rfl | hd
      · exact absurd htest hx
      · exact ih hfind hd

/-- The path of `chain_between` to an ancestor, and the blocks on it. -/
theorem Walk.path (h : t.Walk x l) (hc : t.HasAncestor x c) {fuel : Nat} (hfuel : l.length ≤ fuel) :
    ∃ path, t.walk c fuel x = some path ∧ t.IsPath c path.reverse x ∧
      ∀ y ∈ path, t.HasAncestor x y ∧ Relation.TransGen t.Link y c := by
  induction h generalizing fuel with
  | @last x hend =>
    obtain rfl := hc.of_no_link hend
    refine ⟨[], ?_, ⟨by simp, rfl⟩, by simp⟩
    cases fuel <;> simp [walk]
  | @step x p l hlink _ ih =>
    by_cases heq : x = c
    · subst heq
      refine ⟨[], ?_, ⟨by simp, rfl⟩, by simp⟩
      cases fuel <;> simp [walk]
    · cases fuel with
      | zero => cases hfuel
      | succ fuel =>
        have hp := (hc.of_link hlink).resolve_left (Ne.symm heq)
        obtain ⟨path, hwalk, ⟨hchain, hlast⟩, hmem⟩ := ih hp (Nat.le_of_succ_le_succ hfuel)
        refine ⟨x :: path, by rw [walk, if_neg heq, hlink.1]; simp [hwalk], ⟨?_, ?_⟩, fun y hy => ?_⟩
        · rw [reverse_cons, ← cons_append, isChain_append]
          refine ⟨hchain, by simp, fun z hz w hw => ?_⟩
          obtain rfl : z = p := Option.some.inj (hz.symm.trans hlast)
          obtain rfl : w = x := by simpa using hw.symm
          exact hlink
        · rw [reverse_cons, ← cons_append, getLast?_concat]
        · rcases mem_cons.mp hy with rfl | hy
          · exact ⟨.refl, .head' hlink hp⟩
          · exact ⟨(hmem y hy).1.head hlink, (hmem y hy).2⟩

end Walks

/-- The links that `chain_between` follows to a found ancestor. -/
theorem chainBetween_path (h : t.Acyclic) (hc : t.HasAncestor x c) : t.IsPath c (t.chainBetween x c) x ∧
    ∀ y ∈ t.chainBetween x c, t.HasAncestor x y ∧ Relation.TransGen t.Link y c := by
  obtain ⟨hwalk, hlength⟩ := walk_ancestors h x
  obtain ⟨path, hpath, hlinks, hmem⟩ := hwalk.path hc hlength
  rw [chainBetween, hpath]
  exact ⟨hlinks, fun y hy => hmem y (mem_reverse.mp hy)⟩

/-- A search finds the deepest common ancestor, in the tree or not, and finds one if there is any. -/
theorem findCommonAncestor_shared (h : t.Acyclic) (a b : ShellHash) :
    (∀ c, t.findCommonAncestor a b = some c → t.Shared a b c ∧ ∀ d, t.Shared a b d → t.HasAncestor c d) ∧
      ∀ d, t.Shared a b d → ∃ c, t.findCommonAncestor a b = some c := by
  have ha := (walk_ancestors h a).1
  have hb := (walk_ancestors h b).1
  refine ⟨fun c hfind => ⟨⟨?_, hb.mem_iff.mp (mem_of_find?_eq_some hfind)⟩, fun d hd => ?_⟩, fun d hd => ?_⟩
  · exact ha.mem_iff.mp (by simpa using find?_some hfind)
  · exact hb.find hfind hd.2 (decide_eq_true (ha.mem_iff.mpr hd.1))
  · rw [← Option.isSome_iff_exists, findCommonAncestor, find?_isSome]
    exact ⟨d, hb.mem_iff.mpr hd.2, decide_eq_true (ha.mem_iff.mpr hd.1)⟩

/-- With known blocks only in the parent links, everything holds unless the two blocks share nothing but a missing parent. -/
theorem ancestorExact_iff (h : t.Acyclic) (hknown : ∀ x p, t.parentMap.lookup x = some p → t.contains x) :
    t.AncestorExact a b ↔ ∀ d, t.Shared a b d → ∃ c, t.contains c ∧ t.Shared a b c := by
  obtain ⟨hdeepest, hfound⟩ := findCommonAncestor_shared h a b
  refine ⟨fun hexact d hd => hexact.found.mp (hfound d hd), fun hshared => ?_⟩
  have hcontains : ∀ c, t.findCommonAncestor a b = some c → t.contains c := by
    intro c hc
    obtain ⟨hboth, hbelow⟩ := hdeepest c hc
    obtain ⟨d, hd, hdshared⟩ := hshared c hboth
    -- a missing block has no parent, so that the one in the tree is not above it
    rcases Relation.ReflTransGen.cases_head (hbelow d hdshared) with rfl | ⟨p, hp, -⟩
    · exact hd
    · exact hknown c p hp.1
  refine ⟨⟨?_, ?_⟩, fun c hc => ?_, fun c hc => ?_⟩
  · rintro ⟨c, hc⟩
    exact ⟨c, hcontains c hc, (hdeepest c hc).1⟩
  · rintro ⟨c, -, hc⟩
    exact hfound c hc
  · exact ⟨hcontains c hc, (hdeepest c hc).1, fun d _ => (hdeepest c hc).2 d⟩
  · obtain ⟨⟨ha, hb⟩, hbelow⟩ := hdeepest c hc
    obtain ⟨hpath, hmem⟩ := chainBetween_path h ha
    obtain ⟨hpath', hmem'⟩ := chainBetween_path h hb
    refine ⟨hpath, hpath', fun y hy hy' => ?_⟩
    -- a block on both paths is shared and above the deepest one
    exact h c (.trans_right (hbelow y ⟨(hmem y hy).1, (hmem' y hy').1⟩) (hmem y hy).2)

/-- Links that lead down a ranking have no cycle. -/
theorem acyclic_of_rank (rank : ShellHash → Nat)
    (h : ∀ e ∈ t.parentMap.entries, e.2 ≠ .zero → rank e.2 < rank e.1) : t.Acyclic := by
  have hdown : ∀ x y, Relation.TransGen t.Link x y → rank y < rank x := by
    intro x y hxy
    induction hxy with
    | single hlink => exact h _ (AList.mem_lookup_iff.mp hlink.1) hlink.2
    | tail _ hlink ih => exact (h _ (AList.mem_lookup_iff.mp hlink.1) hlink.2).trans ih
  exact fun hash hcycle => lt_irrefl _ (hdown hash hash hcycle)

end ForkChoiceTree

/-- In every tree of a run without a cycle of parents, the common ancestor of two blocks and the paths from it are exact if
and only if the two blocks share a block of the tree wherever they share an ancestor at all. -/
theorem common_ancestor_exact_iff (genesis : ShellHash) (ops : List ForkChoiceOp)
    (hacyclic : (forkChoiceSystem.run (.new genesis) ops).Acyclic) (a b : ShellHash) :
    (forkChoiceSystem.run (.new genesis) ops).AncestorExact a b ↔
      ∀ d, (forkChoiceSystem.run (.new genesis) ops).Shared a b d →
        ∃ c, (forkChoiceSystem.run (.new genesis) ops).contains c = true ∧
          (forkChoiceSystem.run (.new genesis) ops).Shared a b c := by
  -- only entered blocks have a parent
  refine ForkChoiceTree.ancestorExact_iff hacyclic (TransitionSystem.invariant_run_of_step (M := forkChoiceSystem)
    (I := fun t : ForkChoiceTree => ∀ x p, t.parentMap.lookup x = some p → t.contains x = true)
    (fun _ _ hknown _ _ hp => (ForkChoiceTree.parent_step hknown hp).1) (fun x p hp => ?_) ops)
  rcases AList.lookup_insert_eq_some.mp hp with ⟨rfl, -⟩ | ⟨-, hnone⟩
  · rw [ForkChoiceTree.contains, ForkChoiceTree.new, AList.lookup_insert]
    rfl
  · cases hnone

/-! ## Two branches over a missing parent -/

namespace MissingParent

/-- A hash with one byte set. -/
def hashOf (n : UInt8) : ShellHash :=
  ⟨n :: List.replicate 31 1, by simp⟩

/-- Blocks 2 and 3 have a parent that the tree does not hold, and 4 and 5 have parent 2. -/
def forked : List ForkChoiceOp :=
  [.addBlock (hashOf 2) (hashOf 1) 2 0 false, .addBlock (hashOf 3) (hashOf 1) 2 0 false,
    .addBlock (hashOf 4) (hashOf 2) 3 0 false, .addBlock (hashOf 5) (hashOf 2) 3 0 false]

theorem acyclic_forked : (forkChoiceSystem.run (.new (hashOf 0)) forked).Acyclic :=
  ForkChoiceTree.acyclic_of_rank (fun hash => (hash.bytes.headD 0).toNat) (by decide +kernel)

/-- The missing parent is the common ancestor of the branches. -/
theorem missing_parent_found :
    let t := forkChoiceSystem.run (.new (hashOf 0)) forked
    t.Acyclic ∧ t.contains (hashOf 2) = true ∧ t.contains (hashOf 3) = true ∧
      t.findCommonAncestor (hashOf 2) (hashOf 3) = some (hashOf 1) ∧ t.contains (hashOf 1) = false ∧
      ¬ t.AncestorExact (hashOf 2) (hashOf 3) := by
  intro t
  have hfacts : t.contains (hashOf 2) = true ∧ t.contains (hashOf 3) = true ∧
      t.findCommonAncestor (hashOf 2) (hashOf 3) = some (hashOf 1) ∧ t.contains (hashOf 1) = false := by
    decide +kernel
  refine ⟨acyclic_forked, hfacts.1, hfacts.2.1, hfacts.2.2.1, hfacts.2.2.2, fun hexact => ?_⟩
  have hmissing := (hexact.deepest _ hfacts.2.2.1).1
  rw [hfacts.2.2.2] at hmissing
  cases hmissing

/-- Two blocks above block 2. -/
theorem exact_above_fork : (forkChoiceSystem.run (.new (hashOf 0)) forked).AncestorExact (hashOf 4) (hashOf 5) := by
  refine (common_ancestor_exact_iff (hashOf 0) forked acyclic_forked (hashOf 4) (hashOf 5)).mpr fun _ _ => ?_
  exact ⟨hashOf 2, by decide +kernel, .single (by unfold ForkChoiceTree.Link; decide +kernel),
    .single (by unfold ForkChoiceTree.Link; decide +kernel)⟩

end MissingParent

end ShellChain
