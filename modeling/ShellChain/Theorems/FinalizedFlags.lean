import ShellChain.Theorems.ForkChoiceFinality

/-!
# The flags of finalized blocks

A finalization flags the block and everything over it. Later blocks take the flag of their parent as they arrive, so that a
block whose parent is still missing stays without it, although it is over the finalized root once the parent is there; and
the finalized root itself loses its flag when it is added again.
-/

namespace ShellChain

open Relation.ReflTransGen

namespace ForkChoiceTree

variable {B : BlockSet} {t : ForkChoiceTree} {hash root : ShellHash} {number weight : Nat} {onFinalizedChain : Bool}

/-- Once there is a finalized root, the flagged blocks are those with the root as an ancestor, and a pruning at its height
keeps exactly these. -/
def FlagsExact (t : ForkChoiceTree) : Prop :=
  ∀ root, t.finalizedRoot = some root →
    (∀ hash score, t.scores.lookup hash = some score → (score.isFinalized = true ↔ t.HasAncestor hash root)) ∧
      ∀ score, t.scores.lookup root = some score → ∀ hash,
        ((t.pruneBelow score.blockNumber).contains hash = true ↔ t.contains hash = true ∧ t.HasAncestor hash root)

/-- Once there is a finalized root, it is not added again, and a new block over it arrives before its children. -/
def KeepsFlags (t : ForkChoiceTree) : ForkChoiceOp → Prop
  | .addBlock hash parent _ _ _ => t.finalizedRoot.isSome = true →
    t.finalizedRoot ≠ some hash ∧ (t.Flagged parent → t.Flagged hash ∨ t.children hash = [])
  | _ => True

variable {op : ForkChoiceOp}

theorem KeepsFlags.not_addsRoot (h : t.KeepsFlags op) : ¬ t.AddsRoot op := by
  cases op with
  | addBlock hash parent number weight onFinalizedChain => exact fun hroot => (h (by rw [hroot]; rfl)).1 hroot
  | _ => exact id

/-- Every block over the finalized root has the flag. -/
def Full (t : ForkChoiceTree) : Prop :=
  ∀ root, t.finalizedRoot = some root → ∀ hash, t.HasAncestor hash root → t.Flagged hash

/-! ## One operation -/

theorem flagsExact_of_full (h : Grown B t) (hfull : t.Full) : t.FlagsExact := by
  intro root hroot
  obtain ⟨rootScore, hrootScore, hfinal⟩ := (h.anchored root hroot).flagged
  refine ⟨fun hash score hscore => ⟨fun hflag => h.hasAncestor hroot ⟨score, hscore, hflag⟩, fun ha => ?_⟩,
    fun score hscore hash => ?_⟩
  · obtain ⟨_, hsame, hflag⟩ := hfull root hroot hash ha
    exact Option.some.inj (hscore.symm.trans hsame) ▸ hflag
  · obtain rfl := Option.some.inj (hrootScore.symm.trans hscore)
    have hnumber := (h.block root rootScore hrootScore).2
    cases hat : t.finalizedAt rootScore.blockNumber with
    | none =>
      rw [finalizedAt, List.argmin_eq_none, List.map_eq_nil_iff, List.filter_eq_nil_iff] at hat
      exact absurd (decide_eq_true ⟨hfinal, rfl⟩) (hat ⟨root, rootScore⟩ (AList.mem_lookup_iff.mp hrootScore))
    | some next =>
      obtain rfl := h.eq_root_of_finalizedAt hroot hnumber.le hat
      rw [← h.mem_descendants_iff (h.ne_zero hrootScore), ForkChoiceTree.contains, lookup_scores_pruneBelow hat,
        Option.isSome_map, ForkChoiceTree.contains]
      cases t.scores.lookup hash <;> simp

theorem Full.addBlock (hfull : t.Full) (h : Grown B t) (hblock : B.IsBlock hash)
    (hkeeps : t.KeepsFlags (.addBlock hash (B.parent hash) number weight onFinalizedChain)) :
    (t.addBlock hash (B.parent hash) number weight onFinalizedChain).Full := by
  intro root hroot other ha
  rw [finalizedRoot_addBlock] at hroot
  obtain ⟨hne, hchildren⟩ := hkeeps (by rw [hroot]; rfl)
  rw [flagged_addBlock hroot]
  induction ha using head_induction_on with
  | refl =>
    rw [if_neg (by rintro rfl; exact hne hroot)]
    exact (h.anchored root hroot).flagged
  | @head other p hlink _ ih =>
    obtain ⟨hlookup, hzero⟩ := hlink
    rw [parentMap_addBlock] at hlookup
    rcases AList.lookup_insert_eq_some.mp hlookup with ⟨rfl, rfl⟩ | ⟨hother, hold⟩
    · rw [ite_self] at ih
      rw [if_pos rfl]
      exact ih
    · rw [if_neg hother]
      -- the parent had its flag before, since an added block with children has no new flag
      have hp : t.Flagged p := by
        split_ifs at ih with heq
        · subst heq
          refine (hchildren ih).resolve_right fun hnil => ?_
          have hmem := mem_children.mpr hold
          rw [hnil] at hmem
          cases hmem
        · exact ih
      exact hfull root hroot other ((h.hasAncestor hroot hp).head ⟨hold, hzero⟩)

/-- Only an added block has a new parent. -/
theorem Grown.hasAncestor_of_step (h : Grown B t)
    (hop : ∀ hash parent number weight onFinalizedChain, op ≠ .addBlock hash parent number weight onFinalizedChain)
    (ha : (forkChoiceSystem.step t op).HasAncestor hash root) : t.HasAncestor hash root := by
  refine mono (fun x p hlink => ⟨?_, hlink.2⟩) hash root ha
  rcases (parent_step h.known hlink.1).2 with ⟨number, weight, onFinalizedChain, heq⟩ | hold | hzero
  · exact absurd heq (hop _ _ _ _ _)
  · exact hold
  · exact absurd hzero hlink.2

theorem Full.step (hfull : t.Full) (h : Grown B t) (hadds : B.Adds op) (hkeeps : t.KeepsFlags op) :
    (forkChoiceSystem.step t op).Full := by
  by_cases htakes : t.Takes op
  case neg =>
    rw [step_of_not_takes htakes]
    exact hfull
  -- a new finalized root flags the blocks over it
  have hnew : ∀ root other, t.contains root = true → t.HasAncestor other root →
      t.contains other = true ∧ other ∈ t.descendants root := by
    intro root other hroot ha
    obtain ⟨score, hscore⟩ := Option.isSome_iff_exists.mp hroot
    refine ⟨?_, (h.mem_descendants_iff (h.ne_zero hscore)).mpr ha⟩
    rcases cases_head ha with rfl | ⟨p, hlink, -⟩
    · exact hroot
    · exact h.known other p hlink.1
  cases op with
  | addBlock hash parent number weight onFinalizedChain =>
    obtain ⟨hblock, rfl, rfl⟩ := hadds
    exact hfull.addBlock h hblock hkeeps
  | updateAttestedWeight hash weight =>
    intro root hroot other ha
    rw [forkChoiceSystem, (updateAttestedWeight_same t hash weight).2.1] at hroot
    exact flagged_updateAttestedWeight.mpr (hfull root hroot other (h.hasAncestor_of_step (by simp) ha))
  | markFinalized hash =>
    intro root hroot other ha
    obtain rfl := Option.some.inj ((finalizedRoot_markFinalized htakes).symm.trans hroot)
    refine (flagged_markFinalized htakes).mpr (hnew hash other ?_ (h.hasAncestor_of_step (by simp) ha))
    simp only [Takes, canFinalize, Bool.and_eq_true] at htakes
    exact htakes.1
  | pruneBelow number =>
    intro root hroot other ha
    obtain ⟨next, hat⟩ := htakes
    obtain rfl := Option.some.inj ((finalizedRoot_pruneBelow hat).symm.trans hroot)
    obtain ⟨score, hscore, -⟩ := finalizedAt_mem hat
    exact (flagged_pruneBelow hat).mpr (hnew next other (Option.isSome_iff_exists.mpr ⟨score, hscore⟩)
      (h.hasAncestor_of_step (by simp) ha))
  | removeSubtree hash =>
    intro root hroot other ha
    rw [forkChoiceSystem, finalizedRoot_removeSubtree htakes] at hroot
    refine (flagged_removeSubtree htakes).mpr ⟨hfull root hroot other (h.hasAncestor_of_step (by simp) ha), ?_⟩
    rcases cases_head ha with rfl | ⟨p, hlink, -⟩
    · exact not_mem_of_canRemove htakes hroot
    · exact ((lookup_parentMap_removeSubtree htakes).mp hlink.1).2

/-- Exact flags after an added block say that it met the condition. -/
theorem keepsFlags_of_exact (h : Grown B t) (hadds : B.Adds op) (hexact : (forkChoiceSystem.step t op).FlagsExact) :
    t.KeepsFlags op := by
  cases op with
  | addBlock hash parent number weight onFinalizedChain =>
    obtain ⟨hblock, rfl, rfl⟩ := hadds
    intro hsome
    obtain ⟨root, hroot⟩ := Option.isSome_iff_exists.mp hsome
    obtain ⟨hflags, -⟩ := hexact root (finalizedRoot_addBlock.trans hroot)
    simp only [forkChoiceSystem] at hflags
    have hflag : ∀ other, (t.addBlock hash (B.parent hash) (B.number hash) weight onFinalizedChain).HasAncestor other root →
        (∃ score, (t.addBlock hash (B.parent hash) (B.number hash) weight onFinalizedChain).scores.lookup other = some score) →
        if other = hash then t.Flagged (B.parent hash) else t.Flagged other := by
      rintro other ha ⟨score, hscore⟩
      exact (flagged_addBlock hroot).mp ⟨score, hscore, (hflags other score hscore).mpr ha⟩
    -- what is over a flagged parent is above the root
    have habove : t.Flagged (B.parent hash) → B.number root < B.number hash := by
      intro hparent
      have hle := (h.descends hroot hparent).number_le.1
      obtain ⟨score, hscore, -⟩ := hparent
      have hnumber := hblock.number_eq (h.ne_zero hscore)
      omega
    refine ⟨fun hsame => ?_, fun hparent => ?_⟩
    · obtain rfl := Option.some.inj (hroot.symm.trans hsame)
      have hlost := hflag root .refl ⟨_, scores_addBlock ▸ AList.lookup_insert _⟩
      exact lt_irrefl _ (habove (by simpa using hlost))
    · by_contra! hnot
      obtain ⟨child, hchild⟩ := List.exists_mem_of_ne_nil _ hnot.2
      have hlink : t.Link child hash := ⟨mem_children.mp hchild, hblock.1⟩
      obtain ⟨-, hparentOf, hnumber⟩ := h.isBlock_of_link hlink
      have hne : child ≠ hash := by
        rintro rfl
        omega
      obtain ⟨score, hscore⟩ := (h.parent child hash hlink.1).1
      have hover : (t.addBlock hash (B.parent hash) (B.number hash) weight onFinalizedChain).HasAncestor hash root :=
        (hflags hash _ (scores_addBlock ▸ AList.lookup_insert _)).mp (by
          simpa [addedScore, hroot, Flagged, Option.any_eq_true] using hparent)
      have hflagged := hflag child (hover.head ⟨by rw [parentMap_addBlock, AList.lookup_insert_ne hne, hlink.1], hblock.1⟩)
        ⟨score, by rw [scores_addBlock, AList.lookup_insert_ne hne, hscore]⟩
      rw [if_neg hne] at hflagged
      have hroot' : child ≠ root := by
        rintro rfl
        have := habove hparent
        omega
      exact hnot.1 (hparentOf ▸ ((h.anchored root hroot).parent child hflagged hroot').2)
  | _ => trivial

instance (t : ForkChoiceTree) (hash : ShellHash) : Decidable (t.Flagged hash) :=
  decidable_of_iff ((t.scores.lookup hash).any BlockScore.isFinalized = true) (by simp [Flagged, Option.any_eq_true])

instance (t : ForkChoiceTree) : ∀ op, Decidable (t.KeepsFlags op)
  | .addBlock hash parent _ _ _ => inferInstanceAs (Decidable (t.finalizedRoot.isSome = true →
      t.finalizedRoot ≠ some hash ∧ (t.Flagged parent → t.Flagged hash ∨ t.children hash = [])))
  | .updateAttestedWeight _ _ | .markFinalized _ | .pruneBelow _ | .removeSubtree _ => .isTrue trivial

end ForkChoiceTree

/-- From a fresh tree, over any operations that add blocks of a set: the flags are exact after every operation if and only
if the finalized root is never added again and no block over it arrives after one of its children. -/
theorem flags_exact_iff (B : BlockSet) (hgenesis : B.IsBlock B.genesis) (hnumber : B.number B.genesis = 0)
    (ops : List ForkChoiceOp) (hops : ∀ op ∈ ops, B.Adds op) :
    (∀ n, (forkChoiceSystem.run (.new B.genesis) (ops.take n)).FlagsExact) ↔
      forkChoiceSystem.Admits ForkChoiceTree.KeepsFlags (.new B.genesis) ops := by
  refine TransitionSystem.forall_take_iff_admits_of (M := forkChoiceSystem)
    (I := fun t : ForkChoiceTree => t.Grown B ∧ t.Full) (D := B.Adds)
    (fun t ht => ForkChoiceTree.flagsExact_of_full ht.1 ht.2)
    (fun t op ht hadds hkeeps => ⟨ht.1.step hadds hkeeps.not_addsRoot, ht.2.step ht.1 hadds hkeeps⟩)
    (fun t op ht hadds => ForkChoiceTree.keepsFlags_of_exact ht.1 hadds) ⟨?_, ?_⟩ hops
  · exact ForkChoiceTree.grown_new hgenesis hnumber
  · intro root hroot
    cases hroot

namespace LateParent

open TwoBranches

/-- Block 1 is finalized, and block 3 arrives before its parent, block 2. -/
def childFirst : List ForkChoiceOp :=
  [add 1 0, .markFinalized (hashOf 1), add 3 0, add 2 0]

/-- Block 1 is finalized and added again. -/
def rootAgain : List ForkChoiceOp :=
  [add 1 0, .markFinalized (hashOf 1), add 1 0]

/-- Block 3 is over the finalized root without a flag, and the root that is added again has lost its flag. -/
theorem flags_not_exact :
    (∀ op ∈ childFirst ++ rootAgain, blocks.Adds op) ∧
      ¬ (forkChoiceSystem.run (.new (hashOf 0)) childFirst).FlagsExact ∧
      ¬ (forkChoiceSystem.run (.new (hashOf 0)) rootAgain).FlagsExact := by
  refine ⟨by decide +kernel, fun hexact => ?_, fun hexact => ?_⟩
  · have hflag := (hexact (hashOf 1) (by decide +kernel)).1 (hashOf 3) ⟨false, 0, 3, hashOf 3⟩ (by decide +kernel)
    have hlinks : (forkChoiceSystem.run (.new (hashOf 0)) childFirst).Link (hashOf 3) (hashOf 2) ∧
        (forkChoiceSystem.run (.new (hashOf 0)) childFirst).Link (hashOf 2) (hashOf 1) := by
      unfold ForkChoiceTree.Link
      decide +kernel
    cases hflag.mpr (.head hlinks.1 (.single hlinks.2))
  · have hflag := (hexact (hashOf 1) (by decide +kernel)).1 (hashOf 1) ⟨false, 0, 1, hashOf 1⟩ (by decide +kernel)
    cases hflag.mpr .refl

/-- Blocks 2 and 3 arrive in order, and the tree is pruned. -/
theorem flags_exact_in_order :
    (forkChoiceSystem.run (.new (hashOf 0)) [add 4 0, add 1 0, .markFinalized (hashOf 1), add 2 0, add 3 0]).FlagsExact := by
  have hfacts : blocks.IsBlock blocks.genesis ∧
      (∀ op ∈ [add 4 0, add 1 0, .markFinalized (hashOf 1), add 2 0, add 3 0], blocks.Adds op) ∧
      forkChoiceSystem.Admits ForkChoiceTree.KeepsFlags (.new blocks.genesis)
        [add 4 0, add 1 0, .markFinalized (hashOf 1), add 2 0, add 3 0] := by
    unfold BlockSet.IsBlock
    decide +kernel
  exact (flags_exact_iff blocks hfacts.1 rfl _ hfacts.2.1).mpr hfacts.2.2 5

end LateParent

end ShellChain
