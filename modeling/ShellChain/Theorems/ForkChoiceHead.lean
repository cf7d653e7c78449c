import ShellChain.Lemmas.ForkChoiceTree

/-!
# The head of the fork choice

A scan of the tree always finds the best block. The two operations that compare with the recorded score only keep the head
the best block unless they make the head itself worse: a known head that is added again with a lower score keeps the old
score on record, and a head whose weight falls stays the head. A removal that takes the last block leaves a head that is
gone.
-/

namespace ShellChain

open AList

namespace ForkChoiceTree

variable {t : ForkChoiceTree} {hash parent : ShellHash} {number weight : Nat} {onFinalizedChain : Bool}

/-- The head stays the best block: a head that is added again has no lower score, a new weight of the head leaves it no
worse than any other block, and a removal leaves a block. -/
def KeepsBest (t : ForkChoiceTree) : ForkChoiceOp → Prop
  | .addBlock hash parent number weight onFinalizedChain =>
    hash = t.head → t.headScore ≤ t.addedScore hash parent number weight onFinalizedChain
  | .updateAttestedWeight hash weight =>
    hash = t.head → ∀ e ∈ t.scores.entries, e.1 ≠ t.head → e.2 ≤ { t.headScore with attestedWeight := weight }
  | .removeSubtree root => t.canRemove root = true → ∃ e ∈ t.scores.entries, e.1 ∉ t.descendants root
  | .markFinalized _ => True
  | .pruneBelow _ => True

theorem best_new (genesis : ShellHash) : (new genesis).Best := by
  refine ⟨lookup_insert _, fun hash score hscore => ?_⟩
  rcases lookup_insert_eq_some.mp hscore with ⟨-, rfl⟩ | ⟨-, hscore⟩
  · exact le_rfl
  · cases hscore

/-- A tree in which one score has changed, with the better of the old head and that block as its head. -/
theorem best_promote {u : ForkChoiceTree} {score : BlockScore} (h : t.Best) (hscores : u.scores = t.scores.insert hash score)
    (hhead : u.head = t.head) (hheadScore : u.headScore = t.headScore) (hsame : hash = t.head → t.headScore ≤ score) :
    (u.promote hash score).Best := by
  refine ⟨?_, fun other s hs => ?_⟩
  · rcases lt_or_ge u.headScore score with hlt | hle
    · rw [promote_of_lt hlt, hscores, lookup_insert]
    · rw [promote_of_le hle, hscores, hhead]
      by_cases hkey : hash = t.head
      · rw [← hkey, lookup_insert, le_antisymm hle (hheadScore ▸ hsame hkey)]
      · rw [lookup_insert_ne (Ne.symm hkey), h.head, hheadScore]
  · rw [headScore_promote, hheadScore]
    rw [promote_eq, hscores] at hs
    rcases lookup_insert_eq_some.mp hs with ⟨-, rfl⟩ | ⟨-, hs⟩
    · exact le_max_right _ _
    · exact (h.le other s hs).trans (le_max_left _ _)

theorem best_addBlock_iff (h : t.Best) : (t.addBlock hash parent number weight onFinalizedChain).Best ↔
      t.KeepsBest (.addBlock hash parent number weight onFinalizedChain) := by
  constructor
  · intro hbest hhead
    by_contra hlt
    rw [not_le] at hlt
    have hsame : t.addBlock hash parent number weight onFinalizedChain = { t with
        parentMap := t.parentMap.insert hash parent
        scores := t.scores.insert hash (t.addedScore hash parent number weight onFinalizedChain) } :=
      if_neg hlt.not_gt
    have hkept := hbest.head
    rw [hsame, ← hhead, lookup_insert] at hkept
    exact hlt.ne (Option.some.inj hkept)
  · exact best_promote h rfl rfl rfl

theorem best_updateAttestedWeight_iff (h : t.Best) :
    (t.updateAttestedWeight hash weight).Best ↔ t.KeepsBest (.updateAttestedWeight hash weight) := by
  unfold updateAttestedWeight
  by_cases hhead : hash = t.head
  · subst hhead
    rw [h.head]
    simp only [if_pos]
    constructor
    · intro hbest _ e he hne
      refine hbest.le e.1 e.2 ?_
      rw [lookup_insert_ne hne]
      exact mem_lookup_iff.2 he
    · intro hkeeps
      refine ⟨lookup_insert _, fun other score hscore => ?_⟩
      rcases lookup_insert_eq_some.mp hscore with ⟨-, rfl⟩ | ⟨hother, hscore⟩
      · exact le_rfl
      · exact hkeeps rfl ⟨other, score⟩ (mem_lookup_iff.mp hscore) hother
  · refine iff_of_true ?_ fun hsame => absurd hsame hhead
    split
    · exact h
    · rw [if_neg hhead]
      exact best_promote h rfl rfl rfl fun hsame => absurd hsame hhead

theorem best_markFinalized (h : t.Best) : (t.markFinalized hash).Best := by
  unfold markFinalized
  split_ifs
  · refine best_recalculateHead t.head ?_
    rw [lookup_mapWithKey, h.head]
    simp
  · exact h

theorem best_pruneBelow (h : t.Best) : (t.pruneBelow number).Best := by
  unfold pruneBelow
  split
  · exact h
  · rename_i root hroot
    obtain ⟨score, hscore, -⟩ := finalizedAt_mem hroot
    refine best_recalculateHead root ?_
    rw [lookup_mapVal, lookup_retain, hscore]
    simp [self_mem_descendants]

theorem best_removeSubtree_iff {root : ShellHash} (h : t.Best) :
    (t.removeSubtree root).Best ↔ t.KeepsBest (.removeSubtree root) := by
  unfold removeSubtree
  split_ifs with hcan
  · constructor
    · intro hbest _
      -- the recorded head is left in the tree
      have hhead := hbest.head
      rw [recalculateHead_eq] at hhead
      simp only [lookup_retain, Option.filter_eq_some_iff, decide_eq_true_eq] at hhead
      exact ⟨⟨_, _⟩, mem_lookup_iff.mp hhead.1, hhead.2⟩
    · intro hkeeps
      obtain ⟨⟨other, score⟩, he, hkept⟩ := hkeeps hcan
      refine best_recalculateHead other ?_
      rw [lookup_retain, mem_lookup_iff.2 he]
      simp [hkept]
  · exact iff_of_true h fun hremoves => absurd hremoves hcan

theorem best_step_iff (t : ForkChoiceTree) (op : ForkChoiceOp) (h : t.Best) :
    (forkChoiceSystem.step t op).Best ↔ t.KeepsBest op := by
  cases op with
  | addBlock hash parent number weight onFinalizedChain => exact best_addBlock_iff h
  | updateAttestedWeight hash weight => exact best_updateAttestedWeight_iff h
  | markFinalized hash => exact iff_of_true (best_markFinalized h) trivial
  | pruneBelow number => exact iff_of_true (best_pruneBelow h) trivial
  | removeSubtree root => exact best_removeSubtree_iff h

end ForkChoiceTree

/-- After every operation of a run the head is the best block with its score, exactly when no operation of the run makes
the head worse than another block or than its recorded score, or removes every block. -/
theorem head_best_iff (genesis : ShellHash) (ops : List ForkChoiceOp) :
    (∀ n, (forkChoiceSystem.run (.new genesis) (ops.take n)).Best) ↔
      forkChoiceSystem.Admits ForkChoiceTree.KeepsBest (.new genesis) ops :=
  TransitionSystem.forall_take_iff_admits ForkChoiceTree.best_step_iff (ForkChoiceTree.best_new genesis) ops

/-! ## Heads that are not the best block -/

namespace StaleHeadCex

theorem length_hashOf (n : UInt8) : (n :: List.replicate 31 (1 : UInt8)).length = 32 :=
  rfl

/-- A hash with one byte set. -/
def hashOf (n : UInt8) : ShellHash :=
  ⟨n :: List.replicate 31 1, length_hashOf n⟩

/-- Two blocks on genesis, the first with the greater weight. -/
def forked : ForkChoiceTree :=
  forkChoiceSystem.run (.new (hashOf 0)) [.addBlock (hashOf 1) (hashOf 0) 1 5 false, .addBlock (hashOf 2) (hashOf 0) 1 4 false]

/-- The weight of the head falls. -/
def lowered : ForkChoiceTree :=
  forkChoiceSystem.run forked [.updateAttestedWeight (hashOf 1) 1]

/-- The head is added again with less weight. -/
def readded : ForkChoiceTree :=
  forkChoiceSystem.run forked [.addBlock (hashOf 1) (hashOf 0) 1 0 false]

/-- Genesis is added again with a parent, and removed with everything. -/
def emptied : ForkChoiceTree :=
  forkChoiceSystem.run forked [.addBlock (hashOf 0) (hashOf 9) 0 0 false, .removeSubtree (hashOf 0)]

/-- The head is worse than another block, or has another score than the recorded one, or is gone. -/
theorem head_not_best :
    (lowered.head = hashOf 1 ∧ lowered.headScore < ⟨false, 4, 1, hashOf 2⟩ ∧
        lowered.scores.lookup (hashOf 2) = some ⟨false, 4, 1, hashOf 2⟩) ∧
      (readded.head = hashOf 1 ∧ readded.headScore = ⟨false, 5, 1, hashOf 1⟩ ∧
        readded.scores.lookup (hashOf 1) = some ⟨false, 0, 1, hashOf 1⟩) ∧
      (emptied.head = hashOf 1 ∧ emptied.scores.lookup (hashOf 1) = none) := by
  decide +kernel

end StaleHeadCex

end ShellChain
