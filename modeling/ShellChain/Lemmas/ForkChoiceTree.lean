import ShellChain.ForkChoiceTree

/-!
# The tree of the fork choice

What a lookup finds after each operation on the tree, that the loops over children collect exactly the blocks below one, and
that a scan of the tree finds its best block.
-/

namespace ShellChain.ForkChoiceTree

open Worklist AList

variable {t : ForkChoiceTree} {hash parent : ShellHash}

/-! ## Descendants -/

theorem mem_children {child : ShellHash} : child ∈ t.children parent ↔ t.parentMap.lookup child = some parent := by
  rw [← Option.mem_def, mem_lookup_iff, children, List.mem_map]
  constructor
  · rintro ⟨⟨c, p⟩, he, rfl⟩
    obtain ⟨hmem, hp⟩ := List.mem_filter.mp he
    rw [decide_eq_true_eq] at hp
    exact hp ▸ hmem
  · intro hmem
    exact ⟨⟨child, parent⟩, List.mem_filter.mpr ⟨hmem, decide_eq_true rfl⟩, rfl⟩

/-- Every entry of a list is counted for one value at most. -/
theorem sum_filter_length_le {α β : Type} [DecidableEq β] (f : α → β) (l : List α) (values : Finset β) :
    ∑ b ∈ values, (l.filter fun a => f a = b).length ≤ l.length := by
  induction l with
  | nil => simp
  | cons a l ih =>
    have hcons : ∀ b, ((a :: l).filter fun a => f a = b).length =
        (l.filter fun a => f a = b).length + if f a = b then 1 else 0 := by
      intro b
      by_cases h : f a = b <;> simp [h]
    simp only [hcons, Finset.sum_add_distrib, Finset.sum_ite_eq, List.length_cons]
    have : (if f a ∈ values then 1 else 0) ≤ 1 := by split_ifs <;> omega
    omega

variable {other : ShellHash} {score : BlockScore}

/-- The loops collect exactly the blocks that can be reached along the children. -/
theorem mem_descendants : other ∈ t.descendants hash ↔ Reaches t.children hash other := by
  refine mem_visit_iff (insert hash t.parentMap.keys.toFinset) ?_ (Finset.mem_insert_self ..) ?_
  · intro x _ y hy
    refine Finset.mem_insert_of_mem (List.mem_toFinset.mpr ?_)
    exact mem_keys.mpr (lookup_isSome.mp (by rw [mem_children.mp hy]; rfl))
  · have hsum := sum_filter_length_le (fun e : Sigma fun _ : ShellHash => ShellHash => e.2) t.parentMap.entries
      (insert hash t.parentMap.keys.toFinset)
    simp only [children, List.length_map, size]
    omega

theorem self_mem_descendants (t : ForkChoiceTree) (hash : ShellHash) : hash ∈ t.descendants hash :=
  mem_descendants.mpr .refl

/-- A block below another is that block, or its parent is below it. -/
theorem descendants_cases (h : other ∈ t.descendants hash) :
    other = hash ∨ ∃ p, t.parentMap.lookup other = some p ∧ p ∈ t.descendants hash := by
  rcases Relation.ReflTransGen.cases_tail (mem_descendants.mp h) with rfl | ⟨p, hreach, hchild⟩
  · exact .inl rfl
  · exact .inr ⟨p, mem_children.mp hchild, mem_descendants.mpr hreach⟩

theorem mem_descendants_of_parent (h : t.parentMap.lookup other = some parent) (hparent : parent ∈ t.descendants hash) :
    other ∈ t.descendants hash :=
  mem_descendants.mpr ((mem_descendants.mp hparent).tail (mem_children.mpr h))

/-! ## The best block -/

/-- The flag is the first field that is compared. -/
theorem isFinalized_of_le {a b : BlockScore} (hle : a ≤ b) (h : a.isFinalized = true) : b.isFinalized = true := by
  have hmono : a.isFinalized ≤ b.isFinalized := Prod.Lex.monotone_fst _ _ hle
  rw [h] at hmono
  exact top_le_iff.mp hmono

/-- The recorded head is a block of the tree with its score, and no block has a better one. -/
structure Best (t : ForkChoiceTree) : Prop where
  head : t.scores.lookup t.head = some t.headScore
  le : ∀ hash score, t.scores.lookup hash = some score → score ≤ t.headScore

/-- A scan changes only the head. -/
theorem recalculateHead_eq (t : ForkChoiceTree) :
    t.recalculateHead = { t with head := t.recalculateHead.head, headScore := t.recalculateHead.headScore } := by
  unfold recalculateHead
  split <;> rfl

/-- A scan of a tree that has a block finds its best one. -/
theorem best_recalculateHead (hash : ShellHash) (hblock : t.scores.lookup hash ≠ none) : t.recalculateHead.Best := by
  unfold recalculateHead
  split
  · rename_i hnone
    rw [List.argmax_eq_none] at hnone
    obtain ⟨score, hscore⟩ := Option.ne_none_iff_exists'.mp hblock
    have hmem := mem_lookup_iff.mp (Option.mem_def.mpr hscore)
    rw [hnone] at hmem
    cases hmem
  · rename_i best hbest
    refine ⟨mem_lookup_iff.2 (List.argmax_mem hbest), fun h score hscore => ?_⟩
    exact List.le_of_mem_argmax (mem_lookup_iff.mp (Option.mem_def.mpr hscore)) hbest

theorem promote_of_lt (h : t.headScore < score) (hash : ShellHash) :
    t.promote hash score = { t with head := hash, headScore := score } :=
  if_pos h

theorem promote_of_le (h : score ≤ t.headScore) (hash : ShellHash) : t.promote hash score = t :=
  if_neg (not_lt.mpr h)

theorem headScore_promote (t : ForkChoiceTree) (hash : ShellHash) (score : BlockScore) :
    (t.promote hash score).headScore = max t.headScore score := by
  rcases lt_or_ge t.headScore score with hlt | hle
  · rw [promote_of_lt hlt, max_eq_right hlt.le]
  · rw [promote_of_le hle, max_eq_left hle]

theorem promote_eq (t : ForkChoiceTree) (hash : ShellHash) (score : BlockScore) :
    t.promote hash score = { t with head := (t.promote hash score).head, headScore := (t.promote hash score).headScore } := by
  unfold promote
  split_ifs <;> rfl

/-- The block that a pruning takes is flagged and at its height. -/
theorem finalizedAt_mem {number : Nat} {root : ShellHash} (h : t.finalizedAt number = some root) :
    ∃ score, t.scores.lookup root = some score ∧ score.isFinalized = true ∧ score.blockNumber = number := by
  obtain ⟨⟨_, score⟩, he, rfl⟩ := List.mem_map.mp (List.argmin_mem h)
  obtain ⟨hmem, hflags⟩ := List.mem_filter.mp he
  rw [decide_eq_true_eq] at hflags
  exact ⟨score, mem_lookup_iff.2 hmem, hflags⟩

/-! ## What an operation leaves -/

section Lookups

variable {other p : ShellHash} {number weight : Nat} {onFinalizedChain : Bool} {score : BlockScore}

@[simp] theorem scores_recalculateHead (t : ForkChoiceTree) : t.recalculateHead.scores = t.scores := by
  rw [recalculateHead_eq]

@[simp] theorem parentMap_recalculateHead (t : ForkChoiceTree) : t.recalculateHead.parentMap = t.parentMap := by
  rw [recalculateHead_eq]

@[simp] theorem finalizedRoot_recalculateHead (t : ForkChoiceTree) : t.recalculateHead.finalizedRoot = t.finalizedRoot := by
  rw [recalculateHead_eq]

theorem scores_addBlock : (t.addBlock hash parent number weight onFinalizedChain).scores =
    t.scores.insert hash (t.addedScore hash parent number weight onFinalizedChain) := by
  rw [addBlock, promote_eq]

theorem parentMap_addBlock : (t.addBlock hash parent number weight onFinalizedChain).parentMap =
    t.parentMap.insert hash parent := by
  rw [addBlock, promote_eq]

theorem finalizedRoot_addBlock :
    (t.addBlock hash parent number weight onFinalizedChain).finalizedRoot = t.finalizedRoot := by
  rw [addBlock, promote_eq]

/-- A new weight changes one score and nothing else but the head. -/
theorem updateAttestedWeight_same (t : ForkChoiceTree) (hash : ShellHash) (weight : Nat) :
    (t.updateAttestedWeight hash weight).parentMap = t.parentMap ∧
      (t.updateAttestedWeight hash weight).finalizedRoot = t.finalizedRoot ∧
      ∀ other, (t.updateAttestedWeight hash weight).scores.lookup other = (t.scores.lookup other).map fun score =>
        if other = hash then { score with attestedWeight := weight } else score := by
  have hsame : ∀ old, t.scores.lookup hash = some old → ∀ other,
      (t.scores.insert hash { old with attestedWeight := weight }).lookup other = (t.scores.lookup other).map fun score =>
        if other = hash then { score with attestedWeight := weight } else score := by
    intro old hold other
    by_cases heq : other = hash
    · subst heq
      simp [lookup_insert, hold]
    · simp [lookup_insert_ne heq, heq]
  unfold updateAttestedWeight
  split
  · rename_i hnone
    refine ⟨rfl, rfl, fun other => ?_⟩
    by_cases heq : other = hash
    · subst heq
      rw [hnone]
      rfl
    · simp [heq]
  · rename_i old hold
    split_ifs
    · exact ⟨rfl, rfl, hsame old hold⟩
    · rw [promote_eq]
      exact ⟨rfl, rfl, hsame old hold⟩

theorem parentMap_markFinalized (t : ForkChoiceTree) (hash : ShellHash) :
    (t.markFinalized hash).parentMap = t.parentMap := by
  unfold markFinalized
  split_ifs
  · rw [parentMap_recalculateHead]
  · rfl

theorem lookup_scores_markFinalized (h : t.canFinalize hash = true) (other : ShellHash) :
    (t.markFinalized hash).scores.lookup other = (t.scores.lookup other).map fun score =>
      { score with isFinalized := other ∈ t.descendants hash } := by
  rw [markFinalized, if_neg (not_not.mpr h), scores_recalculateHead, lookup_mapWithKey]

theorem lookup_scores_pruneBelow (h : t.finalizedAt number = some hash) (other : ShellHash) :
    (t.pruneBelow number).scores.lookup other = ((t.scores.lookup other).filter fun _ =>
      other ∈ t.descendants hash).map fun score => { score with isFinalized := true } := by
  simp only [pruneBelow, h, scores_recalculateHead, lookup_mapVal, lookup_retain]

theorem lookup_parentMap_pruneBelow (h : t.finalizedAt number = some hash) :
    (t.pruneBelow number).parentMap.lookup other = some p ↔ (other = hash ∧ ShellHash.zero = p) ∨
      (other ≠ hash ∧ t.parentMap.lookup other = some p ∧ other ∈ t.descendants hash) := by
  simp only [pruneBelow, h, parentMap_recalculateHead, lookup_insert_eq_some, lookup_retain_eq_some,
    decide_eq_true_eq]

theorem lookup_scores_removeSubtree (h : t.canRemove hash = true) (other : ShellHash) :
    (t.removeSubtree hash).scores.lookup other = (t.scores.lookup other).filter fun _ => other ∉ t.descendants hash := by
  rw [removeSubtree, if_neg (not_not.mpr h), scores_recalculateHead, lookup_retain]

theorem lookup_parentMap_removeSubtree (h : t.canRemove hash = true) :
    (t.removeSubtree hash).parentMap.lookup other = some p ↔
      t.parentMap.lookup other = some p ∧ other ∉ t.descendants hash := by
  rw [removeSubtree, if_neg (not_not.mpr h), parentMap_recalculateHead, lookup_retain_eq_some, decide_eq_true_eq]

theorem finalizedRoot_markFinalized (h : t.canFinalize hash = true) : (t.markFinalized hash).finalizedRoot = some hash := by
  rw [markFinalized, if_neg (not_not.mpr h), finalizedRoot_recalculateHead]

theorem finalizedRoot_pruneBelow (h : t.finalizedAt number = some hash) : (t.pruneBelow number).finalizedRoot = some hash := by
  simp only [pruneBelow, h, finalizedRoot_recalculateHead]

theorem finalizedRoot_removeSubtree (h : t.canRemove hash = true) :
    (t.removeSubtree hash).finalizedRoot = t.finalizedRoot := by
  rw [removeSubtree, if_neg (not_not.mpr h), finalizedRoot_recalculateHead]

/-- The operation is not refused. -/
def Takes (t : ForkChoiceTree) : ForkChoiceOp → Prop
  | .markFinalized hash => t.canFinalize hash = true
  | .pruneBelow number => ∃ root, t.finalizedAt number = some root
  | .removeSubtree hash => t.canRemove hash = true
  | _ => True

variable {op : ForkChoiceOp}

theorem step_of_not_takes (h : ¬ t.Takes op) : forkChoiceSystem.step t op = t := by
  cases op with
  | addBlock hash parent number weight onFinalizedChain => exact absurd trivial h
  | updateAttestedWeight hash weight => exact absurd trivial h
  | markFinalized hash => exact if_pos h
  | pruneBelow number =>
    have hnone : t.finalizedAt number = none := Option.eq_none_iff_forall_ne_some.mpr fun root hroot => h ⟨root, hroot⟩
    simp only [forkChoiceSystem, pruneBelow, hnone]
  | removeSubtree hash => exact if_pos h

/-- A scored block is added, or was in the tree under the same number. -/
theorem score_step (h : (forkChoiceSystem.step t op).scores.lookup other = some score) :
    (∃ parent weight onFinalizedChain, op = .addBlock other parent score.blockNumber weight onFinalizedChain) ∨
      ∃ old, t.scores.lookup other = some old ∧ old.blockNumber = score.blockNumber := by
  by_cases htakes : t.Takes op
  case neg => exact .inr ⟨score, step_of_not_takes htakes ▸ h, rfl⟩
  cases op with
  | addBlock hash parent number weight onFinalizedChain =>
    rcases lookup_insert_eq_some.mp (scores_addBlock ▸ h) with ⟨rfl, rfl⟩ | ⟨-, hold⟩
    · exact .inl ⟨parent, weight, onFinalizedChain, rfl⟩
    · exact .inr ⟨score, hold, rfl⟩
  | updateAttestedWeight hash weight =>
    obtain ⟨old, hold, rfl⟩ := Option.map_eq_some_iff.mp (((updateAttestedWeight_same t hash weight).2.2 other).symm.trans h)
    exact .inr ⟨old, hold, by split_ifs <;> rfl⟩
  | markFinalized hash =>
    obtain ⟨old, hold, rfl⟩ := Option.map_eq_some_iff.mp ((lookup_scores_markFinalized htakes other).symm.trans h)
    exact .inr ⟨old, hold, rfl⟩
  | pruneBelow number =>
    obtain ⟨root, hroot⟩ := htakes
    obtain ⟨old, hold, rfl⟩ := Option.map_eq_some_iff.mp ((lookup_scores_pruneBelow hroot other).symm.trans h)
    exact .inr ⟨old, (Option.filter_eq_some_iff.mp hold).1, rfl⟩
  | removeSubtree hash =>
    exact .inr ⟨score, (Option.filter_eq_some_iff.mp ((lookup_scores_removeSubtree htakes other).symm.trans h)).1, rfl⟩

/-- A block with a parent link is in the tree, and it is added, had the link before, or has become a root. -/
theorem parent_step (hknown : ∀ x p, t.parentMap.lookup x = some p → t.contains x = true)
    (h : (forkChoiceSystem.step t op).parentMap.lookup other = some p) :
    (forkChoiceSystem.step t op).contains other = true ∧
      ((∃ number weight onFinalizedChain, op = .addBlock other p number weight onFinalizedChain) ∨
        t.parentMap.lookup other = some p ∨ p = .zero) := by
  by_cases htakes : t.Takes op
  case neg =>
    rw [step_of_not_takes htakes] at h ⊢
    exact ⟨hknown other p h, .inr (.inl h)⟩
  cases op with
  | addBlock hash parent number weight onFinalizedChain =>
    rw [contains, forkChoiceSystem, scores_addBlock]
    rcases lookup_insert_eq_some.mp (parentMap_addBlock ▸ h) with ⟨rfl, rfl⟩ | ⟨hne, hold⟩
    · exact ⟨by rw [lookup_insert]; rfl, .inl ⟨number, weight, onFinalizedChain, rfl⟩⟩
    · exact ⟨by rw [lookup_insert_ne hne]; exact hknown other p hold, .inr (.inl hold)⟩
  | updateAttestedWeight hash weight =>
    obtain ⟨hparents, -, hscores⟩ := updateAttestedWeight_same t hash weight
    simp only [forkChoiceSystem, hparents] at h
    simp only [forkChoiceSystem, contains, hscores, Option.isSome_map]
    exact ⟨hknown other p h, .inr (.inl h)⟩
  | markFinalized hash =>
    simp only [forkChoiceSystem, parentMap_markFinalized] at h
    simp only [forkChoiceSystem, contains, lookup_scores_markFinalized htakes, Option.isSome_map]
    exact ⟨hknown other p h, .inr (.inl h)⟩
  | pruneBelow number =>
    obtain ⟨root, hroot⟩ := htakes
    simp only [forkChoiceSystem, contains, lookup_scores_pruneBelow hroot, Option.isSome_map]
    rcases (lookup_parentMap_pruneBelow hroot).mp h with ⟨rfl, rfl⟩ | ⟨-, hold, hdesc⟩
    · obtain ⟨score, hscore, -⟩ := finalizedAt_mem hroot
      exact ⟨by simp [hscore, self_mem_descendants], .inr (.inr rfl)⟩
    · obtain ⟨score, hscore⟩ := Option.isSome_iff_exists.mp (hknown other p hold)
      exact ⟨by simp [hscore, hdesc], .inr (.inl hold)⟩
  | removeSubtree hash =>
    obtain ⟨hold, hdesc⟩ := (lookup_parentMap_removeSubtree htakes).mp h
    obtain ⟨score, hscore⟩ := Option.isSome_iff_exists.mp (hknown other p hold)
    exact ⟨by simp [forkChoiceSystem, contains, lookup_scores_removeSubtree htakes, hscore, hdesc], .inr (.inl hold)⟩

end Lookups

end ShellChain.ForkChoiceTree
