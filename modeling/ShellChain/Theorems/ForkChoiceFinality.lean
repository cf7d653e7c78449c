import ShellChain.Theorems.CommonAncestors

/-!
# Finality of the fork choice

After a finalization the flagged blocks are the finalized root and blocks whose parents are flagged, and the head is one of
them, since the flag is the first field of a score. Two operations can break this: a finalized root that is added again
takes the flag of its parent and loses its own, and a pruning at a greater height takes a descendant as the root and drops
the root.
-/

namespace ShellChain

/-- A set of blocks, given by the parent and the number of every hash. -/
structure BlockSet where
  genesis : ShellHash
  parent : ShellHash → ShellHash
  number : ShellHash → Nat

namespace BlockSet

variable {B : BlockSet} {a b : ShellHash}

/-- Genesis has no parent, and every other block is one above its parent. The zero hash stands for no block. -/
def IsBlock (B : BlockSet) (hash : ShellHash) : Prop :=
  hash ≠ .zero ∧ ((hash = B.genesis ∧ B.parent hash = .zero ∧ B.number hash = 0) ∨
    B.number hash = B.number (B.parent hash) + 1)

/-- A block is above another, or is it. -/
def Descends (B : BlockSet) : ShellHash → ShellHash → Prop :=
  Relation.ReflTransGen fun p c => B.IsBlock c ∧ p ≠ .zero ∧ B.parent c = p

theorem IsBlock.number_eq (h : B.IsBlock a) (hparent : B.parent a ≠ .zero) : B.number a = B.number (B.parent a) + 1 :=
  h.2.resolve_left fun hgenesis => hparent hgenesis.2.1

theorem Descends.number_le (h : B.Descends a b) : B.number a ≤ B.number b ∧ (B.number a = B.number b → a = b) := by
  induction h with
  | refl => exact ⟨le_rfl, fun _ => rfl⟩
  | tail _ hchild ih =>
    obtain ⟨hblock, hp, rfl⟩ := hchild
    have hnumber := hblock.number_eq hp
    exact ⟨by omega, fun heq => by omega⟩

/-- The operations add blocks of the set. -/
def Adds (B : BlockSet) : ForkChoiceOp → Prop
  | .addBlock hash parent number _ _ => B.IsBlock hash ∧ parent = B.parent hash ∧ number = B.number hash
  | _ => True

end BlockSet

namespace ForkChoiceTree

variable {B : BlockSet} {t : ForkChoiceTree} {hash root : ShellHash} {number weight : Nat} {onFinalizedChain : Bool}

/-- The block is in the tree and has the flag. -/
def Flagged (t : ForkChoiceTree) (hash : ShellHash) : Prop :=
  ∃ score, t.scores.lookup hash = some score ∧ score.isFinalized = true

/-- The finalized root is not added again, and no height above it is pruned. -/
def KeepsRoot (B : BlockSet) (t : ForkChoiceTree) : ForkChoiceOp → Prop
  | .addBlock hash _ _ _ _ => t.finalizedRoot ≠ some hash
  | .pruneBelow number => ∀ root ∈ t.finalizedRoot, number ≤ B.number root
  | _ => True

instance decidableKeepsRoot (B : BlockSet) (t : ForkChoiceTree) (op : ForkChoiceOp) : Decidable (KeepsRoot B t op) := by
  cases op <;> unfold KeepsRoot <;> infer_instance

/-- The finalized root is added again. -/
def AddsRoot (t : ForkChoiceTree) : ForkChoiceOp → Prop
  | .addBlock hash _ _ _ _ => t.finalizedRoot = some hash
  | _ => False

theorem KeepsRoot.not_addsRoot {op : ForkChoiceOp} (h : KeepsRoot B t op) : ¬ t.AddsRoot op := by
  cases op with
  | addBlock hash parent number weight onFinalizedChain => exact h
  | _ => exact id

/-- The flags of a tree with a finalized root. -/
structure Anchored (B : BlockSet) (t : ForkChoiceTree) (root : ShellHash) : Prop where
  flagged : t.Flagged root
  parent : ∀ hash, t.Flagged hash → hash ≠ root →
    t.parentMap.lookup hash = some (B.parent hash) ∧ t.Flagged (B.parent hash)
  head : t.Flagged t.head
  headScore : t.headScore.isFinalized = true

/-- The tree holds blocks of the set under their numbers, with their parents or as roots. -/
structure Grown (B : BlockSet) (t : ForkChoiceTree) : Prop where
  block : ∀ hash score, t.scores.lookup hash = some score → B.IsBlock hash ∧ score.blockNumber = B.number hash
  parent : ∀ hash p, t.parentMap.lookup hash = some p → (∃ score, t.scores.lookup hash = some score) ∧
    (p = B.parent hash ∨ p = .zero)
  anchored : ∀ root, t.finalizedRoot = some root → Anchored B t root

section

variable (h : Grown B t)

include h

theorem Grown.ne_zero {score : BlockScore} (hscore : t.scores.lookup hash = some score) : hash ≠ .zero :=
  (h.block hash score hscore).1.1

theorem Grown.known (hash p : ShellHash) (hp : t.parentMap.lookup hash = some p) : t.contains hash = true :=
  Option.isSome_iff_exists.mpr (h.parent hash p hp).1

/-- The flagged blocks lead to the finalized root. -/
theorem Grown.hasAncestor (hroot : t.finalizedRoot = some root) (hflag : t.Flagged hash) : t.HasAncestor hash root := by
  have hanchored := h.anchored root hroot
  induction hn : B.number hash using Nat.strong_induction_on generalizing hash with
  | _ n ih =>
    by_cases heq : hash = root
    · exact heq ▸ .refl
    · obtain ⟨hlink, hparent⟩ := hanchored.parent hash hflag heq
      obtain ⟨score, hscore, -⟩ := hflag
      obtain ⟨parentScore, hparentScore, -⟩ := id hparent
      have hne := h.ne_zero hparentScore
      have hnumber := (h.block hash score hscore).1.number_eq hne
      exact (ih _ (by omega) hparent rfl).head ⟨hlink, hne⟩

theorem Grown.isBlock_of_link {p : ShellHash} (hlink : t.Link hash p) :
    B.IsBlock hash ∧ B.parent hash = p ∧ B.number hash = B.number p + 1 := by
  obtain ⟨⟨score, hscore⟩, hparent⟩ := h.parent hash p hlink.1
  obtain rfl := hparent.resolve_right hlink.2
  have hblock := (h.block hash score hscore).1
  exact ⟨hblock, rfl, hblock.number_eq hlink.2⟩

/-- The blocks over another in the tree are its descendants. -/
theorem Grown.descends_of_hasAncestor (ha : t.HasAncestor hash root) : B.Descends root hash := by
  induction ha using Relation.ReflTransGen.head_induction_on with
  | refl => exact .refl
  | head hlink _ ih =>
    obtain ⟨hblock, hparent, -⟩ := h.isBlock_of_link hlink
    exact ih.tail ⟨hblock, hlink.2, hparent⟩

/-- The flagged blocks are the finalized root and its descendants. -/
theorem Grown.descends (hroot : t.finalizedRoot = some root) (hflag : t.Flagged hash) : B.Descends root hash :=
  h.descends_of_hasAncestor (h.hasAncestor hroot hflag)

end

/-! ## One operation -/

theorem grown_new (hgenesis : B.IsBlock B.genesis) (hnumber : B.number B.genesis = 0) : Grown B (new B.genesis) := by
  refine ⟨fun hash score hscore => ?_, fun hash p hp => ?_, fun root hroot => by cases hroot⟩
  · rcases AList.lookup_insert_eq_some.mp hscore with ⟨rfl, rfl⟩ | ⟨-, hnone⟩
    · exact ⟨hgenesis, hnumber.symm⟩
    · cases hnone
  · rcases AList.lookup_insert_eq_some.mp hp with ⟨rfl, rfl⟩ | ⟨-, hnone⟩
    · exact ⟨⟨_, AList.lookup_insert _⟩, .inr rfl⟩
    · cases hnone

/-- A scan of a tree with a flagged block finds a flagged head. -/
theorem flagged_recalculateHead (hflag : t.Flagged hash) :
    t.recalculateHead.Flagged t.recalculateHead.head ∧ t.recalculateHead.headScore.isFinalized = true := by
  obtain ⟨score, hscore, hfinal⟩ := hflag
  have hbest := best_recalculateHead hash (t := t) (by rw [hscore]; simp)
  have hle := hbest.le hash score (by rw [recalculateHead_eq]; exact hscore)
  have hhead := isFinalized_of_le hle hfinal
  exact ⟨⟨_, hbest.head, hhead⟩, hhead⟩

/-- A block that becomes the head of a tree with a flagged head is flagged. -/
theorem promote_head (hash : ShellHash) (score : BlockScore) (hhead : t.headScore.isFinalized = true) :
    (t.promote hash score).headScore.isFinalized = true ∧
      ((t.promote hash score).head = t.head ∨ ((t.promote hash score).head = hash ∧ score.isFinalized = true)) := by
  rcases lt_or_ge t.headScore score with hlt | hle
  · have hflag := isFinalized_of_le hlt.le hhead
    rw [promote_of_lt hlt]
    exact ⟨hflag, .inr ⟨rfl, hflag⟩⟩
  · rw [promote_of_le hle]
    exact ⟨hhead, .inl rfl⟩

section Flags

variable {other parent : ShellHash}

/-- After a finalization an added block takes the flag of its parent. -/
theorem flagged_addBlock (hroot : t.finalizedRoot = some root) :
    (t.addBlock hash parent number weight onFinalizedChain).Flagged other ↔
      if other = hash then t.Flagged parent else t.Flagged other := by
  unfold Flagged
  rw [scores_addBlock]
  split_ifs with heq
  · subst heq
    simp [AList.lookup_insert, addedScore, hroot, Option.any_eq_true]
  · rw [AList.lookup_insert_ne heq]

theorem flagged_updateAttestedWeight : (t.updateAttestedWeight hash weight).Flagged other ↔ t.Flagged other := by
  simp only [Flagged, (updateAttestedWeight_same t hash weight).2.2 other, Option.map_eq_some_iff]
  constructor
  · rintro ⟨_, ⟨old, hold, rfl⟩, hfinal⟩
    exact ⟨old, hold, by split_ifs at hfinal <;> exact hfinal⟩
  · rintro ⟨old, hold, hfinal⟩
    exact ⟨_, ⟨old, hold, rfl⟩, by split_ifs <;> exact hfinal⟩

theorem flagged_markFinalized (h : t.canFinalize hash = true) :
    (t.markFinalized hash).Flagged other ↔ t.contains other = true ∧ other ∈ t.descendants hash := by
  simp only [Flagged, lookup_scores_markFinalized h, contains]
  cases t.scores.lookup other <;> simp

theorem flagged_pruneBelow (h : t.finalizedAt number = some hash) :
    (t.pruneBelow number).Flagged other ↔ t.contains other = true ∧ other ∈ t.descendants hash := by
  simp only [Flagged, lookup_scores_pruneBelow h, contains]
  cases t.scores.lookup other <;> simp

theorem flagged_removeSubtree (h : t.canRemove hash = true) :
    (t.removeSubtree hash).Flagged other ↔ t.Flagged other ∧ other ∉ t.descendants hash := by
  simp only [Flagged, lookup_scores_removeSubtree h, Option.filter_eq_some_iff, decide_eq_true_eq]
  tauto

end Flags

/-- A block of the set that is not the finalized root takes the flag of its parent, which it had already if it was known. -/
theorem Anchored.addBlock (h : Anchored B t root) (hroot : t.finalizedRoot = some root) (hne : root ≠ hash) :
    Anchored B (t.addBlock hash (B.parent hash) number weight onFinalizedChain) root := by
  have hkeeps : ∀ other, t.Flagged other →
      (t.addBlock hash (B.parent hash) number weight onFinalizedChain).Flagged other := by
    intro other hother
    rw [flagged_addBlock hroot]
    split_ifs with heq
    · subst heq
      exact (h.parent other hother hne.symm).2
    · exact hother
  obtain ⟨hheadScore, hhead⟩ := promote_head (t := { t with
    parentMap := t.parentMap.insert hash (B.parent hash)
    scores := t.scores.insert hash (t.addedScore hash (B.parent hash) number weight onFinalizedChain) }) hash
    (t.addedScore hash (B.parent hash) number weight onFinalizedChain) h.headScore
  refine ⟨hkeeps root h.flagged, fun other hother hother' => ?_, ?_, hheadScore⟩
  · rw [parentMap_addBlock]
    rw [flagged_addBlock hroot] at hother
    split_ifs at hother with heq
    · subst heq
      exact ⟨AList.lookup_insert _, hkeeps _ hother⟩
    · obtain ⟨hlookup, hflagged⟩ := h.parent other hother hother'
      exact ⟨(AList.lookup_insert_ne heq).trans hlookup, hkeeps _ hflagged⟩
  · rcases hhead with hhead | ⟨hhead, hfinal⟩
    · rw [ForkChoiceTree.addBlock, hhead]
      exact hkeeps _ h.head
    · rw [ForkChoiceTree.addBlock, hhead]
      exact ⟨_, by rw [promote_eq]; exact AList.lookup_insert _, hfinal⟩

theorem Anchored.updateAttestedWeight (h : Anchored B t root) : Anchored B (t.updateAttestedWeight hash weight) root := by
  have hhead : (t.updateAttestedWeight hash weight).Flagged (t.updateAttestedWeight hash weight).head ∧
      (t.updateAttestedWeight hash weight).headScore.isFinalized = true := by
    rw [flagged_updateAttestedWeight]
    unfold ForkChoiceTree.updateAttestedWeight
    split
    · exact ⟨h.head, h.headScore⟩
    · rename_i old hold
      split_ifs with hsame
      · obtain ⟨score, hscore, hfinal⟩ := id h.head
        rw [← hsame, hold] at hscore
        exact ⟨h.head, Option.some.inj hscore ▸ hfinal⟩
      · obtain ⟨hheadScore, hnew⟩ := promote_head (t := { t with
          scores := t.scores.insert hash { old with attestedWeight := weight } }) hash
          { old with attestedWeight := weight } h.headScore
        refine ⟨?_, hheadScore⟩
        rcases hnew with hnew | ⟨hnew, hfinal⟩
        · rw [hnew]
          exact h.head
        · rw [hnew]
          exact ⟨old, hold, hfinal⟩
  refine ⟨flagged_updateAttestedWeight.mpr h.flagged, fun other hother hne => ?_, hhead.1, hhead.2⟩
  obtain ⟨hlink, hparent⟩ := h.parent other (flagged_updateAttestedWeight.mp hother) hne
  rw [(updateAttestedWeight_same t hash weight).1]
  exact ⟨hlink, flagged_updateAttestedWeight.mpr hparent⟩

/-- Flags on exactly the descendants of a block of the tree make it the finalized root. -/
theorem Grown.anchored_descendants {u : ForkChoiceTree} (h : Grown B t) (hroot : t.contains root = true)
    (hflag : ∀ other, u.Flagged other ↔ t.contains other = true ∧ other ∈ t.descendants root)
    (hparents : ∀ other p, t.parentMap.lookup other = some p → other ∈ t.descendants root → other ≠ root →
      u.parentMap.lookup other = some p)
    (hhead : u.Flagged u.head ∧ u.headScore.isFinalized = true) : Anchored B u root := by
  refine ⟨(hflag root).mpr ⟨hroot, self_mem_descendants t root⟩, fun other hother hne => ?_, hhead.1, hhead.2⟩
  obtain ⟨-, hdesc⟩ := (hflag other).mp hother
  obtain ⟨p, hp, hpdesc⟩ := (descendants_cases hdesc).resolve_left hne
  -- the parent is the root or has a parent itself, so it is a block of the tree
  have hknown : t.contains p = true := by
    rcases descendants_cases hpdesc with rfl | ⟨q, hq, -⟩
    · exact hroot
    · exact h.known p q hq
  obtain ⟨score, hscore⟩ := Option.isSome_iff_exists.mp hknown
  obtain rfl := (h.parent other p hp).2.resolve_right (h.ne_zero hscore)
  exact ⟨hparents other _ hp hdesc hne, (hflag _).mpr ⟨hknown, hpdesc⟩⟩

theorem Grown.anchored_markFinalized (h : Grown B t) (hcan : t.canFinalize hash = true) :
    Anchored B (t.markFinalized hash) hash := by
  have hknown : t.contains hash = true := by
    rw [canFinalize, Bool.and_eq_true] at hcan
    exact hcan.1
  have hflag := (flagged_markFinalized hcan).mpr ⟨hknown, self_mem_descendants t hash⟩
  refine h.anchored_descendants hknown (fun _ => flagged_markFinalized hcan)
    (fun other p hp _ _ => (parentMap_markFinalized t hash).symm ▸ hp) ?_
  rw [ForkChoiceTree.markFinalized, if_neg (not_not.mpr hcan)] at hflag ⊢
  exact flagged_recalculateHead (by simpa only [Flagged, scores_recalculateHead] using hflag)

theorem Grown.anchored_pruneBelow (h : Grown B t) (hat : t.finalizedAt number = some root) :
    Anchored B (t.pruneBelow number) root := by
  obtain ⟨score, hscore, -⟩ := finalizedAt_mem hat
  have hknown : t.contains root = true := Option.isSome_iff_exists.mpr ⟨score, hscore⟩
  have hflag := (flagged_pruneBelow hat).mpr ⟨hknown, self_mem_descendants t root⟩
  refine h.anchored_descendants hknown (fun _ => flagged_pruneBelow hat)
    (fun other p hp hdesc hne => (lookup_parentMap_pruneBelow hat).mpr (.inr ⟨hne, hp, hdesc⟩)) ?_
  simp only [ForkChoiceTree.pruneBelow, hat] at hflag ⊢
  exact flagged_recalculateHead (by simpa only [Flagged, scores_recalculateHead] using hflag)

theorem not_mem_of_canRemove (hcan : t.canRemove hash = true) (hroot : t.finalizedRoot = some root) :
    root ∉ t.descendants hash := by
  simp only [canRemove, hroot, Bool.and_eq_true, Option.all_some, decide_eq_true_eq] at hcan
  exact hcan.2

theorem Anchored.removeSubtree (h : Anchored B t root) (hcan : t.canRemove hash = true)
    (hroot : t.finalizedRoot = some root) : Anchored B (t.removeSubtree hash) root := by
  have hflag := (flagged_removeSubtree hcan).mpr ⟨h.flagged, not_mem_of_canRemove hcan hroot⟩
  have hhead : (t.removeSubtree hash).Flagged (t.removeSubtree hash).head ∧
      (t.removeSubtree hash).headScore.isFinalized = true := by
    rw [ForkChoiceTree.removeSubtree, if_neg (not_not.mpr hcan)] at hflag ⊢
    exact flagged_recalculateHead (by simpa only [Flagged, scores_recalculateHead] using hflag)
  refine ⟨hflag, fun other hother hne => ?_, hhead.1, hhead.2⟩
  obtain ⟨hother, hstays⟩ := (flagged_removeSubtree hcan).mp hother
  obtain ⟨hlink, hparent⟩ := h.parent other hother hne
  refine ⟨(lookup_parentMap_removeSubtree hcan).mpr ⟨hlink, hstays⟩, (flagged_removeSubtree hcan).mpr ⟨hparent, ?_⟩⟩
  exact fun hdesc => hstays (mem_descendants_of_parent hlink hdesc)

/-! ## Runs -/

theorem Grown.anchored_step (h : Grown B t) {op : ForkChoiceOp} (hadds : B.Adds op) (hkeeps : ¬ t.AddsRoot op)
    (hroot : (forkChoiceSystem.step t op).finalizedRoot = some root) : Anchored B (forkChoiceSystem.step t op) root := by
  by_cases htakes : t.Takes op
  case neg =>
    rw [step_of_not_takes htakes] at hroot ⊢
    exact h.anchored root hroot
  cases op with
  | addBlock hash parent number weight onFinalizedChain =>
    obtain ⟨-, rfl, rfl⟩ := hadds
    rw [forkChoiceSystem, finalizedRoot_addBlock] at hroot
    exact (h.anchored root hroot).addBlock hroot fun heq => hkeeps (heq ▸ hroot)
  | updateAttestedWeight hash weight =>
    exact (h.anchored root ((updateAttestedWeight_same t hash weight).2.1.symm.trans hroot)).updateAttestedWeight
  | markFinalized hash =>
    obtain rfl := Option.some.inj ((finalizedRoot_markFinalized htakes).symm.trans hroot)
    exact h.anchored_markFinalized htakes
  | pruneBelow number =>
    obtain ⟨next, hat⟩ := htakes
    obtain rfl := Option.some.inj ((finalizedRoot_pruneBelow hat).symm.trans hroot)
    exact h.anchored_pruneBelow hat
  | removeSubtree hash =>
    rw [forkChoiceSystem, finalizedRoot_removeSubtree htakes] at hroot
    exact (h.anchored root hroot).removeSubtree htakes hroot

/-- The tree stays one of blocks of the set, with its flags on the descendants of the finalized root. -/
theorem Grown.step (h : Grown B t) {op : ForkChoiceOp} (hadds : B.Adds op)
    (hkeeps : ¬ t.AddsRoot op) : Grown B (forkChoiceSystem.step t op) := by
  refine ⟨fun other score hscore => ?_, fun other p hp => ?_, fun root => h.anchored_step hadds hkeeps⟩
  · rcases score_step hscore with ⟨parent, weight, onFinalizedChain, rfl⟩ | ⟨old, hold, hnumber⟩
    · exact ⟨hadds.1, hadds.2.2⟩
    · obtain ⟨hblock, heq⟩ := h.block other old hold
      exact ⟨hblock, hnumber.symm.trans heq⟩
  · obtain ⟨hknown, hlink⟩ := parent_step h.known hp
    refine ⟨Option.isSome_iff_exists.mp hknown, ?_⟩
    rcases hlink with ⟨number, weight, onFinalizedChain, rfl⟩ | hold | hzero
    · exact .inl hadds.2.1
    · exact (h.parent other p hold).2
    · exact .inr hzero

theorem Grown.mem_descendants_iff (h : Grown B t) (hroot : root ≠ .zero) :
    hash ∈ t.descendants root ↔ t.HasAncestor hash root := by
  constructor
  · intro hmem
    have hreach := mem_descendants.mp hmem
    induction hreach with
    | refl => exact .refl
    | @tail p hash hp hchild ih =>
      have hlink := mem_children.mp hchild
      refine (ih (mem_descendants.mpr hp)).head ⟨hlink, ?_⟩
      -- a parent that is not the root has a parent itself
      rcases descendants_cases (mem_descendants.mpr hp) with rfl | ⟨q, hq, -⟩
      · exact hroot
      · obtain ⟨⟨score, hscore⟩, -⟩ := h.parent p q hq
        exact h.ne_zero hscore
  · intro ha
    induction ha using Relation.ReflTransGen.head_induction_on with
    | refl => exact self_mem_descendants t root
    | head hlink _ ih => exact mem_descendants_of_parent hlink.1 ih

/-- A walk along the parents starts below its target. -/
theorem mem_descendants_of_walk {target current : ShellHash} {fuel : Nat} {path : List ShellHash}
    (hwalk : t.walk target fuel current = some path) : current ∈ t.descendants target := by
  induction fuel generalizing current path with
  | zero =>
    simp only [walk] at hwalk
    split_ifs at hwalk with heq
    exact heq ▸ self_mem_descendants t current
  | succ fuel ih =>
    simp only [walk] at hwalk
    split_ifs at hwalk with heq
    · exact heq ▸ self_mem_descendants t current
    · split at hwalk
      · cases hwalk
      · rename_i p hp
        obtain ⟨rest, hrest, -⟩ := Option.map_eq_some_iff.mp hwalk
        exact mem_descendants_of_parent hp (ih hrest)

section

variable (h : Grown B t) (hroot : t.finalizedRoot = some root)

include h hroot

/-- The finalized root moves to itself or to a descendant. -/
theorem Grown.root_step (op : ForkChoiceOp) :
    ∃ next, (forkChoiceSystem.step t op).finalizedRoot = some next ∧ B.Descends root next := by
  by_cases htakes : t.Takes op
  case neg => exact ⟨root, by rw [step_of_not_takes htakes, hroot], .refl⟩
  cases op with
  | addBlock hash parent number weight onFinalizedChain => exact ⟨root, finalizedRoot_addBlock.trans hroot, .refl⟩
  | updateAttestedWeight hash weight =>
    exact ⟨root, (updateAttestedWeight_same t hash weight).2.1.trans hroot, .refl⟩
  | markFinalized hash =>
    refine ⟨hash, finalizedRoot_markFinalized htakes, ?_⟩
    obtain ⟨score, hscore, -⟩ := (h.anchored root hroot).flagged
    simp only [Takes, canFinalize, hroot, Bool.and_eq_true, Option.all_some, Bool.or_eq_true, decide_eq_true_eq] at htakes
    rcases htakes.2 with rfl | hpath
    · exact .refl
    · rw [chainBetween] at hpath
      cases hwalk : t.walk root (t.parentMap.size + 1) hash with
      | none => simp [hwalk] at hpath
      | some path =>
        exact h.descends_of_hasAncestor ((h.mem_descendants_iff (h.ne_zero hscore)).mp (mem_descendants_of_walk hwalk))
  | pruneBelow number =>
    obtain ⟨next, hnext⟩ := htakes
    obtain ⟨score, hscore, hfinal, -⟩ := finalizedAt_mem hnext
    exact ⟨next, finalizedRoot_pruneBelow hnext, h.descends hroot ⟨score, hscore, hfinal⟩⟩
  | removeSubtree hash => exact ⟨root, (finalizedRoot_removeSubtree htakes).trans hroot, .refl⟩

/-- No flagged block but the finalized root is at its height or below. -/
theorem Grown.eq_root_of_finalizedAt (hle : number ≤ B.number root) (hat : t.finalizedAt number = some hash) :
    root = hash := by
  obtain ⟨score, hscore, hfinal, hnumber⟩ := finalizedAt_mem hat
  obtain ⟨hlower, hunique⟩ := (h.descends hroot ⟨score, hscore, hfinal⟩).number_le
  rw [(h.block hash score hscore).2] at hnumber
  exact hunique (by omega)

/-- A pruning at or below the finalized root and a removal leave the root in the tree. -/
theorem Grown.root_kept : (∀ number ≤ B.number root, ((t.pruneBelow number).scores.lookup root).isSome = true) ∧
      ∀ hash, ((t.removeSubtree hash).scores.lookup root).isSome = true := by
  obtain ⟨score, hscore, -⟩ := (h.anchored root hroot).flagged
  constructor
  · intro number hle
    by_cases htakes : t.Takes (.pruneBelow number)
    · obtain ⟨next, hat⟩ := htakes
      obtain rfl := h.eq_root_of_finalizedAt hroot hle hat
      rw [lookup_scores_pruneBelow hat, hscore]
      simp [self_mem_descendants]
    · rw [show t.pruneBelow number = t from step_of_not_takes htakes, hscore]
      rfl
  · intro hash
    by_cases htakes : t.Takes (.removeSubtree hash)
    · rw [lookup_scores_removeSubtree htakes, hscore]
      simp [not_mem_of_canRemove htakes hroot]
    · rw [show t.removeSubtree hash = t from step_of_not_takes htakes, hscore]
      rfl

end

end ForkChoiceTree

/-- From a fresh tree, over any operations that add blocks of a set, never add the finalized root again and never prune
above it: once a block is the finalized root, the head and every later finalized root is that block or a descendant, the
later root is in the tree, and no pruning at or below it and no removal takes it out. -/
theorem finality_safe (B : BlockSet) (hgenesis : B.IsBlock B.genesis) (hnumber : B.number B.genesis = 0)
    {ops later : List ForkChoiceOp}
    (hops : forkChoiceSystem.Admits (fun t op => B.Adds op ∧ ForkChoiceTree.KeepsRoot B t op) (.new B.genesis) (ops ++ later))
    {finalized : ShellHash} (hfinalized : (forkChoiceSystem.run (.new B.genesis) ops).finalizedRoot = some finalized) :
    let t := forkChoiceSystem.run (.new B.genesis) (ops ++ later)
    B.Descends finalized t.head ∧ ∃ root, t.finalizedRoot = some root ∧ B.Descends finalized root ∧
      (t.scores.lookup root).isSome = true ∧
      (∀ number ≤ B.number root, ((t.pruneBelow number).scores.lookup root).isSome = true) ∧
      ∀ hash, ((t.removeSubtree hash).scores.lookup root).isSome = true := by
  intro t
  obtain ⟨hbefore, hafter⟩ := TransitionSystem.admits_append.mp hops
  have hgrown := TransitionSystem.invariant_run (I := ForkChoiceTree.Grown B) (fun _ _ hs h => hs.step h.1 h.2.not_addsRoot)
    (ForkChoiceTree.grown_new hgenesis hnumber) hbefore
  -- the root of the later states stays above the finalized block
  have hrun : ForkChoiceTree.Grown B t ∧ ∃ root, t.finalizedRoot = some root ∧ B.Descends finalized root := by
    rw [show t = forkChoiceSystem.run (forkChoiceSystem.run (.new B.genesis) ops) later from
      forkChoiceSystem.run_append _ _ _]
    refine TransitionSystem.invariant_run
      (I := fun s => ForkChoiceTree.Grown B s ∧ ∃ root, s.finalizedRoot = some root ∧ B.Descends finalized root)
      (fun s op hs h => ?_) ⟨hgrown, finalized, hfinalized, .refl⟩ hafter
    obtain ⟨hs, root, hroot, habove⟩ := hs
    obtain ⟨next, hnext, hmoved⟩ := hs.root_step hroot op
    exact ⟨hs.step h.1 h.2.not_addsRoot, next, hnext, habove.trans hmoved⟩
  obtain ⟨hgrown, root, hroot, habove⟩ := hrun
  have hanchored := hgrown.anchored root hroot
  obtain ⟨score, hscore, -⟩ := hanchored.flagged
  refine ⟨habove.trans (hgrown.descends hroot hanchored.head), root, hroot, habove, by rw [hscore]; rfl, ?_⟩
  exact hgrown.root_kept hroot

/-! ## A tree with two branches -/

namespace TwoBranches

/-- A hash with one byte set. -/
def hashOf (n : UInt8) : ShellHash :=
  ⟨n :: List.replicate 31 1, rfl⟩

/-- Genesis 0, a branch 1, 2, 3 and a branch 4, 5. -/
def blocks : BlockSet where
  genesis := hashOf 0
  parent h := if h = hashOf 0 then .zero else if h = hashOf 2 then hashOf 1 else if h = hashOf 3 then hashOf 2
    else if h = hashOf 5 then hashOf 4 else hashOf 0
  number h := if h = hashOf 0 then 0 else if h = hashOf 2 ∨ h = hashOf 5 then 2 else if h = hashOf 3 then 3 else 1

/-- A block of the set is added. -/
def add (n : UInt8) (weight : Nat) : ForkChoiceOp :=
  .addBlock (hashOf n) (blocks.parent (hashOf n)) (blocks.number (hashOf n)) weight false

instance (B : BlockSet) (op : ForkChoiceOp) : Decidable (B.Adds op) := by
  cases op <;> unfold BlockSet.Adds <;> try unfold BlockSet.IsBlock
  all_goals infer_instance

/-- The first block of the lighter branch is finalized. -/
def finalize : List ForkChoiceOp :=
  [add 1 0, add 4 9, .markFinalized (hashOf 1)]

/-- The heavier branch grows, the finalized one gets two blocks, and the tree is pruned. -/
def grow : List ForkChoiceOp :=
  [add 5 9, add 2 0, .removeSubtree (hashOf 5), .pruneBelow 1, add 3 0, .markFinalized (hashOf 2)]

/-- The heavier branch does not become the head. -/
theorem head_above_finalized :
    (forkChoiceSystem.run (.new (hashOf 0)) (finalize ++ grow)).head = hashOf 3 ∧
      blocks.Descends (hashOf 1) (forkChoiceSystem.run (.new (hashOf 0)) (finalize ++ grow)).head := by
  have hfacts : blocks.IsBlock blocks.genesis ∧
      forkChoiceSystem.Admits (fun t op => blocks.Adds op ∧ ForkChoiceTree.KeepsRoot blocks t op) (.new blocks.genesis)
        (finalize ++ grow) ∧
      (forkChoiceSystem.run (.new blocks.genesis) finalize).finalizedRoot = some (hashOf 1) ∧
      (forkChoiceSystem.run (.new (hashOf 0)) (finalize ++ grow)).head = hashOf 3 := by
    unfold BlockSet.IsBlock
    decide +kernel
  obtain ⟨hgenesis, hops, hfinalized, hhead⟩ := hfacts
  exact ⟨hhead, (finality_safe blocks hgenesis rfl hops hfinalized).1⟩

end TwoBranches

namespace LostRootCex

open TwoBranches

/-- The finalized root is added again, and a block elsewhere is removed. -/
def readded : ForkChoiceTree :=
  forkChoiceSystem.run (.new (hashOf 0)) (finalize ++ [add 1 0, add 5 0, .removeSubtree (hashOf 5)])

/-- A descendant of the finalized root is pruned to. -/
def prunedAbove : ForkChoiceTree :=
  forkChoiceSystem.run (.new (hashOf 0)) (finalize ++ [add 2 0, .pruneBelow 2])

/-- The head moves to the other branch while the finalized root stays, and a pruning takes the finalized root out. -/
theorem finalized_root_lost :
    (readded.finalizedRoot = some (hashOf 1) ∧ readded.head = hashOf 4 ∧ blocks.parent (hashOf 4) = hashOf 0 ∧
        blocks.parent (hashOf 0) = .zero) ∧
      (prunedAbove.finalizedRoot = some (hashOf 2) ∧ prunedAbove.scores.lookup (hashOf 1) = none) := by
  decide +kernel

end LostRootCex

end ShellChain
