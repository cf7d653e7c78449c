import Mathlib.Data.Prod.Lex
import ShellChain.Lib.Worklist
import ShellChain.Node

/-!
# The fork choice

The tree of known blocks with a score for each (`consensus/src/fork_choice.rs`). The best block is kept as the head with its
score: an added block or a new weight is compared with that score only, while a finalization, a pruning and a removal scan
the whole tree. Fork adoption reads the tree through the `ForkChoice` of the node.
-/

namespace ShellChain

/-! ## Scores -/

/-- The bytes of a hash as they are compared. -/
def ShellHash.key (hash : ShellHash) : List Nat :=
  hash.bytes.map UInt8.toNat

theorem ShellHash.key_injective : Function.Injective ShellHash.key := by
  intro a b h
  exact ShellHash.ext (List.map_injective_iff.mpr (fun _ _ => UInt8.toNat_inj.mp) h)

/-- `BlockScore`, with the flag as a truth value. -/
structure BlockScore where
  isFinalized : Bool
  attestedWeight : Nat
  blockNumber : Nat
  blockHash : ShellHash
  deriving DecidableEq

/-- The fields in the order of `BlockScore::cmp`, in which the lower hash is the better one. -/
def BlockScore.key (s : BlockScore) : Bool ×ₗ Nat ×ₗ Nat ×ₗ (List Nat)ᵒᵈ :=
  toLex (s.isFinalized, toLex (s.attestedWeight, toLex (s.blockNumber, OrderDual.toDual s.blockHash.key)))

theorem BlockScore.key_injective : Function.Injective BlockScore.key := by
  rintro ⟨f, w, n, h⟩ ⟨f', w', n', h'⟩ heq
  simp only [key, EmbeddingLike.apply_eq_iff_eq, Prod.mk.injEq] at heq
  obtain ⟨rfl, rfl, rfl, hhash⟩ := heq
  rw [ShellHash.key_injective hhash]

/-- `BlockScore::cmp`. -/
instance : LinearOrder BlockScore :=
  LinearOrder.lift' BlockScore.key BlockScore.key_injective

/-! ## The tree -/

/-- `ForkChoice`. -/
structure ForkChoiceTree where
  parentMap : HashMap ShellHash ShellHash
  scores : HashMap ShellHash BlockScore
  finalizedRoot : Option ShellHash
  head : ShellHash
  headScore : BlockScore

namespace ForkChoiceTree

variable (t : ForkChoiceTree)

def new (genesis : ShellHash) : ForkChoiceTree :=
  let score : BlockScore := ⟨false, 0, 0, genesis⟩
  { parentMap := AList.insert genesis .zero ∅
    scores := AList.insert genesis score ∅
    finalizedRoot := none
    head := genesis
    headScore := score }

/-- The score of an added block. Once there is a finalized root, the flag is that of the parent. -/
def addedScore (hash parent : ShellHash) (number weight : Nat) (onFinalizedChain : Bool) : BlockScore :=
  let isFinalized := match t.finalizedRoot with
    | some _ => (t.scores.lookup parent).any BlockScore.isFinalized
    | none => onFinalizedChain
  ⟨isFinalized, weight, number, hash⟩

/-- The tree with the better of the head and a scored block as its head. -/
def promote (hash : ShellHash) (score : BlockScore) : ForkChoiceTree :=
  if t.headScore < score then { t with head := hash, headScore := score } else t

def addBlock (hash parent : ShellHash) (number weight : Nat) (onFinalizedChain : Bool) : ForkChoiceTree :=
  let score := t.addedScore hash parent number weight onFinalizedChain
  promote { t with parentMap := t.parentMap.insert hash parent, scores := t.scores.insert hash score } hash score

/-- `update_attested_weight`. The score of the head follows its weight without a comparison. -/
def updateAttestedWeight (hash : ShellHash) (weight : Nat) : ForkChoiceTree :=
  match t.scores.lookup hash with
  | none => t
  | some old =>
    let score := { old with attestedWeight := weight }
    let updated := { t with scores := t.scores.insert hash score }
    if hash = t.head then { updated with headScore := score } else updated.promote hash score

/-- `recalculate_head`. The scores are pairwise different, since each holds its hash. -/
def recalculateHead : ForkChoiceTree :=
  match t.scores.entries.argmax Sigma.snd with
  | none => t
  | some best => { t with head := best.1, headScore := best.2 }

def children (parent : ShellHash) : List ShellHash :=
  (t.parentMap.entries.filter fun e => e.2 = parent).map Sigma.fst

/-- The block and what is below it in the tree, as the loops over `children` collect it. -/
def descendants (hash : ShellHash) : List ShellHash :=
  Worklist.visit t.children (t.parentMap.size + 1) [hash] []

/-- The walk of `chain_between` from a block to another, newest block first. -/
def walk (t : ForkChoiceTree) (target : ShellHash) : Nat → ShellHash → Option (List ShellHash)
  | 0, current => if current = target then some [] else none
  | fuel + 1, current =>
    if current = target then some []
    else
      match t.parentMap.lookup current with
      | none => none
      | some parent => (t.walk target fuel parent).map (current :: ·)

/-- `chain_between`. A broken chain and one that is too deep are empty. -/
def chainBetween (source target : ShellHash) : List ShellHash :=
  ((t.walk target (t.parentMap.size + 1) source).getD []).reverse

/-- A block may be finalized: it is known, and it is the finalized root or above it. -/
def canFinalize (hash : ShellHash) : Bool :=
  (t.scores.lookup hash).isSome && t.finalizedRoot.all fun root => root = hash || t.chainBetween hash root ≠ []

/-- `mark_finalized`: the block and its descendants are flagged, and no others. -/
def markFinalized (hash : ShellHash) : ForkChoiceTree :=
  if ¬ t.canFinalize hash then t
  else
    recalculateHead { t with
      scores := t.scores.mapWithKey fun h score => { score with isFinalized := h ∈ t.descendants hash }
      finalizedRoot := some hash }

/-- The flagged block at a height with the lowest hash. -/
def finalizedAt (number : Nat) : Option ShellHash :=
  ((t.scores.entries.filter fun e => e.2.isFinalized ∧ e.2.blockNumber = number).map Sigma.fst).argmin ShellHash.key

/-- `prune_below`: the flagged block at the height becomes the root, and only its descendants are kept. -/
def pruneBelow (finalizedNumber : Nat) : ForkChoiceTree :=
  match t.finalizedAt finalizedNumber with
  | none => t
  | some root =>
    let kept := t.descendants root
    recalculateHead { t with
      scores := (t.scores.retain fun h _ => h ∈ kept).mapVal fun score => { score with isFinalized := true }
      parentMap := (t.parentMap.retain fun h _ => h ∈ kept).insert root .zero
      finalizedRoot := some root }

/-- A removal is refused for the finalized root and what is above it, for a block without a parent, and for an unknown
block. -/
def canRemove (root : ShellHash) : Bool :=
  t.finalizedRoot ≠ some root && t.parentMap.lookup root ≠ some .zero && (t.scores.lookup root).isSome &&
    t.finalizedRoot.all fun finalized => finalized ∉ t.descendants root

def removeSubtree (root : ShellHash) : ForkChoiceTree :=
  if ¬ t.canRemove root then t
  else
    let removed := t.descendants root
    recalculateHead { t with
      scores := t.scores.retain fun h _ => h ∉ removed
      parentMap := t.parentMap.retain fun h _ => h ∉ removed }

/-- The ancestors that `find_common_ancestor` collects. A chain longer than the tree is a cycle, in which the source does not
return. -/
def ancestors (t : ForkChoiceTree) : Nat → ShellHash → List ShellHash
  | 0, hash => [hash]
  | fuel + 1, hash =>
    match t.parentMap.lookup hash with
    | none => [hash]
    | some parent => if parent = .zero then [hash] else hash :: t.ancestors fuel parent

def findCommonAncestor (a b : ShellHash) : Option ShellHash :=
  let above := t.ancestors t.parentMap.size a
  (t.ancestors t.parentMap.size b).find? fun hash => hash ∈ above

def contains (hash : ShellHash) : Bool :=
  (t.scores.lookup hash).isSome

end ForkChoiceTree

/-! ## The system -/

/-- The operations on the tree. -/
inductive ForkChoiceOp
  | addBlock (hash parent : ShellHash) (number weight : Nat) (onFinalizedChain : Bool)
  | updateAttestedWeight (hash : ShellHash) (weight : Nat)
  | markFinalized (hash : ShellHash)
  | pruneBelow (finalizedNumber : Nat)
  | removeSubtree (root : ShellHash)
  deriving DecidableEq

/-- The tree over its operations. -/
def forkChoiceSystem : TransitionSystem ForkChoiceTree ForkChoiceOp where
  step t
    | .addBlock hash parent number weight onFinalizedChain => t.addBlock hash parent number weight onFinalizedChain
    | .updateAttestedWeight hash weight => t.updateAttestedWeight hash weight
    | .markFinalized hash => t.markFinalized hash
    | .pruneBelow finalizedNumber => t.pruneBelow finalizedNumber
    | .removeSubtree root => t.removeSubtree root

end ShellChain
