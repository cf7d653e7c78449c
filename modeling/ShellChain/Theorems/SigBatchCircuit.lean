import Mathlib.Data.ZMod.Basic
import ShellChain.SourceBinding

/-!
# The circuit of a signature batch

The proof of a batch is about a trace of four columns (`stark-prover/src/air.rs`, `prover.rs`): two accumulators, each cubed
before the leaf of its row is added. The circuit fixes the step from a row to the next, the zero at the start and the root at
the end. The number of signatures is a public input that no constraint reads, so a trace may go on with other leaves behind
the rows that are counted.
-/

namespace ShellChain

open ByteCodec List

/-- An element of the field of the proofs. -/
abbrev BaseElement := ZMod f128Modulus

/-- A row of the trace. The low and the high half of a column are computed side by side. -/
structure TraceRow where
  acc : BaseElement × BaseElement
  leaf : BaseElement × BaseElement

/-- The public inputs of a proof. -/
structure SigBatchPublicInputs where
  batchRoot : BaseElement × BaseElement
  nSigs : Nat

/-- The halves of an entry as elements of the field. -/
def SigBatchEntry.leaf (Γ : Ctx) (e : SigBatchEntry) : BaseElement × BaseElement :=
  ((e.toFieldElements Γ).1, (e.toFieldElements Γ).2)

/-- What `fill` makes of the row at a step. Behind the entries the leaf keeps both accumulators as they are. -/
def nextRow (Γ : Ctx) (entries : List SigBatchEntry) (step : Nat) (row : TraceRow) : TraceRow :=
  let acc := row.acc ^ 3 + row.leaf
  ⟨acc, (entries[step + 1]?.map (·.leaf Γ)).getD (acc - acc ^ 3)⟩

/-- The rows that `fill` writes. -/
def traceRow (Γ : Ctx) (first : SigBatchEntry) (entries : List SigBatchEntry) : Nat → TraceRow
  | 0 => ⟨0, first.leaf Γ⟩
  | step + 1 => nextRow Γ entries step (traceRow Γ first entries step)

/-- `build_trace`: the trace and its root. There is none for an empty batch. -/
def buildTrace (Γ : Ctx) : List SigBatchEntry → Option (List TraceRow × (BaseElement × BaseElement))
  | [] => none
  | first :: rest =>
    let traceLen := 2 ^ Nat.clog 2 (max ((first :: rest).length + 1) 8)
    let rows := traceRow Γ first (first :: rest)
    some ((range traceLen).map rows, (rows (traceLen - 1)).acc)

def rootToBytes (root : BaseElement × BaseElement) : Bytes :=
  leBytes 16 root.1.val ++ leBytes 16 root.2.val

/-- `evaluate_transition`: the results are zero where the constraints hold. -/
def evaluateTransition (current next : TraceRow) : BaseElement × BaseElement :=
  next.acc - (current.acc ^ 3 + current.leaf)

/-- `get_assertions`: the values of both accumulators at two steps. -/
def getAssertions (inputs : SigBatchPublicInputs) (traceLength : Nat) : List (Nat × (BaseElement × BaseElement)) :=
  [(0, 0), (traceLength - 1, inputs.batchRoot)]

/-- The trace satisfies the constraints and the assertions. -/
structure Satisfies (rows : List TraceRow) (inputs : SigBatchPublicInputs) : Prop where
  transitions : rows.IsChain fun current next => evaluateTransition current next = 0
  assertions : ∀ a ∈ getAssertions inputs rows.length, rows[a.1]?.map TraceRow.acc = some a.2

/-- The fold of leaves from zero. -/
def accumulate (leaves : List (BaseElement × BaseElement)) : BaseElement × BaseElement :=
  leaves.foldl (fun acc leaf => acc ^ 3 + leaf) 0

/-- The accumulators after the first rows are those of the last row: row `n` has them, or the leaf of the last row would keep
them. -/
def Stable (rows : List TraceRow) (n : Nat) : Prop :=
  if n < rows.length then rows[n]?.map TraceRow.acc = rows.getLast?.map TraceRow.acc
  else ∀ row ∈ rows.getLast?, row.leaf = row.acc - row.acc ^ 3

/-! ## The trace of a batch -/

theorem accumulate_concat (leaves : List (BaseElement × BaseElement)) (leaf : BaseElement × BaseElement) :
    accumulate (leaves ++ [leaf]) = accumulate leaves ^ 3 + leaf := by
  rw [accumulate, foldl_concat, accumulate]

theorem computeBatchRoot_eq (Γ : Ctx) (entries : List SigBatchEntry) :
    computeBatchRoot Γ entries = rootToBytes (accumulate (entries.map (·.leaf Γ))) := by
  have hstep : ∀ (x : BaseElement) (n : Nat), (x.val ^ 3 + n) % f128Modulus = (x ^ 3 + (n : BaseElement)).val := by
    intro x n
    have : NeZero f128Modulus := ⟨by decide⟩
    rw [← ZMod.val_natCast, Nat.cast_add, Nat.cast_pow, ZMod.natCast_zmod_val]
  rw [computeBatchRoot, accumulate, foldl_map]
  refine congrArg (fun acc : Nat × Nat => leBytes 16 acc.1 ++ leBytes 16 acc.2)
    (@foldl_hom _ _ _ (fun x : BaseElement × BaseElement => (x.1.val, x.2.val)) _ _ entries 0 fun x e => ?_)
  exact Prod.ext (hstep _ _) (hstep _ _)

/-- The accumulators of a row are the fold of the entries before it, and of all entries in the padding. -/
theorem acc_traceRow (Γ : Ctx) (first : SigBatchEntry) (rest : List SigBatchEntry) (n : Nat) :
    (traceRow Γ first (first :: rest) n).acc = accumulate (((first :: rest).take n).map (·.leaf Γ)) := by
  have hleaf : ∀ n, (traceRow Γ first (first :: rest) n).leaf = ((first :: rest)[n]?.map (·.leaf Γ)).getD
      ((traceRow Γ first (first :: rest) n).acc - (traceRow Γ first (first :: rest) n).acc ^ 3) := by
    intro n
    cases n <;> rfl
  induction n with
  | zero => rfl
  | succ n ih =>
    rw [take_add_one, map_append]
    change (traceRow Γ first (first :: rest) n).acc ^ 3 + (traceRow Γ first (first :: rest) n).leaf = _
    rw [hleaf, ih]
    cases (first :: rest)[n]? with
    | none => simp
    | some e => exact (accumulate_concat _ _).symm

theorem satisfies_buildTrace (Γ : Ctx) (first : SigBatchEntry) (rest : List SigBatchEntry) :
    ∃ rows root, buildTrace Γ (first :: rest) = some (rows, root) ∧ Satisfies rows ⟨root, (first :: rest).length⟩ ∧
      root = accumulate ((first :: rest).map (·.leaf Γ)) := by
  have hlong := Nat.le_pow_clog Nat.one_lt_two (max ((first :: rest).length + 1) 8)
  refine ⟨_, _, rfl, ⟨?_, ?_⟩, ?_⟩
  · rw [isChain_map, isChain_range]
    intro n _
    exact sub_self _
  · simp only [getAssertions, length_map, length_range, forall_mem_cons, getElem?_map]
    rw [getElem?_range (by omega), getElem?_range (by omega)]
    exact ⟨rfl, rfl, by simp⟩
  · rw [acc_traceRow, take_of_length_le (by omega)]

/-! ## Satisfying traces -/

variable {rows : List TraceRow} {inputs : SigBatchPublicInputs}

/-- The accumulators of a row are the fold of the leaves before it. -/
theorem Satisfies.acc_eq (h : Satisfies rows inputs) {n : Nat} {row : TraceRow} (hrow : rows[n]? = some row) :
    row.acc = accumulate ((rows.take n).map TraceRow.leaf) := by
  induction n generalizing row with
  | zero =>
    have hfirst := h.assertions (0, 0) mem_cons_self
    rw [hrow] at hfirst
    exact Option.some.inj hfirst
  | succ n ih =>
    obtain ⟨hlt, rfl⟩ := List.getElem?_eq_some_iff.mp hrow
    have hprev := getElem?_eq_getElem (Nat.lt_of_succ_lt hlt)
    have hstep := isChain_iff_getElem.mp h.transitions n hlt
    rw [take_add_one, hprev, map_append]
    exact (sub_eq_zero.mp hstep).trans ((ih hprev) ▸ (accumulate_concat _ _).symm)

/-- The circuit of a signature batch. The trace of every batch satisfies it for the number of its entries and its root. Where
a trace satisfies it for any public inputs, the fold of the counted leaves is the root exactly when the accumulators stay the
same behind them. -/
theorem sigBatch_circuit (Γ : Ctx) :
    (∀ entries : List SigBatchEntry, entries ≠ [] → ∃ rows root, buildTrace Γ entries = some (rows, root) ∧
      Satisfies rows ⟨root, entries.length⟩ ∧ rootToBytes root = computeBatchRoot Γ entries) ∧
    ∀ (rows : List TraceRow) (inputs : SigBatchPublicInputs), Satisfies rows inputs →
      (accumulate ((rows.take inputs.nSigs).map TraceRow.leaf) = inputs.batchRoot ↔ Stable rows inputs.nSigs) := by
  refine ⟨fun entries hne => ?_, fun rows inputs h => ?_⟩
  · obtain ⟨first, rest, rfl⟩ := exists_cons_of_ne_nil hne
    obtain ⟨rows, root, hbuild, hsatisfies, hroot⟩ := satisfies_buildTrace Γ first rest
    exact ⟨rows, root, hbuild, hsatisfies, by rw [computeBatchRoot_eq, hroot]⟩
  · have hend := h.assertions (rows.length - 1, inputs.batchRoot) (by simp [getAssertions])
    obtain ⟨last, hlast, hroot⟩ := Option.map_eq_some_iff.mp hend
    change last.acc = inputs.batchRoot at hroot
    unfold Stable
    rw [getLast?_eq_getElem?, show rows[rows.length - 1]? = some last from hlast]
    split_ifs with hlt
    · rw [getElem?_eq_getElem hlt, Option.map_some, Option.map_some, Option.some.injEq,
        h.acc_eq (getElem?_eq_getElem hlt), hroot]
    · have hall : rows = rows.take (rows.length - 1) ++ [last] := by
        obtain ⟨hpos, -⟩ := List.getElem?_eq_some_iff.mp hlast
        conv_lhs => rw [← take_length (l := rows), show rows.length = rows.length - 1 + 1 by omega, take_add_one, hlast]
        rfl
      rw [take_of_length_le (Nat.le_of_not_lt hlt)]
      conv_lhs => rw [hall, map_append]
      rw [show map TraceRow.leaf [last] = [last.leaf] from rfl, accumulate_concat, ← h.acc_eq hlast, ← hroot]
      simp only [Option.mem_some_iff, forall_eq', eq_sub_iff_add_eq']

/-! ## An uncounted leaf -/

namespace UncountedLeaf

/-- Seven rows of zeros, the last of them with a leaf, before the root. -/
def lateRows : List TraceRow :=
  replicate 6 ⟨0, 0⟩ ++ [⟨0, 1⟩, ⟨1, 0⟩]

/-- One signature is counted. -/
def oneSig : SigBatchPublicInputs :=
  ⟨1, 1⟩

/-- The trace satisfies the circuit for one signature, whose leaf does not fold to the root. -/
theorem uncounted_leaf_accepted :
    lateRows.length = 2 ^ 3 ∧ Satisfies lateRows oneSig ∧
      accumulate ((lateRows.take oneSig.nSigs).map TraceRow.leaf) ≠ oneSig.batchRoot := by
  refine ⟨rfl, ⟨?_, ?_⟩, ?_⟩
  · unfold evaluateTransition
    decide +kernel
  · decide +kernel
  · decide +kernel

end UncountedLeaf

end ShellChain
