import ShellChain.Lemmas.ChainIndexes

/-!
# Moves of the canonical chain

Every transition of the canonical chain replaces the blocks at its end. `Moves` says what its batch does to each class of
records, and `Indexed` that the records are those of a chain. A batch that moves the chain takes the records of one chain to
those of the other.
-/

namespace ShellChain

open Checks KeyedStore ChainKey List ChainDb

variable {Γ : Ctx}

/-! ## Batches -/

/-- The canonical mapping of a block. -/
def numberEntry (Γ : Ctx) (block : Block) : ChainEntry :=
  ⟨.number block.number, block.hash Γ⟩

/-- The stored system transactions of a block. -/
def systemEntry (Γ : Ctx) (block : Block) : ChainEntry :=
  ⟨.systemTxs (block.hash Γ), block.systemTransactions⟩

/-- What a batch that replaces blocks at the end of the canonical chain does to each class of records. -/
structure Moves (Γ : Ctx) (oldChain newChain : List Block) (stale : List Nat) (newHead : ShellHash) (batch : ChainBatch) :
    Prop where
  index : batch.filter (fun op => op.1.isIndex) =
    deletes ((lookupEntries Γ oldChain).map Sigma.fst) ++ puts (lookupEntries Γ newChain)
  numbers : batch.filter (fun op => op.1.isNumber) =
    puts (newChain.map (numberEntry Γ)) ++ deletes (stale.map ChainKey.number)
  system : batch.filter (fun op => op.1.isSystemTxs) = puts (newChain.map (systemEntry Γ))
  head : batch.filter (fun op => op.1.isHead) = [putOp .headBlock newHead]

theorem isIndex_not (key : ChainKey) :
    (key.isIndex → key.isNumber = false) ∧ (key.isIndex → key.isSystemTxs = false) ∧ (key.isIndex → key.isHead = false) ∧
      (key.isIndex → key.isTotals = false) := by
  cases key <;> simp [isIndex, isNumber, isSystemTxs, isHead, isTotals]

theorem isTotals_not (key : ChainKey) : (key.isTotals → key.isIndex = false) ∧ (key.isTotals → key.isNumber = false) ∧
      (key.isTotals → key.isSystemTxs = false) ∧ (key.isTotals → key.isHead = false) := by
  cases key <;> simp [isIndex, isNumber, isSystemTxs, isHead, isTotals]

/-- A class of keys beside the lookup records, the totals and the parts of blocks. -/
structure Beside (p : ChainKey → Bool) : Prop where
  index : ∀ key : ChainKey, key.isIndex → p key = false
  totals : ∀ key : ChainKey, key.isTotals → p key = false
  parts : ∀ hash, p (.header hash) = false ∧ p (.priorityFees hash) = false ∧ p (.body hash) = false ∧
    p (.witness hash) = false

theorem beside_isNumber : Beside isNumber :=
  ⟨fun key => (isIndex_not key).1, fun key => (isTotals_not key).2.1, fun _ => ⟨rfl, rfl, rfl, rfl⟩⟩

theorem beside_isSystemTxs : Beside isSystemTxs :=
  ⟨fun key => (isIndex_not key).2.1, fun key => (isTotals_not key).2.2.1, fun _ => ⟨rfl, rfl, rfl, rfl⟩⟩

theorem beside_isHead : Beside isHead :=
  ⟨fun key => (isIndex_not key).2.2.1, fun key => (isTotals_not key).2.2.2, fun _ => ⟨rfl, rfl, rfl, rfl⟩⟩

variable {p : ChainKey → Bool}

/-- The parts of a block with its lookup records touch no class beside them. -/
theorem Beside.filter_appendBlockParts (h : Beside p) (block : Block) :
    (appendBlockParts Γ block true).filter (fun op => p op.1) = [] := by
  rw [appendBlockParts, if_pos rfl, filter_append, filter_blockParts h.parts,
    filter_appendTransactionIndexes h.index, nil_append]

theorem index_appendBlockParts (block : Block) :
    (appendBlockParts Γ block true).filter (fun op => op.1.isIndex) = appendTransactionIndexes Γ block := by
  rw [appendBlockParts, if_pos rfl, filter_append, filter_blockParts (p := isIndex)
    (fun _ => ⟨rfl, rfl, rfl, rfl⟩), appendTransactionIndexes, filter_puts fun _ he => isIndex_of_mem he, nil_append]

/-- A commit adds one block. -/
theorem moves_canonicalBlockBatch (block : Block) (receipts : Option (List TransactionReceipt)) :
    Moves Γ [] [block] [] (block.hash Γ) (canonicalBlockBatch Γ block receipts) where
  index := by
    simp only [canonicalBlockBatch, filter_append, index_appendSystemTransactions, index_appendBlockParts]
    cases receipts <;> simp [putOp, isIndex, lookupEntries, deletes, puts_lookupEntries]
  numbers := by
    simp only [canonicalBlockBatch, filter_append, filter_appendSystemTransactions beside_isNumber.index,
      beside_isNumber.filter_appendBlockParts]
    cases receipts <;> simp [putOp, isNumber, puts, deletes, numberEntry]
  system := by
    simp only [canonicalBlockBatch, filter_append, filter_appendSystemTransactions beside_isSystemTxs.index,
      beside_isSystemTxs.filter_appendBlockParts]
    cases receipts <;> simp [putOp, isSystemTxs, puts, systemEntry]
  head := by
    simp only [canonicalBlockBatch, filter_append, filter_appendSystemTransactions beside_isHead.index,
      beside_isHead.filter_appendBlockParts]
    cases receipts <;> simp [putOp, isHead]

/-- The deletions of the lookup records of blocks whose system transactions are stored. -/
theorem flatMap_appendDelete {db : ChainDb} {blocks : List Block}
    (h : ∀ block ∈ blocks, db.getSystemTransactions (block.hash Γ) = block.systemTransactions) :
    (blocks.flatMap fun block => appendDeleteTransactionIndexes Γ block (db.getSystemTransactions (block.hash Γ))) =
      deletes ((lookupEntries Γ blocks).map Sigma.fst) := by
  induction blocks with
  | nil => rfl
  | cons block blocks ih =>
    rw [flatMap_cons, ih fun b hb => h b (.tail _ hb), h block mem_cons_self, lookupEntries_cons,
      map_append, deletes_append]
    rfl

theorem index_flatMap_applyBlock (blocks : List Block) :
    (blocks.flatMap (applyBlock Γ)).filter (fun op => op.1.isIndex) = puts (lookupEntries Γ blocks) := by
  simp only [filter_flatMap, index_applyBlock, lookupEntries, puts, map_flatMap]

/-- The deletions of canonical mappings touch no other class. -/
theorem filter_deletes_numbers (hp : ∀ n, p (.number n) = false) (stale : List Nat) :
    (deletes (V := ChainKey.Value) (stale.map number)).filter (fun op => p op.1) = [] :=
  filter_deletes_eq_nil (forall_mem_map.mpr fun n _ => hp n)

theorem numbers_deletes_numbers (stale : List Nat) :
    (deletes (V := ChainKey.Value) (stale.map number)).filter (fun op => op.1.isNumber) =
      deletes (stale.map number) :=
  filter_deletes (forall_mem_map.mpr fun _ _ => rfl)

theorem index_deletes_lookup (chain : List Block) :
    (deletes (V := ChainKey.Value) ((lookupEntries Γ chain).map Sigma.fst)).filter (fun op => op.1.isIndex) =
      deletes ((lookupEntries Γ chain).map Sigma.fst) :=
  filter_deletes (forall_mem_map.mpr (index_lookupEntries Γ chain))

theorem filter_deletes_lookup (hp : ∀ key, key.isIndex → p key = false) (chain : List Block) :
    (deletes (V := ChainKey.Value) ((lookupEntries Γ chain).map Sigma.fst)).filter (fun op => p op.1) = [] :=
  filter_deletes_eq_nil (forall_mem_map.mpr fun e he => hp _ (index_lookupEntries Γ chain e he))

section Replacement

variable {db : ChainDb} {oldChain newChain : List Block} {stale : List Nat} {newHead : ShellHash} {batch : ChainBatch}

variable (newChain stale newHead) in
/-- A batch that rolls blocks back, applies others and removes the stale mappings. -/
theorem moves_replacement {totals : ChainBatch} (htotals : ∀ op ∈ totals, op.1.isTotals)
    (hsystem : ∀ block ∈ oldChain, db.getSystemTransactions (block.hash Γ) = block.systemTransactions) :
    Moves Γ oldChain newChain stale newHead ((oldChain.flatMap fun block =>
        appendDeleteTransactionIndexes Γ block (db.getSystemTransactions (block.hash Γ))) ++
      newChain.flatMap (applyBlock Γ) ++ deletes (stale.map number) ++ [putOp .headBlock newHead] ++ totals) := by
  rw [flatMap_appendDelete hsystem]
  -- what is left of the batch in a class beside the lookup records
  have hbeside : ∀ {p : ChainKey → Bool}, Beside p → (deletes ((lookupEntries Γ oldChain).map Sigma.fst) ++
      newChain.flatMap (applyBlock Γ) ++ deletes (stale.map number) ++ [putOp .headBlock newHead] ++
      totals).filter (fun op => p op.1) = newChain.flatMap (fun b => (applyBlock Γ b).filter fun op => p op.1) ++
        (deletes (V := ChainKey.Value) (stale.map number)).filter (fun op => p op.1) ++
        [putOp .headBlock newHead].filter (fun op => p op.1) := by
    intro p hp
    simp only [filter_append, filter_flatMap, filter_deletes_lookup hp.index, filter_totals htotals hp.totals,
      nil_append, append_nil]
  refine ⟨?_, ?_, ?_, ?_⟩
  · simp only [filter_append, index_deletes_lookup, index_flatMap_applyBlock,
      filter_deletes_numbers (p := isIndex) fun _ => rfl, filter_totals htotals fun key => (isTotals_not key).1]
    simp [putOp, isIndex]
  · simp only [hbeside beside_isNumber, filter_applyBlock beside_isNumber.index, numbers_deletes_numbers]
    simp [putOp, isNumber, puts, numberEntry, ← map_eq_flatMap]
  · simp only [hbeside beside_isSystemTxs, filter_applyBlock beside_isSystemTxs.index,
      filter_deletes_numbers (p := isSystemTxs) fun _ => rfl]
    simp [putOp, isSystemTxs, puts, systemEntry, ← map_eq_flatMap]
  · simp only [hbeside beside_isHead, filter_applyBlock beside_isHead.index,
      filter_deletes_numbers (p := isHead) fun _ => rfl]
    simp [putOp, isHead]

/-- A reorganization replaces the blocks that are rolled back by those that are applied. -/
theorem moves_reorgBatch (h : db.reorgBatch Γ oldChain newChain stale newHead = .ok batch)
    (hsystem : ∀ block ∈ oldChain, db.getSystemTransactions (block.hash Γ) = block.systemTransactions) :
    Moves Γ oldChain newChain stale newHead batch := by
  unfold reorgBatch at h
  obtain ⟨removed, hremoved, h⟩ := bind_ok_iff.mp h
  obtain ⟨totals, htotals, h⟩ := bind_ok_iff.mp h
  have hmap := map_eq_of_mapM_ok (g := id) (k := fun block =>
    appendDeleteTransactionIndexes Γ block (db.getSystemTransactions (block.hash Γ))) (fun block b hb => by
      unfold rollbackBlock at hb
      split at hb
      · cases hb
      · exact (Except.ok.inj hb).symm) hremoved
  rw [← pure_ok_iff.mp h, ← map_id removed, hmap, ← flatMap_def]
  refine moves_replacement _ _ _ (fun op hop => ?_) hsystem
  unfold appendReorgTotals at htotals
  split at htotals
  · cases htotals
    cases hop
  split at htotals
  · cases htotals
    cases hop
  split at htotals
  · unfold movedTotals at htotals
    simp only [bind_ok_iff, pure_ok_iff] at htotals
    obtain ⟨_, -, _, -, _, -, _, -, _, -, rfl⟩ := htotals
    exact isTotals_totalsBatch _ _ _ op hop
  · cases htotals
    cases hop

/-- More records of other classes do not change what a batch moves. -/
theorem Moves.append {more : ChainBatch} (h : Moves Γ oldChain newChain stale newHead batch)
    (hmore : ∀ op ∈ more, op.1.isIndex = false ∧ op.1.isNumber = false ∧ op.1.isSystemTxs = false ∧ op.1.isHead = false) :
    Moves Γ oldChain newChain stale newHead (batch ++ more) := by
  have hnone : ∀ p : ChainKey → Bool, (∀ op ∈ more, p op.1 = false) → more.filter (fun op => p op.1) = [] := by
    intro p hp
    refine filter_eq_nil_iff.mpr fun op hop => ?_
    simp [hp op hop]
  constructor
  · rw [filter_append, h.index, hnone isIndex fun op hop => (hmore op hop).1, append_nil]
  · rw [filter_append, h.numbers, hnone isNumber fun op hop => (hmore op hop).2.1, append_nil]
  · rw [filter_append, h.system, hnone isSystemTxs fun op hop => (hmore op hop).2.2.1, append_nil]
  · rw [filter_append, h.head, hnone isHead fun op hop => (hmore op hop).2.2.2, append_nil]

end Replacement

/-! ## Records of a chain -/

/-- The canonical records of the store are those of a chain. -/
structure Indexed (Γ : Ctx) (db : ChainDb) (chain : List Block) : Prop where
  canonical : CanonicalChain Γ chain
  positioned : ∀ block ∈ chain, block.Positioned
  numbers : ∀ n, db (.number n) = chain[n]?.map (Block.hash Γ)
  head : db .headBlock = chain.getLast?.map (Block.hash Γ)
  system : ∀ block ∈ chain, db.getSystemTransactions (block.hash Γ) = block.systemTransactions
  lookup : Holds ChainKey.isIndex db (lookupEntries Γ chain)

/-- The stale mappings of a move: those of the old chain above the new tip, and none at or below it. -/
def Stale (oldLength newLength : Nat) (stale : List Nat) : Prop :=
  (∀ n ∈ stale, newLength ≤ n) ∧ ∀ n, newLength ≤ n → n < oldLength → n ∈ stale

section Move

variable {db : ChainDb} {kept oldChain newChain : List Block} {stale : List Nat} {newHead : ShellHash} {batch : ChainBatch}

/-- The entries a move writes for its new blocks, under keys that tell the blocks of the chain apart, are distinct. -/
theorem nodup_entries {α : Type} (key : α → ChainKey) {read : Block → α} {entry : Block → ChainEntry}
    (hkey : Function.Injective key) (hentry : Sigma.fst ∘ entry = key ∘ read)
    (h : ((kept ++ newChain).map read).Nodup) : ((newChain.map entry).map Sigma.fst).Nodup := by
  rw [map_append, nodup_append] at h
  rw [map_map, hentry, ← map_map]
  exact h.2.1.map hkey

section

variable (hnew : CanonicalChain Γ (kept ++ newChain))
  (hstale : Stale (kept ++ oldChain).length (kept ++ newChain).length stale)
  (hmoves : Moves Γ oldChain newChain stale newHead batch)

include hnew hstale hmoves

/-- The canonical mappings after a move. -/
theorem numbers_move (h : ∀ n, db (.number n) = (kept ++ oldChain)[n]?.map (Block.hash Γ)) (n : Nat) :
    db.writeBatch batch (.number n) = (kept ++ newChain)[n]?.map (Block.hash Γ) := by
  have hmem : ∀ block, block ∈ newChain → ∃ j, newChain[j]? = some block ∧ block.number = kept.length + j := by
    intro block hblock
    obtain ⟨j, hj, rfl⟩ := getElem_of_mem hblock
    refine ⟨j, getElem?_eq_getElem hj, hnew.heights _ _ ?_⟩
    rw [getElem?_append_right (Nat.le_add_right _ _), Nat.add_sub_cancel_left, getElem?_eq_getElem hj]
  rw [writeBatch, write_filter isNumber _ _ rfl, hmoves.numbers, write_append, write_deletes]
  have hstaleIff : number n ∈ stale.map number ↔ n ∈ stale := by
    rw [mem_map_of_injective fun a b h => number.inj h]
  rw [length_append, length_append] at hstale
  by_cases hlow : n < kept.length
  · -- Below the common ancestor nothing is written.
    have hnot : number n ∉ (newChain.map (numberEntry Γ)).map Sigma.fst := by
      intro hin
      obtain ⟨e, he, heq⟩ := mem_map.mp hin
      obtain ⟨block, hblock, rfl⟩ := mem_map.mp he
      obtain ⟨j, -, hnumber⟩ := hmem block hblock
      have := number.inj heq
      omega
    rw [if_neg fun hin => by have := hstale.1 n (hstaleIff.mp hin); omega, write_puts_of_not_mem hnot, h,
      getElem?_append_left hlow, getElem?_append_left hlow]
  · obtain ⟨j, rfl⟩ := Nat.exists_eq_add_of_le (Nat.le_of_not_lt hlow)
    rw [getElem?_append_right (Nat.le_add_right _ _), Nat.add_sub_cancel_left]
    cases hblock : newChain[j]? with
    | some block =>
      have hlt := (List.getElem?_eq_some_iff.mp hblock).1
      have hnumber : block.number = kept.length + j := by
        refine hnew.heights _ _ ?_
        rw [getElem?_append_right (Nat.le_add_right _ _), Nat.add_sub_cancel_left, hblock]
      have hput := write_puts_of_mem (s := db)
        (nodup_entries number (fun _ _ => number.inj) rfl hnew.nodup_numbers)
        (mem_map_of_mem (f := numberEntry Γ) (mem_of_getElem? hblock))
      rw [if_neg fun hin => by have := hstale.1 _ (hstaleIff.mp hin); omega, ← hnumber]
      exact hput
    | none =>
      have hge := getElem?_eq_none_iff.mp hblock
      have hnot : number (kept.length + j) ∉ (newChain.map (numberEntry Γ)).map Sigma.fst := by
        intro hin
        obtain ⟨e, he, heq⟩ := mem_map.mp hin
        obtain ⟨block, hin, rfl⟩ := mem_map.mp he
        obtain ⟨i, hi, hnumber⟩ := hmem block hin
        have := number.inj heq
        have hlt := (List.getElem?_eq_some_iff.mp hi).1
        omega
      split
      · rfl
      · rename_i hnotStale
        have hold : oldChain.length ≤ j := by
          by_contra hlt
          exact hnotStale (hstaleIff.mpr (hstale.2 _ (by omega) (by omega)))
        rw [write_puts_of_not_mem hnot, h, getElem?_append_right (Nat.le_add_right _ _), Nat.add_sub_cancel_left,
          getElem?_eq_none_iff.mpr hold]

/-- A batch that moves the chain takes the records of one chain to those of the other. -/
theorem Indexed.move (h : Indexed Γ db (kept ++ oldChain)) (hpositioned : ∀ block ∈ newChain, block.Positioned)
    (hhead : (kept ++ newChain).getLast?.map (Block.hash Γ) = some newHead) :
    Indexed Γ (db.writeBatch batch) (kept ++ newChain) := by
  have hpositions : ∀ block ∈ kept ++ newChain, block.Positioned :=
    forall_mem_append.mpr ⟨(forall_mem_append.mp h.positioned).1, hpositioned⟩
  refine ⟨hnew, hpositions, numbers_move hnew hstale hmoves h.numbers, ?_, ?_, ?_⟩
  · rw [hhead, writeBatch, write_filter isHead _ _ rfl, hmoves.head]
    rfl
  · intro block hblock
    unfold getSystemTransactions writeBatch
    rw [write_filter isSystemTxs _ _ rfl, hmoves.system]
    rcases mem_append.mp hblock with hkept | hin
    · rw [write_puts_of_not_mem, ← h.system block (mem_append_left _ hkept)]
      · rfl
      · intro hin
        obtain ⟨e, he, heq⟩ := mem_map.mp hin
        obtain ⟨other, hother, rfl⟩ := mem_map.mp he
        have hnodup := hnew.hashes
        rw [map_append, nodup_append] at hnodup
        exact hnodup.2.2 _ (mem_map_of_mem hkept) _ (mem_map_of_mem hother) (systemTxs.inj heq).symm
    · have hput := write_puts_of_mem (s := db)
        (nodup_entries systemTxs (fun _ _ => systemTxs.inj) rfl hnew.hashes)
        (mem_map_of_mem (f := systemEntry Γ) hin)
      exact congrArg (fun stored : Option (List SystemTransaction) => stored.getD []) hput
  · refine Holds.of_filter ?_
    rw [hmoves.index, write_append, lookupEntries_append]
    have hold := h.lookup
    have holdKeys := h.canonical.nodup_keys h.positioned
    have hnewKeys := hnew.nodup_keys hpositions
    rw [lookupEntries_append] at hold holdKeys hnewKeys
    exact (hold.deletes holdKeys).puts hnewKeys

end

end Move

end ShellChain
