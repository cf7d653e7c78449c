import ShellChain.ChainDb

/-!
# The lookup records of a chain

The lookup records of the blocks of a chain have different keys if no transaction hash occurs twice and the system
transactions of each block are positioned after its user transactions. What a batch does to the lookup records, to the
canonical mappings and to the stored system transactions is read off the operations on each of these classes.
-/

namespace ShellChain

open KeyedStore List IndexedTx

/-! ## Classes of keys -/

namespace ChainKey

/-- The keys of the lookup indexes. -/
def isIndex : ChainKey → Bool
  | txIndex _ => true
  | addrTx _ _ _ => true
  | addrTxRev _ _ _ => true
  | _ => false

/-- The keys of the canonical mappings. -/
def isNumber : ChainKey → Bool
  | number _ => true
  | _ => false

/-- The keys of the stored system transactions. -/
def isSystemTxs : ChainKey → Bool
  | systemTxs _ => true
  | _ => false

def isHead : ChainKey → Bool
  | headBlock => true
  | _ => false

def isTotals : ChainKey → Bool
  | totalTxCount => true
  | totalGasUsed => true
  | totalsHead => true
  | _ => false

end ChainKey

/-! ## Lookup records -/

/-- The transactions of a block as the lookup indexes see them. -/
def Block.indexedTxs (Γ : Ctx) (block : Block) : List IndexedTx :=
  block.userTxs Γ ++ block.systemTransactions.map (·.indexed Γ)

/-- The lookup records of a block. -/
def Block.lookupEntries (Γ : Ctx) (block : Block) : List ChainEntry :=
  indexEntries (block.hash Γ) block.number (block.indexedTxs Γ)

/-- The lookup records of a chain. -/
def lookupEntries (Γ : Ctx) (chain : List Block) : List ChainEntry :=
  chain.flatMap (Block.lookupEntries Γ)

theorem lookupEntries_cons (Γ : Ctx) (block : Block) (chain : List Block) :
    lookupEntries Γ (block :: chain) = block.lookupEntries Γ ++ lookupEntries Γ chain :=
  flatMap_cons

theorem lookupEntries_append (Γ : Ctx) (chain chain' : List Block) :
    lookupEntries Γ (chain ++ chain') = lookupEntries Γ chain ++ lookupEntries Γ chain' :=
  flatMap_append

/-- The system transactions of a block come after its user transactions, and every position is a `u32`. -/
def Block.Positioned (block : Block) : Prop :=
  (∀ j tx, block.systemTransactions[j]? = some tx → tx.txIndex = block.transactions.length + j) ∧
    block.transactions.length + block.systemTransactions.length ≤ 2 ^ 32

/-- A chain from its genesis: blocks of consecutive heights, each on the one before, no block hash and no transaction hash
twice. -/
structure CanonicalChain (Γ : Ctx) (chain : List Block) : Prop where
  heights : ∀ i (block : Block), chain[i]? = some block → block.number = i
  linked : ∀ i (block next : Block), chain[i]? = some block → chain[i + 1]? = some next → next.header.parentHash = block.hash Γ
  hashes : (chain.map (Block.hash Γ)).Nodup
  txs : (chain.flatMap fun block => (block.indexedTxs Γ).map IndexedTx.hash).Nodup

variable {Γ : Ctx} {blockHash : ShellHash} {e : ChainEntry} {number : Nat} {tx : IndexedTx} {block : Block}

theorem mem_entries : e ∈ tx.entries blockHash number ↔ e = ⟨.txIndex tx.hash, (blockHash, tx.index)⟩ ∨ ∃ a ∈ tx.touched,
      e = ⟨.addrTx a number tx.index, tx.hash⟩ ∨ e = ⟨.addrTxRev a number tx.index, tx.hash⟩ := by
  simp [entries, addrEntries, mem_flatMap]

theorem mem_keys_entries {key : ChainKey} : key ∈ (tx.entries blockHash number).map Sigma.fst ↔ key = .txIndex tx.hash ∨
      ∃ a ∈ tx.touched, key = .addrTx a number tx.index ∨ key = .addrTxRev a number tx.index := by
  rw [mem_map]
  constructor
  · rintro ⟨e, he, rfl⟩
    rcases mem_entries.mp he with rfl | ⟨a, ha, rfl | rfl⟩
    · exact .inl rfl
    · exact .inr ⟨a, ha, .inl rfl⟩
    · exact .inr ⟨a, ha, .inr rfl⟩
  · rintro (rfl | ⟨a, ha, rfl | rfl⟩)
    · exact ⟨_, mem_entries.mpr (.inl rfl), rfl⟩
    · exact ⟨_, mem_entries.mpr (.inr ⟨a, ha, .inl rfl⟩), rfl⟩
    · exact ⟨_, mem_entries.mpr (.inr ⟨a, ha, .inr rfl⟩), rfl⟩

theorem isIndex_of_mem {txs : List IndexedTx} (h : e ∈ indexEntries blockHash number txs) : e.1.isIndex := by
  obtain ⟨tx, -, he⟩ := mem_flatMap.mp h
  rcases mem_entries.mp he with rfl | ⟨a, -, rfl | rfl⟩
  · rfl
  · rfl
  · rfl

/-! ## Different keys -/

theorem nodup_touched (h : tx ∈ block.indexedTxs Γ) : tx.touched.Nodup := by
  rcases mem_append.mp h with h | h
  · obtain ⟨⟨stx, i⟩, -, rfl⟩ := mem_map.mp h
    change stx.touched.Nodup
    unfold SignedTransaction.touched
    split
    · split
      · rename_i hne
        exact nodup_cons.mpr ⟨fun hmem => hne (mem_singleton.mp hmem).symm, nodup_singleton _⟩
      · exact nodup_singleton _
    · exact nodup_singleton _
  · obtain ⟨stx, -, rfl⟩ := mem_map.mp h
    exact nodup_singleton _

theorem nodup_keys_entries (blockHash : ShellHash) (number : Nat) (h : tx.touched.Nodup) :
    ((tx.entries blockHash number).map Sigma.fst).Nodup := by
  rw [entries, map_cons, map_flatMap, nodup_cons]
  constructor
  · intro hmem
    obtain ⟨a, -, ha⟩ := mem_flatMap.mp hmem
    simp [addrEntries] at ha
  · refine nodup_flatMap.mpr ⟨fun a _ => by simp [addrEntries], ?_⟩
    refine h.imp ?_
    intro a b hne key ha hb
    simp only [addrEntries, map_cons, map_nil, mem_cons, not_mem_nil, or_false] at ha hb
    rcases ha with rfl | rfl <;> rcases hb with hb | hb <;> simp_all

theorem map_index_indexedTxs (h : block.Positioned) :
    (block.indexedTxs Γ).map index = range (block.transactions.length + block.systemTransactions.length) := by
  refine ext_getElem? fun i => ?_
  rw [Block.indexedTxs, map_append, Block.userTxs, map_map, map_map]
  by_cases hi : i < block.transactions.length
  · have hsmall : i < 2 ^ 32 := by
      have := h.2
      omega
    rw [getElem?_append_left (by simpa using hi), getElem?_map, getElem?_zipIdx,
      getElem?_eq_getElem hi, getElem?_range (by omega)]
    simpa using hsmall
  · rw [getElem?_append_right (by simpa using hi), getElem?_map]
    simp only [length_map, length_zipIdx]
    cases hsys : block.systemTransactions[i - block.transactions.length]? with
    | none =>
      have hlength := getElem?_eq_none_iff.mp hsys
      rw [getElem?_eq_none_iff.mpr (by rw [length_range]; omega)]
      rfl
    | some tx =>
      obtain ⟨hlength, -⟩ := List.getElem?_eq_some_iff.mp hsys
      rw [getElem?_range (by omega), Option.map_some]
      have hindex := h.1 _ _ hsys
      refine congrArg some ?_
      change tx.txIndex = i
      omega

namespace CanonicalChain

variable {chain : List Block}

/-- The conditions on neighbours, as conditions on lists. -/
theorem of_lists (heights : chain.map Block.number = range chain.length)
    (linked : chain.IsChain fun block next => next.header.parentHash = block.hash Γ)
    (hashes : (chain.map (Block.hash Γ)).Nodup)
    (txs : (chain.flatMap fun block => (block.indexedTxs Γ).map hash).Nodup) : CanonicalChain Γ chain := by
  refine ⟨?_, ?_, hashes, txs⟩
  · intro i block hblock
    have hnumber : (chain.map Block.number)[i]? = some block.number := by rw [getElem?_map, hblock, Option.map_some]
    obtain ⟨hi, -⟩ := List.getElem?_eq_some_iff.mp hblock
    rw [heights, getElem?_range hi] at hnumber
    exact (Option.some.inj hnumber).symm
  · intro i block next hblock hnext
    obtain ⟨hi, rfl⟩ := List.getElem?_eq_some_iff.mp hblock
    obtain ⟨hi', rfl⟩ := List.getElem?_eq_some_iff.mp hnext
    exact isChain_iff_getElem.mp linked i hi'

theorem nodup_numbers (h : CanonicalChain Γ chain) : (chain.map Block.number).Nodup := by
  have hrange : chain.map Block.number = range chain.length := by
    refine ext_getElem? fun i => ?_
    rw [getElem?_map]
    cases hi : chain[i]? with
    | none => rw [getElem?_eq_none_iff.mpr (by simpa using getElem?_eq_none_iff.mp hi)]; rfl
    | some block =>
      obtain ⟨hlength, -⟩ := List.getElem?_eq_some_iff.mp hi
      rw [getElem?_range hlength, Option.map_some, h.heights i block hi]
  rw [hrange]
  exact nodup_range

/-- The lookup records of a chain have different keys. -/
theorem nodup_keys (h : CanonicalChain Γ chain) (hpositioned : ∀ block ∈ chain, block.Positioned) :
    ((lookupEntries Γ chain).map Sigma.fst).Nodup := by
  -- Every transaction of the chain once, with the block it is in.
  let places := chain.flatMap fun block => (block.indexedTxs Γ).map fun tx => (block, tx)
  have hmem : ∀ p ∈ places, p.2 ∈ p.1.indexedTxs Γ := by
    intro p hp
    obtain ⟨block, -, hp⟩ := mem_flatMap.mp hp
    obtain ⟨tx, htx, rfl⟩ := mem_map.mp hp
    exact htx
  have hentries : (lookupEntries Γ chain).map Sigma.fst =
      places.flatMap fun p => (p.2.entries (p.1.hash Γ) p.1.number).map Sigma.fst := by
    simp only [lookupEntries, Block.lookupEntries, indexEntries, places, map_flatMap, flatMap_assoc, flatMap_map]
  have hhashes : places.Pairwise fun p q => p.2.hash ≠ q.2.hash := by
    have hnodup := h.txs
    rw [show (chain.flatMap fun block => (block.indexedTxs Γ).map hash) = places.map fun p => p.2.hash by
      simp only [places, map_flatMap, map_map]; rfl] at hnodup
    exact pairwise_map.mp hnodup
  have hplaces : places.Pairwise fun p q => (p.1.number, p.2.index) ≠ (q.1.number, q.2.index) := by
    refine pairwise_map.mp (show (places.map fun p => (p.1.number, p.2.index)).Nodup from ?_)
    rw [show (places.map fun p => (p.1.number, p.2.index)) = chain.flatMap fun block =>
      ((block.indexedTxs Γ).map index).map fun i => (block.number, i) by
        simp only [places, map_flatMap, map_map]; rfl]
    refine nodup_flatMap.mpr ⟨fun block hblock => ?_, ?_⟩
    · rw [map_index_indexedTxs (hpositioned block hblock)]
      exact nodup_range.map fun i j hij => (Prod.mk.inj hij).2
    · refine (pairwise_map.mp h.nodup_numbers).imp ?_
      intro block block' hne place hplace hplace'
      obtain ⟨i, -, rfl⟩ := mem_map.mp hplace
      obtain ⟨j, -, hj⟩ := mem_map.mp hplace'
      exact hne (Prod.mk.inj hj).1.symm
  rw [hentries]
  refine nodup_flatMap.mpr ⟨fun p hp => nodup_keys_entries _ _ (nodup_touched (hmem p hp)), ?_⟩
  refine (hhashes.and hplaces).imp ?_
  rintro p q ⟨hhash, hplace⟩ key hkey hkey'
  rw [mem_keys_entries] at hkey hkey'
  rcases hkey with rfl | ⟨a, -, rfl | rfl⟩ <;> rcases hkey' with h | ⟨b, -, h | h⟩ <;> simp_all

end CanonicalChain

/-! ## The operations of a batch on a class -/

section Batches

variable {p : ChainKey → Bool}

theorem index_lookupEntries (Γ : Ctx) (chain : List Block) : ∀ e ∈ lookupEntries Γ chain, e.1.isIndex := by
  intro e he
  obtain ⟨block, -, he⟩ := mem_flatMap.mp he
  exact isIndex_of_mem he

theorem filter_appendTransactionIndexes (hp : ∀ key, key.isIndex → p key = false) (block : Block) :
    (appendTransactionIndexes Γ block).filter (fun op => p op.1) = [] :=
  filter_puts_eq_nil fun _ he => hp _ (isIndex_of_mem he)

theorem filter_appendSystemTransactions (hp : ∀ key, key.isIndex → p key = false) (blockHash : ShellHash) (number : Nat)
    (systemTxs : List SystemTransaction) :
    (appendSystemTransactions Γ blockHash number systemTxs).filter (fun op => p op.1) =
      if p (.systemTxs blockHash) then [putOp (.systemTxs blockHash) systemTxs] else [] := by
  rw [appendSystemTransactions, filter_cons, filter_puts_eq_nil fun _ he => hp _ (isIndex_of_mem he)]
  rfl

theorem index_appendSystemTransactions (blockHash : ShellHash) (number : Nat) (systemTxs : List SystemTransaction) :
    (appendSystemTransactions Γ blockHash number systemTxs).filter (fun op => op.1.isIndex) =
      puts (indexEntries blockHash number (systemTxs.map (·.indexed Γ))) := by
  rw [appendSystemTransactions, filter_cons, filter_puts fun _ he => isIndex_of_mem he]
  rfl

/-- The lookup records of a block are those of its user and of its system transactions. -/
theorem puts_lookupEntries (block : Block) : puts (block.lookupEntries Γ) = appendTransactionIndexes Γ block ++
    puts (indexEntries (block.hash Γ) block.number (block.systemTransactions.map (·.indexed Γ))) := by
  rw [appendTransactionIndexes, ← puts_append, Block.lookupEntries, Block.indexedTxs, indexEntries, flatMap_append]
  rfl

theorem filter_blockParts (hp : ∀ hash, p (.header hash) = false ∧ p (.priorityFees hash) = false ∧
    p (.body hash) = false ∧ p (.witness hash) = false) (block : Block) :
    (blockParts Γ block).filter (fun op => p op.1) = [] := by
  obtain ⟨hheader, hfees, hbody, hwitness⟩ := hp (block.hash Γ)
  unfold blockParts
  split <;> simp [putOp, hheader, hfees, hbody, hwitness]

theorem index_applyBlock (block : Block) :
    (ChainDb.applyBlock Γ block).filter (fun op => op.1.isIndex) = puts (block.lookupEntries Γ) := by
  rw [ChainDb.applyBlock, filter_append, filter_append, index_appendSystemTransactions, puts_lookupEntries,
    appendTransactionIndexes, filter_puts fun _ he => isIndex_of_mem he]
  simp [putOp, ChainKey.isIndex]

/-- A class without lookup records: what applying a block does to it. -/
theorem filter_applyBlock (hp : ∀ key, key.isIndex → p key = false) (block : Block) :
    (ChainDb.applyBlock Γ block).filter (fun op => p op.1) =
      (if p (.systemTxs (block.hash Γ)) then [putOp (.systemTxs (block.hash Γ)) block.systemTransactions] else []) ++
        if p (.number block.number) then [putOp (.number block.number) (block.hash Γ)] else [] := by
  rw [ChainDb.applyBlock, filter_append, filter_append, filter_appendTransactionIndexes hp,
    filter_appendSystemTransactions hp, nil_append, filter_cons, filter_nil]
  rfl

theorem isTotals_totalsBatch (txs gas head : Nat) : ∀ op ∈ ChainDb.totalsBatch txs gas head, op.1.isTotals := by
  intro op hop
  simp only [ChainDb.totalsBatch, mem_cons, not_mem_nil, or_false] at hop
  rcases hop with rfl | rfl | rfl
  · rfl
  · rfl
  · rfl

variable {totals : ChainBatch}

theorem filter_totals (htotals : ∀ op ∈ totals, op.1.isTotals) (hp : ∀ key, key.isTotals → p key = false) :
    totals.filter (fun op => p op.1) = [] := by
  refine filter_eq_nil_iff.mpr fun op hop => ?_
  simp [hp _ (htotals op hop)]

end Batches

end ShellChain
