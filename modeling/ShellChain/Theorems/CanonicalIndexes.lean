import ShellChain.Lemmas.CanonicalMoves
import ShellChain.SampleChain

/-!
# Canonical indexes

Whatever blocks are committed, replaced and rewound after genesis, the canonical mappings are the chain of the head, and the
lookup indexes list exactly the transactions of its blocks, if the system transactions of each block are positioned after its
user transactions.
-/

namespace ShellChain

open Checks KeyedStore List ChainDb

/-! ## Runs -/

/-- A chain store with its canonical chain. The chain is history; the store does not keep it. -/
structure CanonicalStore where
  db : ChainDb
  chain : List Block

/-- The transitions of the canonical chain. -/
inductive ChainEvent
  /-- `commit_canonical_block` or `commit_canonical_overlay`. -/
  | commit (block : Block) (receipts : Option (List TransactionReceipt))
  | commitReorg (oldChain newChain : List Block) (stale : List Nat) (newHead : ShellHash)
  | commitReorgOverlay (oldChain newChain : List Block) (stale : List Nat) (receipts : List (List TransactionReceipt))
    (newHead : ShellHash) (finalizedNumber : Option Nat)
  | commitCanonicalRewind (removedBlocks : List Block) (stale : List Nat) (newHead : ShellHash)
    (totalTxCount totalGasUsed finalizedNumber : Nat)

namespace CanonicalStore

/-- The store after a transition that replaces blocks, and as it was if the transition fails. -/
def replaced (s : CanonicalStore) (oldChain newChain : List Block) (result : Except KvError ChainDb) : CanonicalStore :=
  match result with
  | .ok db => ⟨db, s.chain.take (s.chain.length - oldChain.length) ++ newChain⟩
  | .error _ => s

/-- The store after a transition. -/
def after (Γ : Ctx) (s : CanonicalStore) : ChainEvent → CanonicalStore
  | .commit block receipts => s.replaced [] [block] (.ok (s.db.commitCanonicalBlock Γ block receipts))
  | .commitReorg oldChain newChain stale newHead =>
    s.replaced oldChain newChain (s.db.commitReorg Γ oldChain newChain stale newHead)
  | .commitReorgOverlay oldChain newChain stale receipts newHead finalizedNumber =>
    s.replaced oldChain newChain (s.db.commitReorgOverlay Γ oldChain newChain stale receipts newHead finalizedNumber)
  | .commitCanonicalRewind removedBlocks stale newHead txs gas finalizedNumber =>
    s.replaced removedBlocks [] (s.db.commitCanonicalRewind Γ removedBlocks stale newHead txs gas finalizedNumber)

/-- The runs of a store. -/
def machine (Γ : Ctx) : TransitionSystem CanonicalStore ChainEvent where
  step := after Γ

/-- The store after genesis is committed to an empty one. -/
def genesis (Γ : Ctx) (block : Block) : CanonicalStore :=
  ⟨ChainDb.commitGenesisBlock Γ (fun _ => none) block, [block]⟩

/-- A suffix of the canonical chain is replaced by linked blocks, up to the new head. -/
def Replaces (Γ : Ctx) (s : CanonicalStore) (oldChain newChain : List Block) (stale : List Nat) (newHead : ShellHash) : Prop :=
  ∃ kept, s.chain = kept ++ oldChain ∧ CanonicalChain Γ (kept ++ newChain) ∧
    Stale (kept ++ oldChain).length (kept ++ newChain).length stale ∧
    (kept ++ newChain).getLast?.map (Block.hash Γ) = some newHead

/-- The call extends or replaces a suffix of the canonical chain. -/
def Linked (Γ : Ctx) (s : CanonicalStore) : ChainEvent → Prop
  | .commit block _ => CanonicalChain Γ (s.chain ++ [block])
  | .commitReorg oldChain newChain stale newHead => s.Replaces Γ oldChain newChain stale newHead
  | .commitReorgOverlay oldChain newChain stale _ newHead _ => s.Replaces Γ oldChain newChain stale newHead
  | .commitCanonicalRewind removedBlocks stale newHead _ _ _ => s.Replaces Γ removedBlocks [] stale newHead

/-- The blocks that a transition adds to the canonical chain. -/
def added : ChainEvent → List Block
  | .commit block _ => [block]
  | .commitReorg _ newChain _ _ => newChain
  | .commitReorgOverlay _ newChain _ _ _ _ => newChain
  | .commitCanonicalRewind _ _ _ _ _ _ => []

/-- The system transactions of the added blocks are positioned after the user transactions. -/
def Positions (event : ChainEvent) : Prop :=
  ∀ block ∈ added event, block.Positioned

variable {Γ : Ctx}

/-! ## Steps -/

/-- A transition by a batch that moves the chain. -/
theorem indexed_replaced {s : CanonicalStore} (h : Indexed Γ s.db s.chain) {oldChain newChain : List Block} {stale : List Nat}
    {newHead : ShellHash} (hreplaces : s.Replaces Γ oldChain newChain stale newHead)
    (hpositions : ∀ block ∈ newChain, block.Positioned) {result : Except KvError ChainDb}
    (hresult : ∀ db, result = .ok db → (∀ block ∈ oldChain,
      s.db.getSystemTransactions (block.hash Γ) = block.systemTransactions) →
        ∃ batch, db = s.db.writeBatch batch ∧ Moves Γ oldChain newChain stale newHead batch) :
    Indexed Γ (s.replaced oldChain newChain result).db (s.replaced oldChain newChain result).chain := by
  obtain ⟨kept, hchain, hnew, hstale, hhead⟩ := hreplaces
  cases hr : result with
  | error e => exact h
  | ok db =>
    rw [hchain] at h
    obtain ⟨batch, rfl, hmoves⟩ := hresult db hr fun block hblock => h.system block (mem_append_right _ hblock)
    rw [replaced, hchain, length_append, Nat.add_sub_cancel, take_left]
    exact h.move hnew hstale hmoves hpositions hhead

/-- A transition keeps the records those of the chain. -/
theorem indexed_after {s : CanonicalStore} {event : ChainEvent} (h : Indexed Γ s.db s.chain)
    (hevent : s.Linked Γ event ∧ Positions event) : Indexed Γ (s.after Γ event).db (s.after Γ event).chain := by
  obtain ⟨hlinked, hpositions⟩ := hevent
  cases event with
  | commit block receipts =>
    have hreplaces : s.Replaces Γ [] [block] [] (block.hash Γ) := by
      refine ⟨s.chain, (append_nil _).symm, hlinked, ⟨fun n hn => (not_mem_nil hn).elim, ?_⟩, ?_⟩
      · intro n hlow hhigh
        rw [length_append] at hlow hhigh
        simp only [length_cons, length_nil] at hlow hhigh
        omega
      · rw [getLast?_append]
        rfl
    refine indexed_replaced h hreplaces hpositions fun db hdb _ => ?_
    exact ⟨_, (Except.ok.inj hdb).symm, moves_canonicalBlockBatch block receipts⟩
  | commitReorg oldChain newChain stale newHead =>
    refine indexed_replaced h hlinked hpositions fun _ hdb hsystem => ?_
    obtain ⟨batch, hbatch, hdb⟩ := bind_ok_iff.mp hdb
    exact ⟨batch, (pure_ok_iff.mp hdb).symm, moves_reorgBatch hbatch hsystem⟩
  | commitReorgOverlay oldChain newChain stale receipts newHead finalizedNumber =>
    refine indexed_replaced h hlinked hpositions fun _ hdb hsystem => ?_
    obtain ⟨_, -, hdb⟩ := bind_ok_iff.mp hdb
    obtain ⟨batch, hbatch, hdb⟩ := bind_ok_iff.mp hdb
    refine ⟨_, (pure_ok_iff.mp hdb).symm, ((moves_reorgBatch hbatch hsystem).append ?_).append ?_⟩
    · exact forall_mem_map.mpr fun _ _ => ⟨rfl, rfl, rfl, rfl⟩
    · intro op hop
      cases finalizedNumber with
      | none => cases hop
      | some number =>
        rw [mem_singleton.mp hop]
        exact ⟨rfl, rfl, rfl, rfl⟩
  | commitCanonicalRewind removedBlocks stale newHead txs gas finalizedNumber =>
    refine indexed_replaced h hlinked hpositions fun _ hdb hsystem => ?_
    obtain ⟨number, -, hdb⟩ := bind_ok_iff.mp hdb
    have hmoves := moves_replacement [] stale newHead (isTotals_totalsBatch txs gas number) hsystem
    rw [flatMap_nil, append_nil] at hmoves
    refine ⟨_, (pure_ok_iff.mp hdb).symm, hmoves.append ?_⟩
    intro op hop
    rw [mem_singleton.mp hop]
    exact ⟨rfl, rfl, rfl, rfl⟩

/-! ## Genesis -/

theorem indexed_genesis {block : Block} (hchain : CanonicalChain Γ [block]) (hpositioned : block.Positioned)
    (hsystem : block.systemTransactions = []) : Indexed Γ (commitGenesisBlock Γ (fun _ => none) block) [block] where
  canonical := hchain
  positioned b hb := by
    rw [mem_singleton.mp hb]
    exact hpositioned
  numbers n := by
    have hnumber : block.number = 0 := hchain.heights 0 block rfl
    have hfilter : (genesisBlockBatch Γ block).filter (fun op => op.1.isNumber) = puts [numberEntry Γ block] := by
      rw [genesisBlockBatch, filter_append, beside_isNumber.filter_appendBlockParts]
      simp [putOp, ChainKey.isNumber, puts, numberEntry]
    rw [commitGenesisBlock, writeBatch, write_filter ChainKey.isNumber _ _ rfl, hfilter]
    cases n with
    | zero =>
      have hput : ∀ m, block.number = m →
          write (fun _ => none) (puts [numberEntry Γ block]) (.number m) = some (block.hash Γ) := by
        rintro m rfl
        have hnodup : ([numberEntry Γ block].map Sigma.fst).Nodup := nodup_singleton _
        exact write_puts_of_mem hnodup mem_cons_self
      exact hput 0 hnumber
    | succ n =>
      rw [write_puts_of_not_mem]
      · rfl
      · intro hin
        have := ChainKey.number.inj (mem_singleton.mp hin)
        omega
  head := by
    have hfilter : (genesisBlockBatch Γ block).filter (fun op => op.1.isHead) = [putOp .headBlock (block.hash Γ)] := by
      rw [genesisBlockBatch, filter_append, beside_isHead.filter_appendBlockParts]
      simp [putOp, ChainKey.isHead]
    rw [commitGenesisBlock, writeBatch, write_filter ChainKey.isHead _ _ rfl, hfilter]
    rfl
  system b hb := by
    have hfilter : (genesisBlockBatch Γ block).filter (fun op => op.1.isSystemTxs) = [] := by
      rw [genesisBlockBatch, filter_append, beside_isSystemTxs.filter_appendBlockParts]
      simp [putOp, ChainKey.isSystemTxs]
    rw [mem_singleton.mp hb, hsystem]
    unfold getSystemTransactions
    rw [commitGenesisBlock, writeBatch, write_filter ChainKey.isSystemTxs _ _ rfl, hfilter]
    rfl
  lookup := by
    have hfilter : (genesisBlockBatch Γ block).filter (fun op => op.1.isIndex) = puts (lookupEntries Γ [block]) := by
      rw [genesisBlockBatch, filter_append, index_appendBlockParts, lookupEntries_cons, puts_append, puts_lookupEntries,
        hsystem]
      simp [putOp, ChainKey.isIndex, puts, indexEntries, lookupEntries]
    refine Holds.of_filter ?_
    rw [hfilter]
    have hempty : Holds ChainKey.isIndex (fun _ => none : ChainDb) [] := by
      intro key _ value
      simp
    refine hempty.puts (hchain.nodup_keys ?_)
    intro b hb
    rw [mem_singleton.mp hb]
    exact hpositioned

/-! ## The indexes -/

/-- A record of the lookup indexes is that of a transaction of the chain. -/
theorem lookup_iff {db : ChainDb} {chain : List Block} (h : Indexed Γ db chain) {key : ChainKey} (hkey : key.isIndex)
    (value : key.Value) {P : Block → IndexedTx → Prop}
    (hP : ∀ block tx, ⟨key, value⟩ ∈ tx.entries (block.hash Γ) block.number ↔ P block tx) :
    db key = some value ↔ ∃ block ∈ chain, ∃ tx ∈ block.indexedTxs Γ, P block tx := by
  rw [h.lookup _ hkey]
  simp only [lookupEntries, Block.lookupEntries, indexEntries, mem_flatMap, hP]

/-- After every run of commits, reorganizations and rewinds from genesis, the canonical mappings are the chain of the head, the
transaction index gives the block and the position of exactly the transactions of its blocks, and the indexes of an address
list exactly those that touch it. -/
theorem canonical_indexes {genesisBlock : Block} (hgenesis : CanonicalChain Γ [genesisBlock])
    (hsystem : genesisBlock.systemTransactions = []) (hpositioned : genesisBlock.Positioned) {events : List ChainEvent}
    (hevents : (machine Γ).Admits (fun s event => s.Linked Γ event ∧ Positions event) (genesis Γ genesisBlock) events) :
    let s := (machine Γ).run (genesis Γ genesisBlock) events
    CanonicalChain Γ s.chain ∧ s.db .headBlock = s.chain.getLast?.map (Block.hash Γ) ∧
      (∀ n, s.db (.number n) = s.chain[n]?.map (Block.hash Γ)) ∧
      (∀ hash location, s.db (.txIndex hash) = some location ↔ ∃ block ∈ s.chain, ∃ tx ∈ block.indexedTxs Γ,
        tx.hash = hash ∧ (block.hash Γ, tx.index) = location) ∧
      (∀ address number index hash, s.db (.addrTx address number index) = some hash ↔ ∃ block ∈ s.chain,
        ∃ tx ∈ block.indexedTxs Γ, block.number = number ∧ tx.index = index ∧ tx.hash = hash ∧ address ∈ tx.touched) ∧
      ∀ address number index hash, s.db (.addrTxRev address number index) = some hash ↔ ∃ block ∈ s.chain,
        ∃ tx ∈ block.indexedTxs Γ, block.number = number ∧ tx.index = index ∧ tx.hash = hash ∧ address ∈ tx.touched := by
  intro s
  have hindexed : Indexed Γ s.db s.chain :=
    TransitionSystem.invariant_run (M := machine Γ) (I := fun s => Indexed Γ s.db s.chain) (fun _ _ => indexed_after)
      (indexed_genesis hgenesis hpositioned hsystem) hevents
  refine ⟨hindexed.canonical, hindexed.head, hindexed.numbers, ?_, ?_, ?_⟩
  · intro hash location
    refine lookup_iff hindexed rfl location fun block tx => ?_
    rw [mem_entries]
    constructor
    · rintro (h | ⟨a, -, h | h⟩) <;> cases h
      exact ⟨rfl, rfl⟩
    · rintro ⟨rfl, rfl⟩
      exact .inl rfl
  · intro address number index hash
    refine lookup_iff hindexed rfl hash fun block tx => ?_
    rw [mem_entries]
    constructor
    · rintro (h | ⟨a, ha, h | h⟩) <;> cases h
      exact ⟨rfl, rfl, rfl, ha⟩
    · rintro ⟨rfl, rfl, rfl, ha⟩
      exact .inr ⟨address, ha, .inl rfl⟩
  · intro address number index hash
    refine lookup_iff hindexed rfl hash fun block tx => ?_
    rw [mem_entries]
    constructor
    · rintro (h | ⟨a, ha, h | h⟩) <;> cases h
      exact ⟨rfl, rfl, rfl, ha⟩
    · rintro ⟨rfl, rfl, rfl, ha⟩
      exact .inr ⟨address, ha, .inr rfl⟩

/-! ## System transactions out of place -/

namespace SharedPosition

/-- A genesis without transactions. -/
def genesisBlock : Block :=
  ⟨default, [], [], none⟩

/-- A transfer of the validator to itself. -/
def transfer : SignedTransaction :=
  sampleTransfer validatorKey 0 validatorAddress 1 21000 1 .reference

/-- A reward of the validator, at a position of the block. -/
def reward (index : Nat) : SystemTransaction :=
  .blockGasReward 1 1 index validatorAddress 5 (genesisBlock.hash chainCtx)

/-- A block with the transfer and the reward. -/
def rewarded (index : Nat) : Block :=
  ⟨{ (default : BlockHeader) with number := 1, parentHash := genesisBlock.hash chainCtx }, [transfer], [reward index], none⟩

theorem canonical_rewarded (index : Nat) (h : ((rewarded index).indexedTxs chainCtx).map IndexedTx.hash |>.Nodup) :
    CanonicalChain chainCtx [genesisBlock, rewarded index] := by
  refine .of_lists rfl (isChain_pair.mpr rfl) ?_ h
  change [genesisBlock.hash chainCtx, (rewarded 0).hash chainCtx].Nodup
  decide +kernel

/-- The reward is at the position of the transfer, and takes its place in the index of the validator. -/
theorem transfer_not_listed :
    (machine chainCtx).Admits (fun s event => s.Linked chainCtx event) (genesis chainCtx genesisBlock)
        [.commit (rewarded 0) none] ∧
      (∃ tx ∈ (rewarded 0).indexedTxs chainCtx, tx.hash = transfer.hash chainCtx ∧ validatorAddress ∈ tx.touched) ∧
      ((machine chainCtx).run (genesis chainCtx genesisBlock) [.commit (rewarded 0) none]).db
        (.addrTx validatorAddress 1 0) = some ((reward 0).hash chainCtx) ∧
      (reward 0).hash chainCtx ≠ transfer.hash chainCtx := by
  have hread : @id (Option ShellHash) (((machine chainCtx).run (genesis chainCtx genesisBlock) [.commit (rewarded 0) none]).db
      (.addrTx validatorAddress 1 0)) = some ((reward 0).hash chainCtx) := by decide +kernel
  exact ⟨⟨canonical_rewarded 0 (by decide +kernel), trivial⟩, ⟨_, List.mem_cons_self, rfl, by decide +kernel⟩, hread,
    by decide +kernel⟩

/-- A second transfer of the validator. -/
def nextTransfer : SignedTransaction :=
  sampleTransfer validatorKey 1 validatorAddress 1 21000 1 .reference

/-- A block in the place of the first one, in which the transfer comes second. -/
def moved : Block :=
  ⟨{ (default : BlockHeader) with number := 1, timestamp := 7, parentHash := genesisBlock.hash chainCtx },
    [nextTransfer, transfer], [reward 2], none⟩

/-- An empty block of height two. -/
def following (parent : Block) : Block :=
  ⟨{ (default : BlockHeader) with number := 2, parentHash := parent.hash chainCtx }, [], [], none⟩

/-- Two blocks are committed, the second is removed, and the first is replaced by two others. -/
def events : List ChainEvent :=
  [.commit (rewarded 1) none, .commit (following (rewarded 1)) none,
    .commitCanonicalRewind [following (rewarded 1)] [2] ((rewarded 1).hash chainCtx) 2 0 0,
    .commitReorg [rewarded 1] [moved, following moved] [] ((following moved).hash chainCtx)]

theorem positioned_of_map {block : Block} (hsize : block.transactions.length + block.systemTransactions.length ≤ 2 ^ 32)
    (h : block.systemTransactions.map SystemTransaction.txIndex =
      range' block.transactions.length block.systemTransactions.length) : block.Positioned := by
  refine ⟨fun j tx htx => ?_, hsize⟩
  have hindex : (range' block.transactions.length block.systemTransactions.length)[j]? = some tx.txIndex := by
    rw [← h, getElem?_map, htx, Option.map_some]
  rw [getElem?_range' (List.getElem?_eq_some_iff.mp htx).1, Nat.one_mul] at hindex
  exact (Option.some.inj hindex).symm

/-- The run is linked, and every block is positioned. -/
theorem admits_events : (machine chainCtx).Admits (fun s event => s.Linked chainCtx event ∧ Positions event)
    (genesis chainCtx genesisBlock) events := by
  have hfirst := canonical_rewarded 1 (by decide +kernel)
  have hold : CanonicalChain chainCtx [genesisBlock, rewarded 1, following (rewarded 1)] :=
    .of_lists rfl (.cons_cons rfl (isChain_pair.mpr rfl)) (by decide +kernel) (by decide +kernel)
  have hnew : CanonicalChain chainCtx [genesisBlock, moved, following moved] :=
    .of_lists rfl (.cons_cons rfl (isChain_pair.mpr rfl)) (by decide +kernel) (by decide +kernel)
  have hempty : ∀ parent, (following parent).Positioned := fun _ => positioned_of_map (Nat.zero_le _) rfl
  refine ⟨⟨hfirst, ?_⟩, ⟨hold, ?_⟩, ⟨⟨[genesisBlock, rewarded 1], rfl, hfirst, ⟨?_, ?_⟩, rfl⟩, ?_⟩,
    ⟨⟨[genesisBlock], by decide +kernel, hnew, ⟨?_, ?_⟩, rfl⟩, ?_⟩, trivial⟩
  · exact forall_mem_singleton.mpr (positioned_of_map (by decide) rfl)
  · exact forall_mem_singleton.mpr (hempty _)
  · exact fun n hn => (mem_singleton.mp hn).ge
  · exact fun n (hlow : 2 ≤ n) (hhigh : n < 3) => mem_singleton.mpr (by omega)
  · exact fun block hblock => absurd hblock not_mem_nil
  · exact fun n hn => absurd hn not_mem_nil
  · exact fun n (hlow : 3 ≤ n) (hhigh : n < 2) => by omega
  · exact forall_mem_cons.mpr ⟨positioned_of_map (by decide) rfl, forall_mem_singleton.mpr (hempty _)⟩

/-- With the rewards after the transfers, the transfer is listed where it was moved to. -/
theorem transfer_listed :
    let s := (machine chainCtx).run (genesis chainCtx genesisBlock) events
    s.chain = [genesisBlock, moved, following moved] ∧
      s.db (.txIndex (transfer.hash chainCtx)) = some (moved.hash chainCtx, 1) ∧
      s.db (.addrTx validatorAddress 1 1) = some (transfer.hash chainCtx) := by
  have hchain : ((machine chainCtx).run (genesis chainCtx genesisBlock) events).chain =
      [genesisBlock, moved, following moved] := by decide +kernel
  have hmoved : moved ∈ ((machine chainCtx).run (genesis chainCtx genesisBlock) events).chain := by
    rw [hchain]
    exact .tail _ mem_cons_self
  obtain ⟨-, -, -, hindex, haddress, -⟩ := canonical_indexes (.of_lists rfl (isChain_singleton genesisBlock)
    (nodup_singleton _) (by decide)) rfl (positioned_of_map (by decide) rfl) admits_events
  exact ⟨hchain, (hindex _ _).mpr ⟨moved, hmoved, _, .tail _ mem_cons_self, rfl, rfl⟩,
    (haddress _ _ _ _).mpr ⟨moved, hmoved, _, .tail _ mem_cons_self, rfl, rfl, rfl, by decide +kernel⟩⟩

end SharedPosition

end CanonicalStore

end ShellChain
