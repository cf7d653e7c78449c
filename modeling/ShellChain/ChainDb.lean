import ShellChain.ChainStore
import ShellChain.KvStore
import ShellChain.Lib.KeyedStore
import ShellChain.Mempool

/-!
# The records of the chain store

The chain store keeps blocks, receipts, canonical mappings, lookup indexes and totals as records of one key-value store, each
kind under its own prefix (`storage/src/chain_store.rs`). Here a record is named by its typed key and has the value that its
encoding stands for; bodies and witness bundles are decoded when they are read. Every transition of the canonical chain is
one batch.
-/

namespace ShellChain

open Checks KeyedStore

/-! ## Keys -/

/-- The keys of the chain store. -/
inductive ChainKey
  /-- `h/<hash>`. -/
  | header (hash : ShellHash)
  /-- `b/<hash>`. -/
  | body (hash : ShellHash)
  /-- `w/<hash>`. -/
  | witness (hash : ShellHash)
  /-- `n/<number>`. -/
  | number (number : Nat)
  /-- `r/<hash>`. -/
  | receipts (hash : ShellHash)
  /-- `sr/<hash>`. -/
  | systemTxs (hash : ShellHash)
  /-- `t/<hash>`. -/
  | txIndex (hash : ShellHash)
  /-- `a/<address><number><index>`. -/
  | addrTx (address : Address) (number index : Nat)
  /-- `ar/<address><inverted number><index>`. -/
  | addrTxRev (address : Address) (number index : Nat)
  /-- `ftip/<hash>`. -/
  | priorityFees (hash : ShellHash)
  | headBlock
  | finalizedNumber
  | totalTxCount
  | totalGasUsed
  | totalsHead
  /-- `bd1/<hash>`. -/
  | bodyDigest (hash : ShellHash)
  /-- `wd/<hash>`. -/
  | witnessDigest (hash : ShellHash)
  | bodyPrunedBelow
  | witnessPrunedBelow
  deriving DecidableEq

/-- What is stored under a key. -/
def ChainKey.Value : ChainKey → Type
  | header _ => BlockHeader
  | body _ => StrippedBlock
  | witness _ => WitnessBundle
  | number _ => ShellHash
  | receipts _ => List TransactionReceipt
  | systemTxs _ => List SystemTransaction
  | txIndex _ => ShellHash × Nat
  | addrTx _ _ _ => ShellHash
  | addrTxRev _ _ _ => ShellHash
  | priorityFees _ => List Nat
  | headBlock => ShellHash
  | finalizedNumber => Nat
  | totalTxCount => Nat
  | totalGasUsed => Nat
  | totalsHead => Nat
  | bodyDigest _ => ShellHash
  | witnessDigest _ => ShellHash
  | bodyPrunedBelow => Nat
  | witnessPrunedBelow => Nat

/-- The records of a chain store. -/
abbrev ChainDb := (key : ChainKey) → Option key.Value

abbrev ChainBatch := List (Σ key : ChainKey, Option key.Value)

/-- A record with its key. -/
abbrev ChainEntry := Σ key : ChainKey, key.Value

def putOp (key : ChainKey) (value : key.Value) : Σ key : ChainKey, Option key.Value :=
  ⟨key, some value⟩

/-! ## Lookup indexes -/

/-- A transaction as the lookup indexes see it: its position in the block and the addresses it is listed under. -/
structure IndexedTx where
  hash : ShellHash
  index : Nat
  touched : List Address

/-- The addresses a transaction is listed under: the sender, and the recipient if it is another. -/
def SignedTransaction.touched (stx : SignedTransaction) : List Address :=
  match stx.tx.recipient with
  | some recipient => if recipient ≠ stx.sender then [stx.sender, recipient] else [stx.sender]
  | none => [stx.sender]

/-- The user transactions of a block, at their positions as `u32`. -/
def Block.userTxs (Γ : Ctx) (block : Block) : List IndexedTx :=
  block.transactions.zipIdx.map fun tx => ⟨tx.1.hash Γ, tx.2 % 2 ^ 32, tx.1.touched⟩

/-- A system transaction, at the position it carries itself. -/
def SystemTransaction.indexed (Γ : Ctx) (tx : SystemTransaction) : IndexedTx :=
  ⟨tx.hash Γ, tx.txIndex, [tx.recipient]⟩

/-- The two records of `append_addr_tx_index`. -/
def addrEntries (number : Nat) (tx : IndexedTx) (address : Address) : List ChainEntry :=
  [⟨.addrTx address number tx.index, tx.hash⟩, ⟨.addrTxRev address number tx.index, tx.hash⟩]

/-- The lookup records of a transaction. -/
def IndexedTx.entries (blockHash : ShellHash) (number : Nat) (tx : IndexedTx) : List ChainEntry :=
  ⟨.txIndex tx.hash, (blockHash, tx.index)⟩ :: tx.touched.flatMap (addrEntries number tx)

/-- The lookup records of a list of transactions. -/
def indexEntries (blockHash : ShellHash) (number : Nat) (txs : List IndexedTx) : List ChainEntry :=
  txs.flatMap (IndexedTx.entries blockHash number)

def appendTransactionIndexes (Γ : Ctx) (block : Block) : ChainBatch :=
  puts (indexEntries (block.hash Γ) block.number (block.userTxs Γ))

def appendSystemTransactions (Γ : Ctx) (blockHash : ShellHash) (number : Nat) (systemTxs : List SystemTransaction) :
    ChainBatch :=
  putOp (.systemTxs blockHash) systemTxs :: puts (indexEntries blockHash number (systemTxs.map (·.indexed Γ)))

/-- `append_delete_transaction_indexes`: the user transactions of the block and the system transactions that were stored. -/
def appendDeleteTransactionIndexes (Γ : Ctx) (block : Block) (systemTxs : List SystemTransaction) : ChainBatch :=
  deletes ((indexEntries (block.hash Γ) block.number (block.userTxs Γ ++ systemTxs.map (·.indexed Γ))).map Sigma.fst)

/-! ## Canonical blocks -/

def StrippedBlock.priorityFees (body : StrippedBlock) : List Nat :=
  body.transactions.map fun tx => minerTip tx.tx.maxFeePerGas tx.tx.maxPriorityFeePerGas body.header.baseFeePerGas

/-- The part of `append_block_parts` without the lookup indexes; a block without transactions has no bundle. -/
def blockParts (Γ : Ctx) (block : Block) : ChainBatch :=
  [putOp (.header (block.hash Γ)) block.header,
    putOp (.priorityFees (block.hash Γ)) (StrippedBlock.split block).1.priorityFees,
    putOp (.body (block.hash Γ)) (StrippedBlock.split block).1] ++
    if (StrippedBlock.split block).2.witnesses = [] then []
    else [putOp (.witness (block.hash Γ)) (StrippedBlock.split block).2]

def appendBlockParts (Γ : Ctx) (block : Block) (indexTransactions : Bool) : ChainBatch :=
  blockParts Γ block ++ if indexTransactions then appendTransactionIndexes Γ block else []

def canonicalBlockBatch (Γ : Ctx) (block : Block) (receipts : Option (List TransactionReceipt)) : ChainBatch :=
  appendBlockParts Γ block true ++ (receipts.elim [] fun receipts => [putOp (.receipts (block.hash Γ)) receipts]) ++
    appendSystemTransactions Γ (block.hash Γ) block.number block.systemTransactions ++
    [putOp (.number block.number) (block.hash Γ), putOp .headBlock (block.hash Γ)]

/-- The records of `commit_genesis_block`; the chain configuration is kept apart. -/
def genesisBlockBatch (Γ : Ctx) (block : Block) : ChainBatch :=
  appendBlockParts Γ block true ++ [putOp (.number block.number) (block.hash Γ), putOp .headBlock (block.hash Γ)]

/-- The number of transactions a block counts for: those of users and of the system. -/
def Block.visibleTxs (block : Block) : Nat :=
  saturatingAdd block.transactions.length block.systemTransactions.length

/-- A sum in `u64` that must not overflow. -/
def checkedSum (counts : List Nat) : Except KvError Nat :=
  counts.foldlM (fun total count =>
    match checkedAdd total count with
    | some total => .ok total
    | none => .error (.codec "reorg transaction count overflow")) 0

def saturatingSum (amounts : List Nat) : Nat :=
  amounts.foldl (fun total amount => min (total + amount) u256Max) 0

/-- A total without what is removed and with what is added, in a type with the given largest value. -/
def movedTotal (largest current removed added : Nat) (message : String) : Except KvError Nat :=
  if removed ≤ current ∧ current - removed + added ≤ largest then .ok (current - removed + added)
  else .error (.codec message)

namespace ChainDb

variable (Γ : Ctx) (db : ChainDb)

/-- `write_batch` of the underlying store. -/
def writeBatch (batch : ChainBatch) : ChainDb :=
  write db batch

/-! ## Reads -/

def getBlockHashByNumber (number : Nat) : Option ShellHash :=
  db (.number number)

def getHeaderByHash (hash : ShellHash) : Option BlockHeader :=
  db (.header hash)

def getSystemTransactions (hash : ShellHash) : List SystemTransaction :=
  (db (.systemTxs hash)).getD []

def getTotalTxCountOpt : Option Nat :=
  db .totalTxCount

def getTotalGasUsedOpt : Option Nat :=
  db .totalGasUsed

def getChainTotalsHead : Option Nat :=
  db .totalsHead

/-! ## Transitions of the canonical chain -/

def commitGenesisBlock (block : Block) : ChainDb :=
  db.writeBatch (genesisBlockBatch Γ block)

/-- `commit_canonical_block`, and what `commit_canonical_overlay` does to these records. -/
def commitCanonicalBlock (block : Block) (receipts : Option (List TransactionReceipt)) : ChainDb :=
  db.writeBatch (canonicalBlockBatch Γ block receipts)

/-- The three records of the totals. -/
def totalsBatch (txs gas head : Nat) : ChainBatch :=
  [putOp .totalTxCount txs, putOp .totalGasUsed gas, putOp .totalsHead head]

/-- The height of a new head that is not among the applied blocks. -/
def headNumber (newHead : ShellHash) (error : KvError) : Except KvError Nat :=
  match db.getHeaderByHash newHead with
  | some header => .ok header.number
  | none => .error error

def reorgHeadNumber (newChain : List Block) (newHead : ShellHash) : Except KvError Nat :=
  match newChain.getLast? with
  | some block => .ok block.number
  | none => db.headNumber newHead (.codec "new canonical head header is unavailable while updating totals")

/-- The totals after blocks are replaced. -/
def movedTotals (oldChain newChain : List Block) (newHead : ShellHash) (currentTxs currentGas : Nat) :
    Except KvError ChainBatch := do
  let removedTxs ← checkedSum (oldChain.map Block.visibleTxs)
  let addedTxs ← checkedSum (newChain.map Block.visibleTxs)
  let removedGas := saturatingSum (oldChain.map fun block => block.header.gasUsed)
  let addedGas := saturatingSum (newChain.map fun block => block.header.gasUsed)
  let nextTxs ← movedTotal u64Max currentTxs removedTxs addedTxs "reorg transaction totals underflow"
  let nextGas ← movedTotal u256Max currentGas removedGas addedGas "reorg gas totals underflow"
  let newHeadNumber ← db.reorgHeadNumber newChain newHead
  pure (totalsBatch nextTxs nextGas newHeadNumber)

/-- `append_reorg_totals`: only totals that stand at the old tip are moved. -/
def appendReorgTotals (oldChain newChain : List Block) (newHead : ShellHash) : Except KvError ChainBatch :=
  match oldChain.getLast? with
  | none => .ok []
  | some oldTip =>
    if db.getChainTotalsHead ≠ some oldTip.number then .ok []
    else
      match db.getTotalTxCountOpt, db.getTotalGasUsedOpt with
      | some currentTxs, some currentGas => db.movedTotals oldChain newChain newHead currentTxs currentGas
      | _, _ => .ok []

/-- The deletion of the indexes of one block that is rolled back; the block must be canonical. -/
def rollbackBlock (block : Block) : Except KvError ChainBatch :=
  if db.getBlockHashByNumber block.number ≠ some (block.hash Γ) then
    .error (.invalidInput "reorg rollback block is not canonical")
  else .ok (appendDeleteTransactionIndexes Γ block (db.getSystemTransactions (block.hash Γ)))

/-- The indexes and the mapping of one block that becomes canonical. -/
def applyBlock (block : Block) : ChainBatch :=
  appendTransactionIndexes Γ block ++
    appendSystemTransactions Γ (block.hash Γ) block.number block.systemTransactions ++
    [putOp (.number block.number) (block.hash Γ)]

def reorgBatch (oldChain newChain : List Block) (staleCanonicalNumbers : List Nat)
    (newHead : ShellHash) : Except KvError ChainBatch := do
  let removed ← oldChain.mapM (db.rollbackBlock Γ)
  let totals ← db.appendReorgTotals oldChain newChain newHead
  pure (removed.flatten ++ newChain.flatMap (applyBlock Γ) ++ deletes (staleCanonicalNumbers.map ChainKey.number) ++
    [putOp .headBlock newHead] ++ totals)

def commitReorg (oldChain newChain : List Block) (staleCanonicalNumbers : List Nat)
    (newHead : ShellHash) : Except KvError ChainDb := do
  let batch ← db.reorgBatch Γ oldChain newChain staleCanonicalNumbers newHead
  pure (db.writeBatch batch)

/-- What `commit_reorg_overlay` does to these records: the receipts of the applied blocks and the finalized height as well. -/
def commitReorgOverlay (oldChain newChain : List Block) (staleCanonicalNumbers : List Nat)
    (newChainReceipts : List (List TransactionReceipt)) (newHead : ShellHash) (finalizedNumber : Option Nat) :
    Except KvError ChainDb := do
  ensure (newChain.length = newChainReceipts.length) (.database "reorg block and receipt counts do not match")
  let batch ← db.reorgBatch Γ oldChain newChain staleCanonicalNumbers newHead
  let receipts := (newChain.zip newChainReceipts).map fun p => putOp (.receipts (p.1.hash Γ)) p.2
  let finalized := finalizedNumber.elim [] fun number => [putOp .finalizedNumber number]
  pure (db.writeBatch (batch ++ receipts ++ finalized))

def commitCanonicalRewind (removedBlocks : List Block) (staleCanonicalNumbers : List Nat)
    (newHead : ShellHash) (totalTxCount totalGasUsed finalizedNumber : Nat) : Except KvError ChainDb := do
  let newHeadNumber ← db.headNumber newHead (.invalidInput "canonical rewind head header is unavailable")
  let removed := removedBlocks.flatMap fun block =>
    appendDeleteTransactionIndexes Γ block (db.getSystemTransactions (block.hash Γ))
  pure (db.writeBatch (removed ++ deletes (staleCanonicalNumbers.map ChainKey.number) ++ [putOp .headBlock newHead] ++
    totalsBatch totalTxCount totalGasUsed newHeadNumber ++ [putOp .finalizedNumber finalizedNumber]))

end ChainDb

end ShellChain
