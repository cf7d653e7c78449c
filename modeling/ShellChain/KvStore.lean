import ShellChain.Block
import ShellChain.Lib.LayeredMap

/-!
# Key-value stores

The byte-level store under every other store of the node (`storage/src/kv_store.rs`, `memory_db.rs`): an ordered map of byte
strings, batches of writes, scans by prefix and bounded snapshots. Reads do not fail; a batch is written as a whole or
refused with the error of the backend.
-/

namespace ShellChain

/-- `StorageError`. -/
inductive KvError
  | notFound
  | invalidInput (message : String)
  | database (message : String)
  | serialization (message : String)
  | trie (message : String)
  | codec (message : String)
  | state (message : String)
  /-- A subtraction below zero. -/
  | overflow
  deriving DecidableEq, Repr

/-- The entries of a store, in key order. -/
abbrev KvMap := Std.TreeMap Bytes Bytes

/-- An operation of a write batch. -/
inductive WriteBatchOp
  | put (key value : Bytes)
  | delete (key : Bytes)
  deriving DecidableEq, Repr

namespace WriteBatchOp

def key : WriteBatchOp → Bytes
  | put key _ => key
  | delete key => key

/-- The value the key has afterwards, if any. -/
def value : WriteBatchOp → Option Bytes
  | put _ value => some value
  | delete _ => none

end WriteBatchOp

abbrev WriteBatch := List WriteBatchOp

/-- `saturating_add` of the snapshot's entry allowance: `SNAPSHOT_ENTRY_OVERHEAD_BYTES`. -/
def snapshotEntryOverheadBytes : Nat :=
  128

/-- A key starts with one of the prefixes. -/
def startsWithAny (prefixes : List Bytes) (key : Bytes) : Bool :=
  prefixes.any fun p => p.isPrefixOf key

/-- `insert_snapshot_entry`: an entry with its allowance in the count of bytes. -/
def insertSnapshotEntry (maxBytes : Nat) (acc : KvMap × Nat) (entry : Bytes × Bytes) : Except KvError (KvMap × Nat) :=
  if acc.1.contains entry.1 then .ok acc
  else
    let bytes := saturatingAdd (saturatingAdd (saturatingAdd acc.2 entry.1.length) entry.2.length) snapshotEntryOverheadBytes
    if bytes > maxBytes then .error (.database "prefix snapshot exceeds memory limit")
    else .ok (acc.1.insert entry.1 entry.2, bytes)

namespace KvMap

/-- `write_batch`: the operations in order. -/
def writeBatch (data : KvMap) (batch : WriteBatch) : KvMap :=
  batch.foldl (fun data op => data.set op.key op.value) data

/-- `scan_prefix`: the entries whose key starts with the prefix, in key order. -/
def scanPrefix (data : KvMap) (p : Bytes) : List (Bytes × Bytes) :=
  data.toList.filter fun entry => p.isPrefixOf entry.1

def snapshotPrefixes (data : KvMap) (prefixes : List Bytes) (maxBytes : Nat) : Except KvError KvMap := do
  let entries ← (data.toList.filter fun entry => startsWithAny prefixes entry.1).foldlM (insertSnapshotEntry maxBytes) (∅, 0)
  pure entries.1

/-! ## Reads after writes -/

/-- A key that no operation names is as it was. -/
theorem find_writeBatch_of_not_mem {data : KvMap} {batch : WriteBatch} {key : Bytes} (h : ∀ op ∈ batch, op.key ≠ key) :
    (data.writeBatch batch)[key]? = data[key]? := by
  induction batch generalizing data with
  | nil => rfl
  | cons op batch ih =>
    rw [writeBatch, List.foldl_cons, ← writeBatch, ih fun o ho => h o (.tail _ ho), Std.TreeMap.find_set,
      if_neg (h op List.mem_cons_self).symm]

theorem mem_scanPrefix {data : KvMap} {p : Bytes} {entry : Bytes × Bytes} :
    entry ∈ data.scanPrefix p ↔ data[entry.1]? = some entry.2 ∧ p <+: entry.1 := by
  rw [scanPrefix, List.mem_filter, Std.TreeMap.mem_toList_iff_getElem?_eq_some, List.isPrefixOf_iff_prefix]

end KvMap

end ShellChain
