import ShellChain.KvStore
import ShellChain.Lib.Checks
import ShellChain.Lib.Effect

/-!
# The overlay store

A copy-on-write view over a key-value store (`storage/src/overlay_store.rs`). Writes are staged in memory until they are
committed. Selected prefixes may be frozen at a snapshot, and a replay may persist what it has staged under a private
namespace of the base store. The base store is shared: its current contents are part of the state.
-/

namespace ShellChain

/-- Staged writes: the new value of a key, or its deletion. -/
abbrev Staged := Std.TreeMap Bytes (Option Bytes)

/-- `OverlayStore`. -/
structure OverlayStore where
  base : KvMap
  writeLimit : Option Nat
  replayNamespace : Option Bytes
  stagedBytes : Nat
  frozenPrefixes : List Bytes
  changes : Staged

/-- The allowance of a staged entry. -/
def stagedSize (key : Bytes) (value : Option Bytes) : Nat :=
  key.length + value.elim 0 List.length + 64

namespace WriteBatch

/-- The batch with duplicate keys collapsed. -/
def updates (batch : WriteBatch) : Staged :=
  batch.foldl (fun updates op => updates.insert op.key op.value) ∅

end WriteBatch

namespace OverlayStore

variable (o : OverlayStore)

/-! ## Construction -/

def new (base : KvMap) : OverlayStore where
  base := base
  writeLimit := none
  replayNamespace := none
  stagedBytes := 0
  frozenPrefixes := []
  changes := ∅

/-- `with_snapshot_prefixes`: selected namespaces frozen at one snapshot. -/
def withSnapshotPrefixes (base : KvMap) (prefixes : List Bytes) (maxBytes : Nat) : Except KvError OverlayStore := do
  let entries ← base.snapshotPrefixes prefixes maxBytes
  pure
    { base := base
      writeLimit := none
      replayNamespace := none
      stagedBytes := (entries.toList.map fun entry => entry.1.length + entry.2.length + 64).sum
      frozenPrefixes := prefixes
      changes := entries.map fun _ value => some value }

def withWriteLimit (maxBytes : Nat) : Except KvError OverlayStore :=
  if o.stagedBytes > maxBytes then .error (.database "replay overlay write limit exceeded")
  else .ok { o with writeLimit := some maxBytes }

def withReplayNamespace (ns : Bytes) : Except KvError OverlayStore :=
  if ns.isEmpty || o.frozenPrefixes.isEmpty then
    .error (.invalidInput "durable replay requires a private namespace and frozen prefixes")
  else .ok { o with replayNamespace := some ns }

/-- `reopen_replay`: an existing private replay, without a copy of live metadata. -/
def reopenReplay (base : KvMap) (ns : Bytes) (prefixes : List Bytes) : Except KvError OverlayStore :=
  { new base with frozenPrefixes := prefixes }.withReplayNamespace ns

/-! ## Replay records -/

def replayKey (suffix : Bytes) : Except KvError Bytes :=
  match o.replayNamespace with
  | some ns => .ok (ns ++ suffix)
  | none => .error (.invalidInput "replay namespace unavailable")

/-- Where the staged entries of a replay are persisted. -/
def dataSuffix : Bytes :=
  ascii "data/"

/-- Where the cursor of a replay is persisted. -/
def cursorSuffix : Bytes :=
  ascii "cursor"

/-- A staged value as it is persisted. -/
def encodeReplayValue : Option Bytes → Bytes
  | some value => 1 :: value
  | none => [0]

def decodeReplayValue : Bytes → Except KvError (Option Bytes)
  | [0] => .ok none
  | 1 :: rest => .ok (some rest)
  | _ => .error (.database "invalid persisted replay value")

/-- A key starts with a frozen prefix. -/
def frozen (key : Bytes) : Bool :=
  startsWithAny o.frozenPrefixes key

/-- The value under the replay records: nothing under a frozen prefix, and what the base store has elsewhere. -/
def baseValue (key : Bytes) : Option Bytes :=
  if o.frozen key then none else o.base[key]?

def unstagedValue (key : Bytes) : Except KvError (Option Bytes) :=
  match o.replayNamespace with
  | some ns =>
    match o.base[ns ++ dataSuffix ++ key]? with
    | some value => decodeReplayValue value
    | none => .ok (o.baseValue key)
  | none => .ok (o.baseValue key)

/-! ## Reads -/

def get (key : Bytes) : Except KvError (Option Bytes) :=
  match o.changes[key]? with
  | some value => .ok value
  | none => o.unstagedValue key

/-- The entries of the base store that a scan starts from. -/
def baseEntries (p : Bytes) : KvMap :=
  let scanned := if startsWithAny o.frozenPrefixes p then [] else o.base.scanPrefix p
  Std.TreeMap.ofList (scanned.filter fun entry => !o.frozen entry.1)

/-- The replay records over the entries of the base store. -/
def replayEntries (p : Bytes) (entries : KvMap) : Except KvError KvMap :=
  match o.replayNamespace with
  | none => .ok entries
  | some ns =>
    (o.base.scanPrefix (ns ++ dataSuffix ++ p)).foldlM (fun entries record => do
      let value ← decodeReplayValue record.2
      pure (entries.set (record.1.drop (ns ++ dataSuffix).length) value)) (entries.filter fun key _ => !ns.isPrefixOf key)

def stagedEntries (p : Bytes) (entries : KvMap) : KvMap :=
  (o.changes.toList.filter fun change => p.isPrefixOf change.1).foldl
    (fun entries change => entries.set change.1 change.2) entries

def mergedScan (p : Bytes) : Except KvError (List (Bytes × Bytes)) := do
  let entries ← o.replayEntries p (o.baseEntries p)
  pure (o.stagedEntries p entries).toList

def scanPrefix (p : Bytes) : Except KvError (List (Bytes × Bytes)) :=
  o.mergedScan p

/-! ## Writes -/

/-- The count of staged bytes after one entry of a batch. -/
def countStaged (changes : Staged) (bytes : Nat) (update : Bytes × Option Bytes) : Except KvError Nat := do
  let size := (changes[update.1]?).elim 0 (stagedSize update.1)
  Checks.ensure (size ≤ bytes) .overflow
  pure (saturatingAdd (bytes - size) (stagedSize update.1 update.2))

/-- The count of staged bytes after a batch, if the write limit allows it. -/
def acceptedBytes (updates : Staged) : Except KvError Nat := do
  let bytes ← updates.toList.foldlM (countStaged o.changes) o.stagedBytes
  Checks.ensure (o.writeLimit.all (bytes ≤ ·)) (.database "replay overlay write limit exceeded")
  pure bytes

/-- The changes and the count of an accepted batch. -/
def stage (updates : Staged) (bytes : Nat) (o : OverlayStore) : OverlayStore :=
  { o with changes := o.changes.putAll updates, stagedBytes := bytes }

def writeBatch (batch : WriteBatch) : Effect OverlayStore KvError Unit := do
  let bytes ← (fun o => (o.acceptedBytes batch.updates, o) : Effect OverlayStore KvError Nat)
  Effect.write (stage batch.updates bytes)

def put (key value : Bytes) : Effect OverlayStore KvError Unit :=
  writeBatch [.put key value]

def delete (key : Bytes) : Effect OverlayStore KvError Unit :=
  writeBatch [.delete key]

/-- A batch written to the base store, which takes it as a whole or fails with its own error. -/
def writeBase (fault : Option KvError) (batch : WriteBatch) : Effect OverlayStore KvError Unit :=
  match fault with
  | some error => Effect.fail error
  | none => Effect.write fun o => { o with base := o.base.writeBatch batch }

/-- The staged writes are released. -/
def release : OverlayStore :=
  { o with changes := ∅, stagedBytes := 0 }

/-- The records of the staged writes, and the cursor. -/
def checkpointBatch (dataKey cursorKey cursor : Bytes) : WriteBatch :=
  o.changes.toList.map (fun change => .put (dataKey ++ change.1) (encodeReplayValue change.2)) ++ [.put cursorKey cursor]

/-- `persist_replay_checkpoint`: the staged writes become records of the private namespace. -/
def persistReplayCheckpoint (fault : Option KvError) (cursor : Bytes) : Effect OverlayStore KvError Unit := do
  let o ← Effect.read id
  let dataKey ← Effect.lift (o.replayKey dataSuffix)
  let cursorKey ← Effect.lift (o.replayKey cursorSuffix)
  writeBase fault (o.checkpointBatch dataKey cursorKey cursor)
  Effect.write release

end OverlayStore

end ShellChain
