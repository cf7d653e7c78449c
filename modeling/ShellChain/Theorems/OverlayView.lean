import ShellChain.OverlayStore
import ShellChain.Lib.TransitionSystem

/-!
# The overlay as a map

A scan of the overlay shows one map: the staged changes over the replay records over what the base store has outside the
frozen prefixes and the replay namespace. A read of one key does not leave the replay namespace out. So reads and scans are
views of one map exactly when no key of the namespace can be read from the base store.
-/

namespace ShellChain

open Checks Std.TreeMap List

namespace OverlayStore

/-! ## What a scan shows -/

/-- The replay record of a key. -/
def record (o : OverlayStore) (key : Bytes) : Option Bytes :=
  o.replayNamespace.bind fun ns => o.base[ns ++ dataSuffix ++ key]?

/-- The key lies in the replay namespace. -/
def reserved (o : OverlayStore) (key : Bytes) : Bool :=
  o.replayNamespace.any fun ns => ns.isPrefixOf key

def recordValue : Bytes → Option Bytes
  | 1 :: rest => some rest
  | _ => none

/-- Every replay record decodes. -/
def Readable (o : OverlayStore) : Prop :=
  ∀ key value, o.record key = some value → decodeReplayValue value = .ok (recordValue value)

/-- What a scan shows at a key. -/
def visible (o : OverlayStore) (key : Bytes) : Option Bytes :=
  o.changes[key]?.getD ((o.record key).elim (if o.reserved key then none else o.baseValue key) recordValue)

theorem decodeReplayValue_eq {value : Bytes} {x : Option Bytes} (h : decodeReplayValue value = .ok x) :
    decodeReplayValue value = .ok (recordValue value) := by
  revert h
  unfold decodeReplayValue
  split
  · exact fun _ => rfl
  · exact fun _ => rfl
  · simp

theorem decode_encode (value : Option Bytes) : decodeReplayValue (encodeReplayValue value) = .ok value := by
  cases value <;> rfl

theorem recordValue_encode (value : Option Bytes) : recordValue (encodeReplayValue value) = value := by
  cases value <;> rfl

variable {o : OverlayStore} {map : KvMap} {batch : WriteBatch}

theorem get_of_readable (h : o.Readable) (key : Bytes) :
    o.get key = .ok (o.changes[key]?.getD ((o.record key).elim (o.baseValue key) recordValue)) := by
  unfold get
  cases o.changes[key]? with
  | some value => rfl
  | none =>
    have hdecode := h key
    unfold record at hdecode
    unfold unstagedValue record
    cases hns : o.replayNamespace with
    | none => rfl
    | some ns =>
      rw [hns] at hdecode
      simp only [Option.bind_some] at hdecode ⊢
      cases hvalue : o.base[ns ++ dataSuffix ++ key]? with
      | none => rfl
      | some value => exact hdecode value hvalue

theorem frozen_mono {p key : Bytes} (hp : p <+: key) (h : startsWithAny o.frozenPrefixes p) : o.frozen key := by
  obtain ⟨f, hf, hfp⟩ := any_eq_true.mp h
  refine any_eq_true.mpr ⟨f, hf, ?_⟩
  rw [ isPrefixOf_iff_prefix] at hfp ⊢
  exact hfp.trans hp

theorem find_baseEntries (o : OverlayStore) (p key : Bytes) :
    (o.baseEntries p)[key]? = if p.isPrefixOf key then o.baseValue key else none := by
  unfold baseEntries baseValue
  by_cases hfrozen : startsWithAny o.frozenPrefixes p
  · rw [if_pos hfrozen]
    split
    · rename_i hp
      rw [if_pos (frozen_mono ( isPrefixOf_iff_prefix.mp hp) hfrozen)]
      rfl
    · rfl
  · rw [if_neg hfrozen]
    simp only [KvMap.scanPrefix, filter_filter, find_ofList_filter]
    cases o.base[key]? with
    | none => simp
    | some value => cases hp : p.isPrefixOf key <;> cases hf : o.frozen key <;> simp

section Records

variable {ns : Bytes}

theorem record_eq (hns : o.replayNamespace = some ns) (key : Bytes) : o.record key = o.base[ns ++ dataSuffix ++ key]? := by
  unfold record
  rw [hns, Option.bind_some]

theorem reserved_eq (hns : o.replayNamespace = some ns) (key : Bytes) : o.reserved key = ns.isPrefixOf key := by
  unfold reserved
  rw [hns, Option.any_some]

theorem drop_dataKey (ns key : Bytes) : (ns ++ dataSuffix ++ key).drop (ns ++ dataSuffix).length = key :=
  drop_left

theorem mem_scan_records (hns : o.replayNamespace = some ns) {p : Bytes} {e : Bytes × Bytes} :
    e ∈ o.base.scanPrefix (ns ++ dataSuffix ++ p) ↔
      ∃ key, p <+: key ∧ e.1 = ns ++ dataSuffix ++ key ∧ o.record key = some e.2 := by
  rw [KvMap.mem_scanPrefix]
  constructor
  · rintro ⟨hfound, rest, hrest⟩
    refine ⟨p ++ rest, prefix_append p rest, ?_, ?_⟩
    · rw [← hrest, append_assoc]
    · rw [record_eq hns, ← append_assoc, hrest, hfound]
  · rintro ⟨key, hp, hkey, hfound⟩
    rw [hkey, ← record_eq hns]
    exact ⟨hfound, (prefix_append_right_inj _).mpr hp⟩

theorem distinct_scan_records (hns : o.replayNamespace = some ns) (p : Bytes) :
    (o.base.scanPrefix (ns ++ dataSuffix ++ p)).Pairwise fun e e' =>
      e.1.drop (ns ++ dataSuffix).length ≠ e'.1.drop (ns ++ dataSuffix).length := by
  refine ((distinct_toList o.base).filter _).imp_of_mem fun he he' hne heq => hne ?_
  obtain ⟨key, -, hkey, -⟩ := (mem_scan_records hns).mp he
  obtain ⟨key', -, hkey', -⟩ := (mem_scan_records hns).mp he'
  rw [hkey, hkey', drop_dataKey, drop_dataKey] at heq
  rw [hkey, hkey', heq]

/-- A record that decodes, put over the entries. -/
def putRecord (ns : Bytes) (entries : KvMap) (e : Bytes × Bytes) : KvMap :=
  entries.set (e.1.drop (ns ++ dataSuffix).length) (recordValue e.2)

theorem find_putRecords (hns : o.replayNamespace = some ns) (p : Bytes) (entries : KvMap) (key : Bytes) :
    ((o.base.scanPrefix (ns ++ dataSuffix ++ p)).foldl (putRecord ns) entries)[key]? =
      if p.isPrefixOf key then (o.record key).elim entries[key]? recordValue else entries[key]? := by
  obtain ⟨hmem, hnot⟩ := AList.view_foldl_list (fun e : Bytes × Bytes => e.1.drop (ns ++ dataSuffix).length) (putRecord ns)
    (fun (entries : KvMap) key => entries[key]?) (fun e _ => recordValue e.2)
    (fun entries e => by rw [putRecord, find_set, if_pos rfl])
    (fun entries e key hne => by rw [putRecord, find_set, if_neg hne])
    (o.base.scanPrefix (ns ++ dataSuffix ++ p)) (distinct_scan_records hns p) entries key
  by_cases hp : p <+: key
  · rw [if_pos ( isPrefixOf_iff_prefix.mpr hp)]
    cases hrecord : o.record key with
    | some value =>
      exact hmem (ns ++ dataSuffix ++ key, value) ((mem_scan_records hns).mpr ⟨key, hp, rfl, hrecord⟩) (drop_dataKey ns key)
    | none =>
      refine hnot fun e he heq => ?_
      obtain ⟨key', -, hkey, hfound⟩ := (mem_scan_records hns).mp he
      rw [hkey, drop_dataKey] at heq
      rw [heq, hrecord] at hfound
      cases hfound
  · rw [if_neg fun hpre => hp ( isPrefixOf_iff_prefix.mp hpre)]
    refine hnot fun e he heq => ?_
    obtain ⟨key', hp', hkey, -⟩ := (mem_scan_records hns).mp he
    rw [hkey, drop_dataKey] at heq
    exact hp (heq ▸ hp')

end Records

/-- The records that a scan reads, over the entries of the base store. -/
theorem replayEntries_of_readable (h : o.Readable) (p : Bytes) :
    ∃ merged, o.replayEntries p (o.baseEntries p) = .ok merged ∧ ∀ key, merged[key]? =
      if p.isPrefixOf key then (o.record key).elim (if o.reserved key then none else o.baseValue key) recordValue
      else none := by
  cases hns : o.replayNamespace with
  | none =>
    refine ⟨o.baseEntries p, ?_, fun key => ?_⟩
    · unfold replayEntries
      rw [hns]
    · unfold record reserved
      rw [hns, find_baseEntries]
      rfl
  | some ns =>
    have hentries : o.replayEntries p (o.baseEntries p) = .ok ((o.base.scanPrefix (ns ++ dataSuffix ++ p)).foldl
        (putRecord ns) ((o.baseEntries p).filter fun key _ => !ns.isPrefixOf key)) := by
      unfold replayEntries
      rw [hns]
      refine foldlM_ok (fun entries e he => ?_) _
      obtain ⟨key, -, -, hfound⟩ := (mem_scan_records hns).mp he
      rw [h key e.2 hfound]
      rfl
    refine ⟨_, hentries, fun key => ?_⟩
    rw [find_putRecords hns, find_filter_key, find_baseEntries, reserved_eq hns]
    cases p.isPrefixOf key <;> cases ns.isPrefixOf key <;> rfl

theorem find_stagedEntries (o : OverlayStore) (p : Bytes) (entries : KvMap) (key : Bytes) :
    (o.stagedEntries p entries)[key]? = if p.isPrefixOf key then o.changes[key]?.getD entries[key]? else entries[key]? := by
  obtain ⟨hmem, hnot⟩ := AList.view_foldl_list Prod.fst (fun (entries : KvMap) change => entries.set change.1 change.2)
    (fun (entries : KvMap) key => entries[key]?) (fun (change : Bytes × Option Bytes) _ => change.2)
    (fun entries change => by rw [find_set, if_pos rfl])
    (fun entries change key hne => by rw [find_set, if_neg hne])
    (o.changes.toList.filter fun change => p.isPrefixOf change.1)
    ((distinct_toList o.changes).filter _) entries key
  unfold stagedEntries
  by_cases hstaged : p.isPrefixOf key ∧ o.changes[key]?.isSome
  · obtain ⟨hp, value, hvalue⟩ := hstaged.imp_right Option.isSome_iff_exists.mp
    rw [if_pos hp, hvalue]
    exact hmem (key, value)
      (mem_filter.mpr ⟨mem_toList_iff_getElem?_eq_some.mpr hvalue, hp⟩) rfl
  · have hunchanged := hnot fun change hchange heq => by
      obtain ⟨hfound, hp⟩ := mem_filter.mp hchange
      rw [mem_toList_iff_getElem?_eq_some] at hfound
      subst heq
      exact hstaged ⟨hp, by rw [hfound]; rfl⟩
    rw [hunchanged]
    split
    · rename_i hp
      cases hvalue : o.changes[key]? with
      | none => rfl
      | some value => exact (hstaged ⟨hp, by rw [hvalue]; rfl⟩).elim
    · rfl

/-- A scan lists the keys that start with the prefix, with what is visible at them. -/
theorem scanPrefix_of_readable (h : o.Readable) (p : Bytes) : ∃ shown : KvMap, o.scanPrefix p = .ok shown.toList ∧
      ∀ key, shown[key]? = if p.isPrefixOf key then o.visible key else none := by
  obtain ⟨merged, hmerged, hfind⟩ := replayEntries_of_readable h p
  refine ⟨o.stagedEntries p merged, ?_, fun key => ?_⟩
  · unfold scanPrefix mergedScan
    rw [hmerged]
    rfl
  · rw [find_stagedEntries, hfind]
    unfold visible
    cases p.isPrefixOf key <;> rfl

/-- A record that does not decode fails the scan of everything. -/
theorem readable_of_scanPrefix {entries : List (Bytes × Bytes)} (h : o.scanPrefix [] = .ok entries) : o.Readable := by
  intro key value hrecord
  unfold scanPrefix mergedScan at h
  obtain ⟨merged, hmerged, -⟩ := bind_ok_iff.mp h
  cases hns : o.replayNamespace with
  | none =>
    unfold record at hrecord
    rw [hns] at hrecord
    cases hrecord
  | some ns =>
    have hscan : (ns ++ dataSuffix ++ key, value) ∈ o.base.scanPrefix (ns ++ dataSuffix ++ []) :=
      (mem_scan_records hns).mpr ⟨key, nil_prefix, rfl, hrecord⟩
    unfold replayEntries at hmerged
    rw [hns] at hmerged
    by_contra hbad
    refine foldlM_error hscan (fun entries entries' hstep => ?_) _ _ hmerged
    obtain ⟨x, hx, -⟩ := bind_ok_iff.mp hstep
    exact hbad (decodeReplayValue_eq hx)

/-! ## One map -/

/-- Reads and scans are views of one map. -/
def Views (o : OverlayStore) (map : KvMap) : Prop :=
  (∀ key, o.get key = .ok map[key]?) ∧ ∀ p, o.scanPrefix p = .ok (map.scanPrefix p)

/-- Every replay record decodes, and each key of the replay namespace in the base store is frozen, staged or recorded. -/
def Consistent (o : OverlayStore) : Prop :=
  o.Readable ∧ ∀ key, o.reserved key → (o.baseValue key).isSome → o.changes[key]?.isSome ∨ (o.record key).isSome

theorem get_eq_visible (h : o.Consistent) (key : Bytes) : o.get key = .ok (o.visible key) := by
  rw [get_of_readable h.1]
  unfold visible
  cases hchange : o.changes[key]? with
  | some value => rfl
  | none =>
    cases hrecord : o.record key with
    | some value => rfl
    | none =>
      cases hreserved : o.reserved key with
      | false => rfl
      | true =>
        cases hbase : o.baseValue key with
        | none => rfl
        | some value =>
          have hcovered := h.2 key hreserved (by rw [hbase]; rfl)
          rw [hchange, hrecord] at hcovered
          simp at hcovered

theorem views_of_consistent (h : o.Consistent) (hmap : ∀ key, map[key]? = o.visible key) : o.Views map := by
  constructor
  · intro key
    rw [get_eq_visible h, hmap]
  · intro p
    obtain ⟨shown, hscan, hshown⟩ := scanPrefix_of_readable h.1 p
    rw [hscan, KvMap.scanPrefix]
    refine congrArg _ (toList_filter_eq fun key => ?_)
    rw [hshown, hmap]

theorem Views.readable (h : o.Views map) : o.Readable :=
  readable_of_scanPrefix (h.2 [])

theorem Views.find (h : o.Views map) (key : Bytes) : map[key]? = o.visible key := by
  obtain ⟨shown, hscan, hshown⟩ := scanPrefix_of_readable h.readable []
  have hlists : shown.toList = map.scanPrefix [] := by
    rw [h.2 []] at hscan
    exact (Except.ok.inj hscan).symm
  have hkeep : map.scanPrefix [] = map.toList := filter_eq_self.mpr fun e he => rfl
  have hall : shown[key]? = o.visible key := hshown key
  rw [← hall]
  ext value
  rw [← mem_toList_iff_getElem?_eq_some, ← mem_toList_iff_getElem?_eq_some, hlists, hkeep]

theorem Views.consistent (h : o.Views map) : o.Consistent := by
  refine ⟨h.readable, fun key hreserved hbase => ?_⟩
  by_contra huncovered
  rw [not_or, Option.not_isSome_iff_eq_none, Option.not_isSome_iff_eq_none] at huncovered
  have hget := get_of_readable h.readable key
  rw [h.1 key, h.find key, visible, huncovered.1, huncovered.2, Except.ok.injEq] at hget
  simp only [Option.getD_none, Option.elim_none, if_pos hreserved] at hget
  rw [← hget] at hbase
  cases hbase

theorem exists_views_iff : (∃ map, o.Views map) ↔ o.Consistent := by
  constructor
  · rintro ⟨map, h⟩
    exact h.consistent
  · intro h
    obtain ⟨shown, -, hshown⟩ := scanPrefix_of_readable h.1 []
    exact ⟨shown, views_of_consistent h hshown⟩

/-! ## Staged bytes -/

/-- The count of staged bytes is the sum over the staged entries. -/
def Counted (o : OverlayStore) : Prop :=
  o.stagedBytes = o.changes.total stagedSize

/-- What is staged and the entries of the batch fit into memory together. -/
def Fits (o : OverlayStore) (batch : WriteBatch) : Prop :=
  o.changes.total stagedSize + batch.updates.total stagedSize ≤ u64Max

/-- The count follows the entries of a batch one by one. -/
theorem foldlM_countStaged {changes : Staged} {l : List (Bytes × Option Bytes)} (hdistinct : l.Pairwise fun x y => x.1 ≠ y.1)
    {current : Staged} (hcurrent : ∀ e ∈ l, current[e.1]? = changes[e.1]?)
    (hfits : current.total stagedSize + (l.map fun e => stagedSize e.1 e.2).sum ≤ u64Max) :
    l.foldlM (countStaged changes) (current.total stagedSize) =
      .ok ((l.foldl (fun current e => current.insert e.1 e.2) current).total stagedSize) := by
  induction l generalizing current with
  | nil => rfl
  | cons e l ih =>
    obtain ⟨hhead, htail⟩ := pairwise_cons.mp hdistinct
    rw [map_cons, sum_cons] at hfits
    have hsplit := total_eq_erase stagedSize current e.1
    have hinsert := total_insert stagedSize current e.1 e.2
    have hstep : countStaged changes (current.total stagedSize) e = .ok ((current.insert e.1 e.2).total stagedSize) := by
      unfold countStaged
      rw [← hcurrent e mem_cons_self, hinsert, hsplit]
      simp only [Checks.ensure, Nat.le_add_right, decide_true, if_true, Nat.add_sub_cancel_left]
      refine congrArg Except.ok ?_
      rw [saturatingAdd_eq, Nat.add_comm]
      omega
    rw [foldlM_cons, hstep, foldl_cons]
    refine ih htail (fun x hx => ?_) ?_
    · rw [find_insert, if_neg (hhead x hx).symm, hcurrent x (.tail _ hx)]
    · rw [hinsert]
      omega

theorem counted_bytes (h : o.Counted) (hfits : o.Fits batch) :
    batch.updates.toList.foldlM (countStaged o.changes) o.stagedBytes =
      .ok ((o.changes.putAll batch.updates).total stagedSize) := by
  rw [h]
  exact foldlM_countStaged (distinct_toList _) (fun _ _ => rfl) hfits

theorem acceptedBytes_ne_overflow (h : o.Counted) (hfits : o.Fits batch) :
    o.acceptedBytes batch.updates ≠ .error .overflow := by
  unfold acceptedBytes
  rw [counted_bytes h hfits]
  change (Checks.ensure _ _ >>= fun _ => pure _) ≠ _
  unfold Checks.ensure
  split
  · intro herror
    cases herror
  · intro herror
    cases herror

/-! ## Steps -/

/-- `write_batch` changes the overlay only if it is accepted. -/
theorem writeBatch_run (batch : WriteBatch) (o : OverlayStore) :
    (∃ error, o.acceptedBytes batch.updates = .error error ∧ writeBatch batch o = (.error error, o)) ∨
      ∃ bytes, o.acceptedBytes batch.updates = .ok bytes ∧ writeBatch batch o = (.ok (), stage batch.updates bytes o) := by
  cases h : o.acceptedBytes batch.updates with
  | error error => exact .inl ⟨error, rfl, Effect.bind_of_error (by rw [h])⟩
  | ok bytes => exact .inr ⟨bytes, rfl, Effect.bind_of_ok (by rw [h])⟩

/-- The overlay after its staged writes are persisted. -/
def persisted (o : OverlayStore) (ns cursor : Bytes) : OverlayStore :=
  release { o with base := o.base.writeBatch (o.checkpointBatch (ns ++ dataSuffix) (ns ++ cursorSuffix) cursor) }

/-- `persist_replay_checkpoint` changes the overlay only if the base store takes the batch. -/
theorem persistReplayCheckpoint_run (fault : Option KvError) (cursor : Bytes) (o : OverlayStore) :
    (∃ error, persistReplayCheckpoint fault cursor o = (.error error, o)) ∨
      ∃ ns, o.replayNamespace = some ns ∧ persistReplayCheckpoint fault cursor o = (.ok (), o.persisted ns cursor) := by
  rw [persistReplayCheckpoint, Effect.read_bind_run, id_eq]
  cases hns : o.replayNamespace with
  | none =>
    have hkey : ∀ suffix, o.replayKey suffix = .error (.invalidInput "replay namespace unavailable") := by
      intro suffix
      unfold replayKey
      rw [hns]
    rw [hkey]
    exact .inl ⟨_, rfl⟩
  | some ns =>
    have hkey : ∀ suffix, o.replayKey suffix = .ok (ns ++ suffix) := by
      intro suffix
      unfold replayKey
      rw [hns]
    rw [hkey, hkey]
    cases fault with
    | some error => exact .inl ⟨error, rfl⟩
    | none => exact .inr ⟨ns, rfl, rfl⟩

section Persisted

variable {ns : Bytes}

theorem reserved_of_mem_checkpointBatch (hns : o.replayNamespace = some ns) {cursor : Bytes} {op : WriteBatchOp}
    (h : op ∈ o.checkpointBatch (ns ++ dataSuffix) (ns ++ cursorSuffix) cursor) : o.reserved op.key := by
  rw [reserved_eq hns, isPrefixOf_iff_prefix]
  rcases mem_append.mp h with h | h
  · obtain ⟨change, -, rfl⟩ := mem_map.mp h
    rw [WriteBatchOp.key, append_assoc]
    exact prefix_append _ _
  · rw [mem_singleton.mp h]
    exact prefix_append _ _

theorem record_persisted (hns : o.replayNamespace = some ns) (cursor key : Bytes) :
    (o.persisted ns cursor).record key = o.changes[key]?.elim (o.record key) fun value => some (encodeReplayValue value) := by
  rw [record_eq (o := o.persisted ns cursor) hns, record_eq hns]
  have hrecords := view_foldl
    (fun (data : KvMap) key value => data.set (ns ++ dataSuffix ++ key) (some (encodeReplayValue value)))
    (fun data key => data[ns ++ dataSuffix ++ key]?) (fun _ value _ => some (encodeReplayValue value))
    (fun data key value => by rw [find_set, if_pos rfl])
    (fun data key value key' hne => by
      rw [find_set, if_neg fun heq => hne (append_cancel_left heq)]) o.changes o.base key
  rw [persisted, checkpointBatch, KvMap.writeBatch, foldl_append]
  refine (KvMap.find_writeBatch_of_not_mem ?_).trans ?_
  · intro op hop
    rw [mem_singleton.mp hop]
    intro heq
    rw [append_assoc] at heq
    cases append_cancel_left heq
  · rw [foldl_map]
    exact hrecords

/-- What is visible does not change when the staged writes are persisted. -/
theorem visible_persisted (hns : o.replayNamespace = some ns) (cursor key : Bytes) :
    (o.persisted ns cursor).visible key = o.visible key := by
  have hreserved : (o.persisted ns cursor).reserved key = o.reserved key := rfl
  unfold visible
  rw [record_persisted hns, hreserved]
  cases o.changes[key]? with
  | some value => exact recordValue_encode value
  | none =>
    cases o.record key with
    | some value => rfl
    | none =>
      cases hkey : o.reserved key with
      | true => rfl
      | false =>
        have hbase : (o.persisted ns cursor).base[key]? = o.base[key]? := by
          refine KvMap.find_writeBatch_of_not_mem fun op hop heq => ?_
          rw [← heq, reserved_of_mem_checkpointBatch hns hop] at hkey
          cases hkey
        change (if o.frozen key then none else (o.persisted ns cursor).base[key]?) = o.baseValue key
        rw [hbase]
        rfl

end Persisted

/-- The base store after a batch that others write. -/
def withBase (o : OverlayStore) (batch : WriteBatch) : OverlayStore :=
  { o with base := o.base.writeBatch batch }

section Others

variable (houtside : ∀ op ∈ batch, o.reserved op.key = false)

include houtside

theorem record_withBase (key : Bytes) : (o.withBase batch).record key = o.record key := by
  cases hns : o.replayNamespace with
  | none =>
    unfold record
    rw [hns, show (o.withBase batch).replayNamespace = o.replayNamespace from rfl, hns]
    rfl
  | some ns =>
    rw [record_eq (o := o.withBase batch) hns, record_eq hns]
    refine KvMap.find_writeBatch_of_not_mem fun op hop heq => ?_
    have hin : o.reserved op.key := by
      rw [reserved_eq hns, isPrefixOf_iff_prefix, heq, append_assoc]
      exact prefix_append _ _
    rw [houtside op hop] at hin
    cases hin

/-- Writes to the base store do not show under a frozen prefix. -/
theorem visible_withBase {key : Bytes} (hfrozen : o.frozen key) : (o.withBase batch).visible key = o.visible key := by
  have hbase : (o.withBase batch).baseValue key = o.baseValue key := by
    unfold baseValue
    rw [show (o.withBase batch).frozen key = o.frozen key from rfl, if_pos hfrozen, if_pos hfrozen]
  unfold visible
  rw [record_withBase houtside, hbase]
  rfl

end Others

/-! ## Runs -/

/-- The ways to make an overlay. -/
inductive Built : OverlayStore → Prop
  | new (base : KvMap) : Built (new base)
  | withSnapshotPrefixes {base : KvMap} {prefixes : List Bytes} {maxBytes : Nat} {o : OverlayStore}
    (h : withSnapshotPrefixes base prefixes maxBytes = .ok o) : Built o
  | withWriteLimit {o o' : OverlayStore} {maxBytes : Nat} (ho : Built o) (h : o.withWriteLimit maxBytes = .ok o') : Built o'
  | withReplayNamespace {o o' : OverlayStore} {ns : Bytes} (ho : Built o) (h : o.withReplayNamespace ns = .ok o') : Built o'
  | reopenReplay {base : KvMap} {ns : Bytes} {prefixes : List Bytes} {o : OverlayStore}
    (h : reopenReplay base ns prefixes = .ok o) : Built o

/-- What can happen to an overlay. -/
inductive Event
  | put (key value : Bytes)
  | delete (key : Bytes)
  | writeBatch (batch : WriteBatch)
  | persistReplayCheckpoint (fault : Option KvError) (cursor : Bytes)
  /-- A batch that others write to the base store. -/
  | baseWrite (batch : WriteBatch)

/-- The overlay after an event. -/
def after (o : OverlayStore) : Event → OverlayStore
  | .put key value => (put key value o).2
  | .delete key => (delete key o).2
  | .writeBatch batch => (writeBatch batch o).2
  | .persistReplayCheckpoint fault cursor => (persistReplayCheckpoint fault cursor o).2
  | .baseWrite batch => o.withBase batch

/-- The runs of an overlay. -/
def machine : TransitionSystem OverlayStore Event where
  step := after

/-- What is written fits into memory, and others do not write to the replay namespace. -/
def Allowed (o : OverlayStore) : Event → Prop
  | .put key value => o.Fits [.put key value]
  | .delete key => o.Fits [.delete key]
  | .writeBatch batch => o.Fits batch
  | .persistReplayCheckpoint _ _ => True
  | .baseWrite batch => ∀ op ∈ batch, o.reserved op.key = false

/-- What an allowed event does to an overlay. -/
inductive Stepped (o : OverlayStore) : OverlayStore → Prop
  | kept : Stepped o o
  | staged {batch : WriteBatch} {bytes : Nat} (hfits : o.Fits batch)
      (hbytes : o.acceptedBytes batch.updates = .ok bytes) :
    Stepped o (stage batch.updates bytes o)
  | persisted {ns} (cursor) (hns : o.replayNamespace = some ns) : Stepped o (o.persisted ns cursor)
  | based {batch : WriteBatch} (houtside : ∀ op ∈ batch, o.reserved op.key = false) : Stepped o (o.withBase batch)

variable {event : Event} {o' : OverlayStore}

theorem stepped_after (hallowed : o.Allowed event) : Stepped o (o.after event) := by
  have hwrite : ∀ batch, o.Fits batch → Stepped o (OverlayStore.writeBatch batch o).2 := by
    intro batch hfits
    rcases writeBatch_run batch o with ⟨error, -, hrun⟩ | ⟨bytes, hbytes, hrun⟩
    · rw [hrun]
      exact .kept
    · rw [hrun]
      exact .staged hfits hbytes
  cases event with
  | put | delete | writeBatch => exact hwrite _ hallowed
  | persistReplayCheckpoint fault cursor =>
    rw [after]
    rcases persistReplayCheckpoint_run fault cursor o with ⟨error, hrun⟩ | ⟨ns, hns, hrun⟩
    · rw [hrun]
      exact .kept
    · rw [hrun]
      exact .persisted cursor hns
  | baseWrite batch => exact .based hallowed

theorem Counted.step (h : o.Counted) (hstep : Stepped o o') : o'.Counted := by
  cases hstep with
  | kept => exact h
  | staged hfits hbytes =>
    unfold acceptedBytes at hbytes
    rw [counted_bytes h hfits] at hbytes
    obtain ⟨counted, hcounted, hrest⟩ := bind_ok_iff.mp hbytes
    obtain ⟨_, -, heq⟩ := bind_ok_iff.mp hrest
    exact (pure_ok_iff.mp heq).symm.trans (Except.ok.inj hcounted).symm
  | persisted => exact (total_empty stagedSize).symm
  | based => exact h

theorem counted_of_built (h : Built o) : o.Counted := by
  induction h with
  | new base => exact (total_empty stagedSize).symm
  | withSnapshotPrefixes h =>
    obtain ⟨entries, -, hentries⟩ := bind_ok_iff.mp h
    rw [← pure_ok_iff.mp hentries]
    unfold Counted total
    rw [toList_map, map_map]
    rfl
  | withWriteLimit ho h ih =>
    unfold OverlayStore.withWriteLimit at h
    split at h
    · cases h
    · cases h
      exact ih
  | withReplayNamespace ho h ih =>
    unfold OverlayStore.withReplayNamespace at h
    split at h
    · cases h
    · cases h
      exact ih
  | reopenReplay h =>
    unfold OverlayStore.reopenReplay OverlayStore.withReplayNamespace at h
    split at h
    · cases h
    · cases h
      exact (total_empty stagedSize).symm

theorem Readable.step (h : o.Readable) (hstep : Stepped o o') : o'.Readable := by
  cases hstep with
  | kept => exact h
  | staged => exact h
  | persisted cursor hns =>
    intro key value hrecord
    rw [record_persisted hns] at hrecord
    cases hchange : o.changes[key]? with
    | none =>
      rw [hchange] at hrecord
      exact h key value hrecord
    | some staged =>
      rw [hchange] at hrecord
      cases hrecord
      rw [decode_encode, recordValue_encode]
  | based houtside =>
    intro key value hrecord
    exact h key value ((record_withBase houtside key).symm.trans hrecord)

/-- The replay namespace, if there is one, lies under a frozen prefix. -/
def Sealed (o : OverlayStore) : Prop :=
  ∀ ns, o.replayNamespace = some ns → o.frozen ns

theorem Sealed.step (h : o.Sealed) (hstep : Stepped o o') : o'.Sealed := by
  cases hstep <;> exact h

theorem Readable.consistent (h : o.Readable) (hsealed : o.Sealed) : o.Consistent := by
  refine ⟨h, fun key hreserved hbase => ?_⟩
  obtain ⟨ns, hns⟩ : ∃ ns, o.replayNamespace = some ns := by
    cases hns : o.replayNamespace with
    | none =>
      unfold reserved at hreserved
      rw [hns] at hreserved
      cases hreserved
    | some ns => exact ⟨ns, rfl⟩
  rw [reserved_eq hns, isPrefixOf_iff_prefix] at hreserved
  rw [baseValue, if_pos (frozen_mono hreserved (hsealed ns hns))] at hbase
  cases hbase

/-- At every moment of a run reads and scans are views of one map exactly if every replay record decodes and every key of the
replay namespace in the base store is frozen, staged or recorded; this is so in every run without a namespace, or with one
under a frozen prefix whose records decode at the start. A refused write leaves the overlay as it was, a checkpoint leaves the
map as it was, writes of others leave it under the frozen prefixes, and the count of staged bytes is exact. -/
theorem overlay_views_one_map {o : OverlayStore} (hbuilt : Built o) {events : List Event}
    (hevents : machine.Admits Allowed o events) :
    ((∃ map, (machine.run o events).Views map) ↔ (machine.run o events).Consistent) ∧
      (o.Readable → o.Sealed → ∃ map, (machine.run o events).Views map) ∧
      (∀ batch error s, writeBatch batch (machine.run o events) = (.error error, s) → s = machine.run o events) ∧
      (∀ fault cursor map, (machine.run o events).Views map →
        ((machine.run o events).after (.persistReplayCheckpoint fault cursor)).Consistent →
          ((machine.run o events).after (.persistReplayCheckpoint fault cursor)).Views map) ∧
      (∀ batch map map', (∀ op ∈ batch, (machine.run o events).reserved op.key = false) → (machine.run o events).Views map →
        ((machine.run o events).after (.baseWrite batch)).Views map' →
          ∀ key, (machine.run o events).frozen key → map'[key]? = map[key]?) ∧
      (machine.run o events).stagedBytes = (machine.run o events).changes.total stagedSize ∧
      ∀ batch, (machine.run o events).Fits batch → (writeBatch batch (machine.run o events)).1 ≠ .error .overflow := by
  have hcounted : (machine.run o events).Counted :=
    TransitionSystem.invariant_run (fun _ _ h hallowed => h.step (stepped_after hallowed)) (counted_of_built hbuilt) hevents
  have hsealed : o.Readable → o.Sealed → (machine.run o events).Consistent := by
    intro hreadable hsealed
    have hboth := TransitionSystem.invariant_run (I := fun s : OverlayStore => s.Readable ∧ s.Sealed)
      (fun _ _ h hallowed => ⟨h.1.step (stepped_after hallowed), h.2.step (stepped_after hallowed)⟩)
      ⟨hreadable, hsealed⟩ hevents
    exact hboth.1.consistent hboth.2
  generalize machine.run o events = s at hcounted hsealed ⊢
  refine ⟨exists_views_iff, fun hr hs => exists_views_iff.mpr (hsealed hr hs), ?_, ?_, ?_, hcounted, ?_⟩
  · intro batch error s' h
    rcases writeBatch_run batch s with ⟨error', -, hrun⟩ | ⟨bytes, -, hrun⟩
    · rw [hrun] at h
      exact (congrArg Prod.snd h).symm
    · rw [hrun] at h
      cases congrArg Prod.fst h
  · intro fault cursor map hmap hconsistent
    refine views_of_consistent hconsistent fun key => ?_
    rcases persistReplayCheckpoint_run fault cursor s with ⟨error, hrun⟩ | ⟨ns, hns, hrun⟩
    · rw [after, hrun, hmap.find]
    · rw [after, hrun, visible_persisted hns, hmap.find]
  · intro batch map map' houtside hmap hmap' key hfrozen
    rw [hmap'.find, hmap.find]
    exact visible_withBase houtside hfrozen
  · intro batch hfits herror
    rcases writeBatch_run batch s with ⟨error, haccepted, hrun⟩ | ⟨bytes, -, hrun⟩
    · rw [hrun] at herror
      change Except.error error = Except.error KvError.overflow at herror
      exact acceptedBytes_ne_overflow hcounted hfits (haccepted.trans (Except.error.inj herror ▸ rfl))
    · rw [hrun] at herror
      cases herror

/-! ## The cursor -/

namespace CursorRead

/-- A replay in the namespace `r/` over an empty base store. -/
def opened (frozenPrefixes : List Bytes) : OverlayStore :=
  { new ∅ with replayNamespace := some (ascii "r/"), frozenPrefixes := frozenPrefixes }

theorem built_opened (f : Bytes) (rest : List Bytes) : Built (opened (f :: rest)) :=
  .reopenReplay (show reopenReplay ∅ (ascii "r/") (f :: rest) = .ok (opened (f :: rest)) from rfl)

theorem readable_opened (frozenPrefixes : List Bytes) : (opened frozenPrefixes).Readable := by
  intro key value h
  rw [record_eq (show (opened frozenPrefixes).replayNamespace = some (ascii "r/") from rfl)] at h
  simp [opened, new] at h

/-- A replay whose namespace is not frozen, after its first checkpoint. -/
def checkpointed : OverlayStore :=
  machine.run (opened [ascii "pk/"]) [.persistReplayCheckpoint none [7]]

theorem cursor_read_not_scanned :
    Built (opened [ascii "pk/"]) ∧ machine.Admits Allowed (opened [ascii "pk/"]) [.persistReplayCheckpoint none [7]] ∧
      checkpointed.get (ascii "r/cursor") = .ok (some [7]) ∧ checkpointed.scanPrefix (ascii "r/") = .ok [] ∧
      ¬ ∃ map, checkpointed.Views map := by
  have hget : checkpointed.get (ascii "r/cursor") = .ok (some [7]) := by decide +kernel
  have hscan : checkpointed.scanPrefix (ascii "r/") = .ok [] := by decide +kernel
  refine ⟨built_opened _ _, ⟨trivial, trivial⟩, hget, hscan, ?_⟩
  rintro ⟨map, hreads, hscans⟩
  rw [hreads, Except.ok.injEq] at hget
  rw [hscans, Except.ok.injEq] at hscan
  have hmem : (ascii "r/cursor", ([7] : Bytes)) ∈ map.scanPrefix (ascii "r/") :=
    KvMap.mem_scanPrefix.mpr ⟨hget, by decide⟩
  rw [hscan] at hmem
  cases hmem

/-- A namespace under a frozen prefix: after a write and a checkpoint reads and scans are views of one map. -/
theorem sealed_view :
    ∃ map, (machine.run (opened [ascii "pk/", ascii "r"])
      [.put (ascii "n/") [1], .persistReplayCheckpoint none [7], .baseWrite [.put (ascii "pk/") [2]]]).Views map := by
  have hevents : machine.Admits Allowed (opened [ascii "pk/", ascii "r"])
      [.put (ascii "n/") [1], .persistReplayCheckpoint none [7], .baseWrite [.put (ascii "pk/") [2]]] :=
    ⟨by unfold Allowed Fits; decide +kernel, trivial, by unfold Allowed; decide +kernel, trivial⟩
  refine (overlay_views_one_map (built_opened _ _) hevents).2.1 (readable_opened _) ?_
  rintro ns ⟨⟩
  decide

end CursorRead

end OverlayStore

end ShellChain
