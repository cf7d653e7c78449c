import ShellChain.Mempool
import ShellChain.Lib.IndexedStore

/-!
# The pool as a store with indexes

The entries of the pool determine everything else that it holds: the queues of the senders and the order are indexes of the
entries, the bytes and the reservations are totals over them. One entry that comes or goes keeps this, so every call that
removes entries does, and an insertion does because what it evicts is removed first.
-/

namespace ShellChain

open Checks ReservationTotal AList PoolInner

/-! ## Costs -/

/-- The most that a transaction pays for gas, without a bound. -/
def exactGasCost (tx : Transaction) : Nat :=
  tx.gasLimit * tx.maxFeePerGas + tx.blobGas * tx.maxFeePerBlobGas.getD 0

/-- What a transaction reserves of an account: its value of the sender, and its gas of the account that pays for it. -/
def exactCost (stx : SignedTransaction) (account : Address) : Nat :=
  (if stx.sender = account then stx.tx.value else 0) + if gasPayer stx = account then exactGasCost stx.tx else 0

/-- What a list of reservations reserves of an account. -/
def costSum (reservations : List (Address × Nat)) (account : Address) : Nat :=
  ((reservations.filter fun r => r.1 = account).map Prod.snd).sum

@[simp] theorem costSum_nil (account : Address) : costSum [] account = 0 := rfl

@[simp] theorem costSum_cons (r : Address × Nat) (rs : List (Address × Nat)) (account : Address) :
    costSum (r :: rs) account = (if r.1 = account then r.2 else 0) + costSum rs account := by
  by_cases h : r.1 = account <;> simp [costSum, h]

theorem addOrMax_eq_min (a b : Nat) : addOrMax a b = min (a + b) u256Max := by
  unfold addOrMax
  split <;> omega

theorem foldl_addOrMax (l : List Nat) (a : Nat) (ha : a ≤ u256Max) : l.foldl addOrMax a = min (a + l.sum) u256Max := by
  induction l generalizing a with
  | nil => simp [ha]
  | cons b l ih =>
    rw [List.foldl_cons, addOrMax_eq_min, ih _ (Nat.min_le_right _ _), List.sum_cons]
    omega

variable {stx : SignedTransaction}

/-- Products of `u64` fit, so the cost of gas is exact. -/
theorem maxGasCost_eq (h : stx.tx.FeesInRange) : maxGasCost stx = exactGasCost stx.tx := by
  have hblobFee : stx.tx.maxFeePerBlobGas.getD 0 ≤ u64Max := by
    cases hfee : stx.tx.maxFeePerBlobGas with
    | none => exact Nat.zero_le _
    | some fee => exact h.maxFeePerBlobGas fee hfee
  have hblobGas : stx.tx.blobGas ≤ u64Max := by
    unfold Transaction.blobGas
    split
    · exact Nat.min_le_right _ _
    · exact Nat.zero_le _
  have hgas := Nat.mul_le_mul h.gasLimit h.maxFeePerGas
  have hblob := Nat.mul_le_mul hblobGas hblobFee
  have hmax : u64Max * u64Max + u64Max * u64Max ≤ u256Max := by decide
  rw [maxGasCost, addOrMax_eq_min, exactGasCost]
  omega

/-- The reservations of a transaction that its sender and its payer can afford are exact. -/
theorem costSum_reservationCosts {view : PoolView} (h : stx.tx.FeesInRange) (hfloor : checkBalanceFloor view stx = .ok ())
    (account : Address) : costSum (reservationCosts stx) account = exactCost stx account := by
  unfold reservationCosts exactCost
  rw [maxGasCost_eq h]
  by_cases hpayer : gasPayer stx = stx.sender
  · have hfit : exactGasCost stx.tx + stx.tx.value ≤ u256Max := by
      simp only [checkBalanceFloor, bind_ok_iff, hpayer, ne_eq, not_true, if_false, ensure_ok_iff, decide_eq_true_eq,
        maxGasCost_eq h] at hfloor
      obtain ⟨_, _, hle, _⟩ := hfloor
      exact hle
    rw [if_pos hpayer, addOrMax_eq_min, Nat.min_eq_left hfit, hpayer]
    by_cases ha : stx.sender = account <;> simp [ha, Nat.add_comm]
  · rw [if_neg hpayer]
    simp

namespace ReservationTotal

/-- The sum that a total stands for. -/
def exact (total : ReservationTotal) : Nat :=
  total.low + total.overflowUnits * (u256Max + 1)

/-- The entry of the table for a sum that fits: none for nothing. -/
def ofSum (n : Nat) : Option ReservationTotal :=
  if n = 0 then none else some ⟨n, 0⟩

theorem ofSum_getD (n : Nat) : (ofSum n).getD zero = ⟨n, 0⟩ := by
  unfold ofSum
  split
  · subst n
    rfl
  · rfl

variable {cost n : Nat}

theorem add_eq (h : n + cost ≤ u256Max) : (⟨n, 0⟩ : ReservationTotal).add cost = ⟨n + cost, 0⟩ := by
  have hnot : ¬ u256Max < n + cost := by omega
  simp only [add, if_neg hnot, Nat.mod_eq_of_lt (Nat.lt_succ_of_le h)]
  rfl

theorem subtract_eq (hcost : cost ≤ n) (hn : n ≤ u256Max) : (⟨n, 0⟩ : ReservationTotal).subtract cost = ⟨n - cost, 0⟩ := by
  have hnot : ¬ n < cost := by omega
  have hlow : (n + (u256Max + 1) - cost) % (u256Max + 1) = n - cost := by
    rw [show n + (u256Max + 1) - cost = (n - cost) + (u256Max + 1) by omega, Nat.add_mod_right, Nat.mod_eq_of_lt (by omega)]
  simp only [subtract, hnot, false_and, if_false, hlow]

/-- A total that a check accepts stands for the sum, which the balance covers. -/
theorem add_covered {balance : Nat}
    (h : ((⟨n, 0⟩ : ReservationTotal).add cost).overflowUnits = 0 ∧ ((⟨n, 0⟩ : ReservationTotal).add cost).saturatingU256 ≤
      balance) : n + cost ≤ u256Max ∧ n + cost ≤ balance := by
  have hfit : n + cost ≤ u256Max := by
    by_contra hlt
    have hone : ((⟨n, 0⟩ : ReservationTotal).add cost).overflowUnits = 1 := by
      simp only [add, if_pos (Nat.lt_of_not_le hlt)]
      decide
    omega
  rw [add_eq hfit] at h
  exact ⟨hfit, h.2⟩

end ReservationTotal

/-! ## Reservations -/

/-- The table holds exactly the sums, and each of them fits. -/
def Reserves (reserved : HashMap Address ReservationTotal) (sum : Address → Nat) : Prop :=
  ∀ account, sum account ≤ u256Max ∧ reserved.lookup account = ReservationTotal.ofSum (sum account)

namespace Reserves

variable {reserved : HashMap Address ReservationTotal} {sum sum' : Address → Nat}

theorem congr (h : Reserves reserved sum) (hsum : ∀ account, sum' account = sum account) : Reserves reserved sum' := by
  intro account
  rw [hsum]
  exact h account

theorem add (h : Reserves reserved sum) (r : Address × Nat) (hr : sum r.1 + r.2 ≤ u256Max) :
    Reserves (addReservation reserved r) fun account => sum account + if r.1 = account then r.2 else 0 := by
  intro account
  unfold addReservation
  dsimp only
  by_cases hzero : r.2 = 0
  · simpa [hzero] using h account
  by_cases ha : account = r.1
  · subst ha
    rw [if_pos rfl, if_neg hzero, lookup_insert, (h r.1).2, ofSum_getD, add_eq hr, ofSum, if_neg (by omega)]
    exact ⟨hr, rfl⟩
  · rw [if_neg (Ne.symm ha), if_neg hzero, lookup_insert_ne ha]
    exact h account

theorem remove {r : Address × Nat} (h : Reserves reserved fun account => sum account + if r.1 = account then r.2 else 0) :
    Reserves (removeReservation reserved r) sum := by
  intro account
  unfold removeReservation
  by_cases hzero : r.2 = 0
  · simpa [hzero] using h account
  have hr := h r.1
  simp only [if_true] at hr
  have hsome : reserved.lookup r.1 = some ⟨sum r.1 + r.2, 0⟩ := by
    rw [hr.2, ofSum, if_neg (by omega)]
  rw [if_neg hzero, hsome]
  simp only [subtract_eq (Nat.le_add_left _ _) hr.1, Nat.add_sub_cancel]
  by_cases ha : account = r.1
  · subst ha
    refine ⟨by omega, ?_⟩
    by_cases hs : sum r.1 = 0
    · simp [isZero, ofSum, hs]
    · simp [isZero, ofSum, hs]
  · have hother := h account
    dsimp only at hother
    rw [if_neg (Ne.symm ha), Nat.add_zero] at hother
    split
    · rw [lookup_erase_ne ha]
      exact hother
    · rw [lookup_insert_ne ha]
      exact hother

theorem foldl_add (rs : List (Address × Nat)) (h : Reserves reserved sum)
    (hrs : ∀ account, sum account + costSum rs account ≤ u256Max) :
    Reserves (rs.foldl addReservation reserved) fun account => sum account + costSum rs account := by
  induction rs generalizing reserved sum with
  | nil => exact h
  | cons r rs ih =>
    have hr := hrs r.1
    rw [costSum_cons, if_pos rfl] at hr
    refine (ih (h.add r (by omega)) ?_).congr ?_
    · intro account
      have := hrs account
      rw [costSum_cons] at this
      omega
    · intro account
      rw [costSum_cons]
      omega

theorem foldl_remove (rs : List (Address × Nat)) (h : Reserves reserved fun account => sum account + costSum rs account) :
    Reserves (rs.foldl removeReservation reserved) sum := by
  induction rs generalizing reserved with
  | nil => exact h
  | cons r rs ih =>
    refine ih (remove (r := r) (h.congr ?_))
    intro account
    rw [costSum_cons]
    omega

end Reserves

namespace PoolInner

/-! ## The invariant -/

/-- The place of an entry in the queues. -/
def slot (entry : PoolEntry) : Address × Nat :=
  (entry.tx.sender, entry.tx.tx.nonce)

def ofSender (sender : Address) (entry : PoolEntry) : Nat :=
  if entry.tx.sender = sender then 1 else 0

/-- The pending transactions reserve this much of an account. -/
def pendingCost (inner : PoolInner) (account : Address) : Nat :=
  inner.byHash.total fun entry => exactCost entry.tx account

/-- The entries determine the rest of the pool. -/
structure Indexed (Γ : Ctx) (inner : PoolInner) : Prop where
  /-- A transaction is stored under its hash. -/
  hashes : ∀ hash entry, inner.byHash.lookup hash = some entry → entry.tx.hash Γ = hash
  queues : Mirrors inner.byHash.lookup slot fun q => inner.queued q.1 q.2
  counts : ∀ sender, inner.senderCount sender = inner.byHash.total (ofSender sender)
  order : Mirrors inner.byHash.lookup PoolEntry.priorityKey fun key => inner.byPriority[key]?
  /-- The order goes by the advertised fee. -/
  fees : ∀ hash entry, inner.byHash.lookup hash = some entry →
    entry.priorityKey.negPriorityFee = -(entry.tx.tx.maxPriorityFeePerGas : Int)
  arrivals : ∀ hash entry, inner.byHash.lookup hash = some entry → entry.priorityKey.seq < inner.seq
  sizes : ∀ hash entry, inner.byHash.lookup hash = some entry → 0 < entry.serializedSize
  bytes : inner.totalBytes = inner.byHash.total PoolEntry.serializedSize
  /-- The reservations of a stored transaction are its costs. -/
  costs : ∀ hash entry, inner.byHash.lookup hash = some entry →
    ∀ account, costSum (reservationCosts entry.tx) account = exactCost entry.tx account
  reserved : Reserves inner.reservedByAccount inner.pendingCost

/-- The limits of the configuration hold. -/
structure Limited (config : MempoolConfig) (inner : PoolInner) : Prop where
  count : inner.byHash.size ≤ config.maxPoolSize
  bytes : inner.totalBytes ≤ config.maxPoolBytes
  senders : ∀ sender, inner.senderCount sender ≤ config.maxPerSender

theorem indexed_empty (Γ : Ctx) (acceptedTotal : Nat) : Indexed Γ { empty with acceptedTotal := acceptedTotal } where
  hashes := by simp [empty]
  queues := .empty (by simp [empty]) (by simp [empty, queued])
  counts := by simp [empty, senderCount, total]
  order := .empty (by simp [empty]) (by simp [empty])
  fees := by simp [empty]
  arrivals := by simp [empty]
  sizes := by simp [empty]
  bytes := by simp [empty, total]
  costs := by simp [empty]
  reserved := by
    intro account
    simp [empty, pendingCost, total, ofSum]

/-! ## One entry goes -/

theorem queued_dropEntry (inner : PoolInner) (hash : ShellHash) (entry : PoolEntry) (q : Address × Nat) :
    (inner.dropEntry hash entry).queued q.1 q.2 = if q = slot entry then none else inner.queued q.1 q.2 := by
  obtain ⟨sender, nonce⟩ := q
  simp only [queued, dropEntry, dequeue, slot, Prod.mk.injEq]
  cases hq : inner.bySender.lookup entry.tx.sender with
  | none =>
    by_cases hs : sender = entry.tx.sender
    · subst hs
      simp [hq]
    · simp [hs]
  | some queue =>
    dsimp only
    by_cases hs : sender = entry.tx.sender
    · subst hs
      split
      case isTrue hempty =>
        have hnone := Std.TreeMap.find_eq_none_of_isEmpty hempty nonce
        rw [Std.TreeMap.find_erase] at hnone
        simp [hq, hnone]
      case isFalse hempty =>
        simp [hq, Std.TreeMap.find_erase]
    · split
      · simp [hs, lookup_erase_ne hs]
      · simp [hs, lookup_insert_ne hs]

variable {entry : PoolEntry} {hash : ShellHash} {inner : PoolInner} {Γ : Ctx} {config : MempoolConfig}

theorem senderCount_dropEntry (hqueued : inner.queued entry.tx.sender entry.tx.tx.nonce = some hash) (sender : Address) :
    (inner.dropEntry hash entry).senderCount sender + ofSender sender entry = inner.senderCount sender := by
  obtain ⟨queue, hq, hn⟩ := Option.bind_eq_some_iff.1 hqueued
  have hsize := Std.TreeMap.size_erase_of_find hn
  simp only [senderCount, dropEntry, dequeue, ofSender, hq]
  by_cases hs : sender = entry.tx.sender
  · subst hs
    split
    case isTrue hempty =>
      rw [Std.TreeMap.isEmpty_eq_size_eq_zero, beq_iff_eq] at hempty
      simp [hq]
      omega
    case isFalse hempty =>
      simp [hq, hsize]
  · split
    · simp [Ne.symm hs, lookup_erase_ne hs]
    · simp [Ne.symm hs, lookup_insert_ne hs]

theorem lookup_byHash_dropEntry (inner : PoolInner) (hash : ShellHash) (entry : PoolEntry) (x : ShellHash) :
    (inner.dropEntry hash entry).byHash.lookup x = if x = hash then none else inner.byHash.lookup x :=
  lookup_erase' _ _ _

theorem lookup_of_dropEntry {x : ShellHash} {e : PoolEntry} (h : (inner.dropEntry hash entry).byHash.lookup x = some e) :
    inner.byHash.lookup x = some e := by
  rw [lookup_byHash_dropEntry] at h
  split at h
  · cases h
  · exact h

/-- Dropping a stored entry keeps the rest of the pool in step. -/
theorem Indexed.dropEntry (h : Indexed Γ inner) (he : inner.byHash.lookup hash = some entry) :
    Indexed Γ (inner.dropEntry hash entry) where
  hashes x e hx := h.hashes x e (lookup_of_dropEntry hx)
  queues := h.queues.drop he (lookup_byHash_dropEntry inner hash entry) (queued_dropEntry inner hash entry)
  counts sender := by
    have hcount := senderCount_dropEntry (h.queues.index_slot he) sender
    have htotal := total_erase he (ofSender sender)
    rw [h.counts] at hcount
    exact Nat.add_right_cancel (hcount.trans htotal.symm)
  order := by
    refine h.order.drop he (lookup_byHash_dropEntry inner hash entry) ?_
    intro key
    exact Std.TreeMap.find_erase _ _ _
  fees x e hx := h.fees x e (lookup_of_dropEntry hx)
  arrivals x e hx := h.arrivals x e (lookup_of_dropEntry hx)
  sizes x e hx := h.sizes x e (lookup_of_dropEntry hx)
  bytes := by
    have htotal := total_erase he PoolEntry.serializedSize
    have hbytes : (inner.dropEntry hash entry).totalBytes = inner.totalBytes - entry.serializedSize := rfl
    rw [hbytes, h.bytes, ← htotal]
    exact Nat.add_sub_cancel _ _
  costs x e hx := h.costs x e (lookup_of_dropEntry hx)
  reserved := by
    refine Reserves.foldl_remove _ (h.reserved.congr ?_)
    intro account
    rw [h.costs hash entry he account]
    exact total_erase he fun e => exactCost e.tx account

theorem Limited.dropEntry (h : Indexed Γ inner) (hl : Limited config inner) (he : inner.byHash.lookup hash = some entry) :
    Limited config (inner.dropEntry hash entry) where
  count := by
    have htotal := total_erase he fun _ => 1
    rw [← size_eq_total, ← size_eq_total] at htotal
    exact Nat.le_trans (Nat.le_of_add_right_le htotal.le) hl.count
  bytes := Nat.le_trans (Nat.sub_le _ _) hl.bytes
  senders sender := by
    have hcount := senderCount_dropEntry (h.queues.index_slot he) sender
    exact Nat.le_trans (Nat.le_of_add_right_le hcount.le) (hl.senders sender)

/-! ## Removals -/

/-- The pool is in step with its entries and within its limits. -/
structure Sound (Γ : Ctx) (config : MempoolConfig) (inner : PoolInner) : Prop where
  indexed : Indexed Γ inner
  limited : Limited config inner

theorem sound_empty (Γ : Ctx) (config : MempoolConfig) (acceptedTotal : Nat) :
    Sound Γ config { empty with acceptedTotal := acceptedTotal } :=
  ⟨indexed_empty Γ acceptedTotal, by simp [empty, size], by simp [empty], by simp [empty, senderCount]⟩

variable {Γ : Ctx} {config : MempoolConfig} {inner : PoolInner}

theorem Sound.removeEntry (h : Sound Γ config inner) (hash : ShellHash) : Sound Γ config (inner.removeEntry hash).2 := by
  unfold PoolInner.removeEntry
  split
  · exact h
  case h_2 entry he => exact ⟨h.indexed.dropEntry he, h.limited.dropEntry h.indexed he⟩

theorem byHash_removeEntry (inner : PoolInner) (hash : ShellHash) :
    (inner.removeEntry hash).2.byHash = inner.byHash.erase hash := by
  unfold removeEntry
  split
  case h_1 hnone => exact (erase_of_lookup_none hnone).symm
  · rfl

theorem byHash_removeEntries (hashes : List ShellHash) (inner : PoolInner) :
    (inner.removeEntries hashes).byHash = inner.byHash.eraseAll hashes := by
  induction hashes generalizing inner with
  | nil => rfl
  | cons hash hashes ih =>
    refine (ih (inner.removeEntry hash).2).trans ?_
    rw [byHash_removeEntry]
    rfl

theorem seq_removeEntries (hashes : List ShellHash) (inner : PoolInner) : (inner.removeEntries hashes).seq = inner.seq := by
  induction hashes generalizing inner with
  | nil => rfl
  | cons hash hashes ih =>
    refine (ih (inner.removeEntry hash).2).trans ?_
    unfold removeEntry
    split <;> rfl

/-- An empty pool has no arrival to stay below. -/
theorem Sound.resetIfEmpty (h : Sound Γ config inner) : Sound Γ config inner.resetIfEmpty := by
  unfold PoolInner.resetIfEmpty
  split
  case isTrue hsize =>
    have hnone : ∀ hash, inner.byHash.lookup hash = none := by
      intro hash
      have hnil := List.eq_nil_of_length_eq_zero hsize
      simp [lookup, hnil]
    refine ⟨{ h.indexed with arrivals := ?_ }, { h.limited with }⟩
    intro hash entry he
    rw [hnone hash] at he
    cases he
  · exact h

/-! ## Calls that only remove -/

/-- A property of the pool that no removal breaks. -/
structure RemovalClosed (P : PoolInner → Prop) : Prop where
  removeEntry : ∀ inner hash, P inner → P (inner.removeEntry hash).2
  resetIfEmpty : ∀ inner, P inner → P inner.resetIfEmpty
  clear : ∀ inner, P inner → P inner.clear

namespace RemovalClosed

variable {P : PoolInner → Prop} (hP : RemovalClosed P)

include hP

theorem removeEntries (hashes : List ShellHash) (h : P inner) : P (inner.removeEntries hashes) :=
  List.foldlRecOn hashes _ h fun inner hinner hash _ => hP.removeEntry inner hash hinner

theorem removeEntryAndDescendants (hash : ShellHash) (h : P inner) :
    P (inner.removeEntryAndDescendants hash).2 :=
  List.foldlRecOn (motive := fun acc : Nat × PoolInner => P acc.2) _ _ h fun acc hacc hash _ => hP.removeEntry acc.2 hash hacc

theorem pruneRotatedRoots (account : Address → Option AccountPolicy) (h : P inner) :
    P (inner.pruneRotatedRoots account).2 := by
  refine hP.resetIfEmpty _ (List.foldlRecOn (motive := fun acc : Nat × PoolInner => P acc.2) _ _ h ?_)
  intro acc hacc hash _
  exact hP.removeEntryAndDescendants hash hacc

/-- Every call but an insertion keeps the property; an insertion is left to the caller. -/
theorem run {Γ : PoolCtx} (h : P inner) (call : PoolCall)
    (hinsert : ∀ view verify stx inRange, call = .insert view verify stx inRange → P (call.run Γ config inner)) :
    P (call.run Γ config inner) := by
  cases call with
  | insert view verify stx inRange => exact hinsert view verify stx inRange rfl
  | remove hash => exact hP.resetIfEmpty _ (hP.removeEntry inner hash h)
  | removeWithDescendants hash => exact hP.resetIfEmpty _ (hP.removeEntryAndDescendants hash h)
  | removeBatch hashes => exact hP.resetIfEmpty _ (hP.removeEntries hashes h)
  | pruneNonceTooLow nonce => exact hP.resetIfEmpty _ (hP.removeEntries _ h)
  | pruneRotatedRoots account => exact hP.pruneRotatedRoots account h
  | clear => exact hP.clear inner h

end RemovalClosed

theorem removalClosed_sound (Γ : Ctx) (config : MempoolConfig) : RemovalClosed (Sound Γ config) where
  removeEntry _ hash h := h.removeEntry hash
  resetIfEmpty _ h := h.resetIfEmpty
  clear inner _ := sound_empty Γ config inner.acceptedTotal

theorem Sound.removeEntries (h : Sound Γ config inner) (hashes : List ShellHash) :
    Sound Γ config (inner.removeEntries hashes) :=
  (removalClosed_sound Γ config).removeEntries hashes h

/-- A removal frees what the entry reserves. -/
theorem removalClosed_pendingCost_le (account : Address) (bound : Nat) :
    RemovalClosed fun inner => inner.pendingCost account ≤ bound where
  removeEntry inner hash h := by
    refine Nat.le_trans ?_ h
    unfold pendingCost
    rw [byHash_removeEntry]
    cases he : inner.byHash.lookup hash with
    | none => rw [erase_of_lookup_none he]
    | some entry => exact Nat.le_of_add_right_le (total_erase he _).le
  resetIfEmpty inner h := by
    unfold PoolInner.resetIfEmpty
    split
    · exact h
    · exact h
  clear inner _ := Nat.zero_le _

/-! ## One entry comes -/

theorem queued_addEntry (inner : PoolInner) (hash : ShellHash) (entry : PoolEntry) (bytes : Nat) (q : Address × Nat) :
    (inner.addEntry hash entry bytes).queued q.1 q.2 = if q = slot entry then some hash else inner.queued q.1 q.2 := by
  obtain ⟨sender, nonce⟩ := q
  simp only [queued, addEntry, addReservations, slot, Prod.mk.injEq, lookup_insert']
  by_cases hs : sender = entry.tx.sender
  · subst hs
    rw [if_pos rfl, Option.bind_some, Std.TreeMap.find_insert]
    cases inner.bySender.lookup entry.tx.sender <;> simp
  · simp [hs]

theorem senderCount_addEntry (hfree : inner.queued entry.tx.sender entry.tx.tx.nonce = none) (hash : ShellHash) (bytes : Nat)
    (sender : Address) :
    (inner.addEntry hash entry bytes).senderCount sender = inner.senderCount sender + ofSender sender entry := by
  simp only [senderCount, addEntry, addReservations, ofSender, lookup_insert']
  by_cases hs : sender = entry.tx.sender
  · subst hs
    rw [if_pos rfl, if_pos rfl, Option.map_some, Option.getD_some]
    unfold queued at hfree
    cases hq : inner.bySender.lookup entry.tx.sender with
    | none => simp [Std.TreeMap.size_insert_of_free]
    | some queue =>
      rw [hq, Option.bind_some] at hfree
      simp [Std.TreeMap.size_insert_of_free hfree]
  · simp [hs, Ne.symm hs]

/-- Every arrival so far is below the next one, so its place in the order is free. -/
theorem Indexed.order_free (h : Indexed Γ inner) {key : PriorityKey} (hkey : key.seq = inner.seq) :
    inner.byPriority[key]? = none := by
  cases hslot : inner.byPriority[key]? with
  | none => rfl
  | some hash =>
    obtain ⟨entry, he, rfl⟩ := (h.order _ _).1 hslot
    have := h.arrivals hash entry he
    omega

/-- What the pool needs of an entry that is added to it. -/
structure Fresh (Γ : Ctx) (inner : PoolInner) (hash : ShellHash) (entry : PoolEntry) : Prop where
  hash_eq : entry.tx.hash Γ = hash
  new : inner.byHash.lookup hash = none
  free : inner.queued entry.tx.sender entry.tx.tx.nonce = none
  fee : entry.priorityKey.negPriorityFee = -(entry.tx.tx.maxPriorityFeePerGas : Int)
  seq : entry.priorityKey.seq = inner.seq
  size : 0 < entry.serializedSize
  costs : ∀ account, costSum (reservationCosts entry.tx) account = exactCost entry.tx account
  fits : ∀ account, inner.pendingCost account + exactCost entry.tx account ≤ u256Max

theorem pendingCost_addEntry (hnew : inner.byHash.lookup hash = none) (entry : PoolEntry) (bytes : Nat) (account : Address) :
    (inner.addEntry hash entry bytes).pendingCost account = inner.pendingCost account + exactCost entry.tx account :=
  total_insert hnew entry _

/-- A property of every entry, of those that were there and of the new one. -/
theorem forall_addEntry {P : ShellHash → PoolEntry → Prop} {bytes : Nat} (h : ∀ x e, inner.byHash.lookup x = some e → P x e)
    (hnew : P hash entry) : ∀ x e, (inner.addEntry hash entry bytes).byHash.lookup x = some e → P x e := by
  intro x e hx
  rw [show (inner.addEntry hash entry bytes).byHash = inner.byHash.insert hash entry from rfl, lookup_insert'] at hx
  split at hx
  case isTrue heq =>
    subst heq
    cases hx
    exact hnew
  case isFalse => exact h x e hx

theorem Indexed.addEntry (h : Indexed Γ inner) (hf : Fresh Γ inner hash entry) :
    Indexed Γ (inner.addEntry hash entry (inner.totalBytes + entry.serializedSize)) where
  hashes := forall_addEntry h.hashes hf.hash_eq
  queues := h.queues.add hf.new hf.free (fun x => lookup_insert' _ _ x _) (queued_addEntry inner hash entry _)
  counts sender := by
    rw [senderCount_addEntry hf.free, h.counts]
    exact (total_insert hf.new entry _).symm
  order := h.order.add hf.new (h.order_free hf.seq) (fun x => lookup_insert' _ _ x _)
    fun key => Std.TreeMap.find_insert _ _ key _
  fees := forall_addEntry h.fees hf.fee
  arrivals := by
    refine forall_addEntry ?_ ?_
    · intro x e hx
      exact Nat.lt_succ_of_lt (h.arrivals x e hx)
    · exact Nat.lt_succ_of_le hf.seq.le
  sizes := forall_addEntry h.sizes hf.size
  bytes := by
    refine Eq.trans ?_ (total_insert hf.new entry _).symm
    rw [← h.bytes]
    rfl
  costs := forall_addEntry h.costs hf.costs
  reserved := by
    have hsum : ∀ account, inner.pendingCost account + costSum (reservationCosts entry.tx) account ≤ u256Max := by
      intro account
      rw [hf.costs]
      exact hf.fits account
    refine (h.reserved.foldl_add _ hsum).congr ?_
    intro account
    rw [pendingCost_addEntry hf.new, hf.costs]

end PoolInner

end ShellChain
