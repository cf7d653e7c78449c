import ShellChain.Lemmas.Mempool

/-!
# Admission to the pool

An insertion plans its evictions, checks the balances without what it evicts, and writes. The plan names stored entries, each
once, and grows in every round, so it comes to an end; what it leaves is room for the transaction. An insertion that passes
every check turns a sound pool into a sound one, and any other leaves the pool as it was.
-/

namespace ShellChain

open Checks List AList

namespace PoolInner

variable {Γ : Ctx} {config : MempoolConfig} {inner : PoolInner}

/-! ## Evictions -/

/-- A plan names different entries of the pool and counts their bytes. -/
structure Planned (inner : PoolInner) (plan : List ShellHash × Nat) : Prop where
  nodup : plan.1.Nodup
  stored : ∀ hash ∈ plan.1, (inner.byHash.lookup hash).isSome
  bytes : plan.2 = ((plan.1.filterMap inner.byHash.lookup).map PoolEntry.serializedSize).sum

variable {plan : List ShellHash × Nat} {hash x : ShellHash} {evicted : List ShellHash} {size baseFee : Nat}
  {stx : SignedTransaction} {root : Option ShellHash} {verify : Verifier} {view : PoolView} {entry : PoolEntry}

theorem Planned.bytes_le (h : Indexed Γ inner) (hp : Planned inner plan) : plan.2 ≤ inner.totalBytes := by
  have htotal := total_eraseAll hp.nodup inner.byHash PoolEntry.serializedSize
  rw [hp.bytes, h.bytes]
  omega

theorem mem_evictHash (inner : PoolInner) (plan : List ShellHash × Nat) (hash x : ShellHash) :
    x ∈ (inner.evictHash plan hash).1 ↔ x ∈ plan.1 ∨ x = hash := by
  unfold evictHash
  split
  case isTrue hmem => exact ⟨.inl, fun h => h.elim id fun heq => heq ▸ hmem⟩
  case isFalse => simp

theorem mem_foldl_evictHash (inner : PoolInner) (hashes : List ShellHash) (plan : List ShellHash × Nat) (x : ShellHash) :
    x ∈ (hashes.foldl inner.evictHash plan).1 ↔ x ∈ plan.1 ∨ x ∈ hashes := by
  induction hashes generalizing plan with
  | nil => simp
  | cons hash hashes ih => rw [foldl_cons, ih, mem_evictHash, mem_cons, or_assoc]

theorem Planned.evictHash (h : Sound Γ config inner) (hp : Planned inner plan) (hs : (inner.byHash.lookup hash).isSome) :
    Planned inner (inner.evictHash plan hash) := by
  obtain ⟨entry, he⟩ := Option.isSome_iff_exists.1 hs
  unfold PoolInner.evictHash
  split
  · exact hp
  case isFalse hmem =>
    have hnodup : (plan.1 ++ [hash]).Nodup :=
      hp.nodup.append (nodup_singleton _) (disjoint_singleton.2 hmem)
    have hsum : ((filterMap inner.byHash.lookup (plan.1 ++ [hash])).map PoolEntry.serializedSize).sum =
        plan.2 + entry.serializedSize := by
      simp [filterMap_append, he, hp.bytes]
    -- The sum stays within the bytes of the pool, so it does not saturate.
    have hfits : plan.2 + entry.serializedSize ≤ u64Max := by
      have htotal := total_eraseAll hnodup inner.byHash PoolEntry.serializedSize
      have hbytes := h.limited.bytes
      have hmax := config.maxPoolBytes_le
      rw [hsum, ← h.indexed.bytes] at htotal
      omega
    refine ⟨hnodup, forall_mem_append.2 ⟨hp.stored, forall_mem_singleton.2 hs⟩, ?_⟩
    rw [hsum, he]
    exact saturatingAdd_eq hfits

theorem Planned.foldl_evictHash (h : Sound Γ config inner) (hashes : List ShellHash) (hp : Planned inner plan)
    (hs : ∀ hash ∈ hashes, (inner.byHash.lookup hash).isSome) : Planned inner (hashes.foldl inner.evictHash plan) :=
  foldlRecOn hashes inner.evictHash hp fun _ hp hash hmem => hp.evictHash h (hs hash hmem)

theorem planned_replaced (h : Sound Γ config inner) (stx : SignedTransaction) : Planned inner (inner.replaced stx) := by
  refine Planned.foldl_evictHash h _ ⟨nodup_nil, by simp, rfl⟩ ?_
  intro hash hmem
  exact h.indexed.queues.isSome_of_index (g := (stx.sender, stx.tx.nonce)) (Option.mem_toList.1 hmem)

/-- The hash that an insertion replaces is planned first. -/
theorem mem_replaced : x ∈ (inner.replaced stx).1 ↔ inner.queued stx.sender stx.tx.nonce = some x := by
  rw [replaced, mem_foldl_evictHash, Option.mem_toList]
  simp

/-- The second transaction is the first or stands behind it in the same queue. -/
def Follows (inner : PoolInner) (hash hash' : ShellHash) : Prop :=
  ∃ entry entry', inner.byHash.lookup hash = some entry ∧ inner.byHash.lookup hash' = some entry' ∧
    entry'.tx.sender = entry.tx.sender ∧ entry.tx.tx.nonce ≤ entry'.tx.tx.nonce

theorem mem_entryAndDescendantHashes (h : Indexed Γ inner) (he : inner.byHash.lookup hash = some entry) :
    x ∈ inner.entryAndDescendantHashes hash ↔ inner.Follows hash x := by
  obtain ⟨queue, hq, -⟩ := Option.bind_eq_some_iff.1 (h.queues.index_slot he)
  have hqueue : inner.bySender.lookup entry.tx.sender = some queue := hq
  have hslot : ∀ nonce, (nonce, x) ∈ queue.toList ↔ inner.queued entry.tx.sender nonce = some x := by
    intro nonce
    rw [Std.TreeMap.mem_toList_iff_getElem?_eq_some, queued, hqueue, Option.bind_some]
  simp only [entryAndDescendantHashes, he, hqueue, mem_map, mem_filter, decide_eq_true_eq, Prod.exists]
  constructor
  · rintro ⟨nonce, y, ⟨hmem, hle⟩, rfl⟩
    obtain ⟨entry', he', hplace⟩ := (h.queues (entry.tx.sender, nonce) y).1 ((hslot nonce).1 hmem)
    obtain ⟨hsender, rfl⟩ := Prod.mk.inj hplace
    exact ⟨entry, entry', he, he', hsender, hle⟩
  · rintro ⟨_, entry', he₀, he', hsender, hle⟩
    cases Option.some.inj (he.symm.trans he₀)
    refine ⟨entry'.tx.tx.nonce, x, ⟨(hslot _).2 ?_, hle⟩, rfl⟩
    rw [← hsender]
    exact h.queues.index_slot he'

theorem lowestTip_spec {l : List (Nat × Nat × ShellHash)} {c : Nat × Nat × ShellHash} (h : lowestTip l = some c) :
    c ∈ l ∧ ∀ d ∈ l, c.1 ≤ d.1 := by
  cases l with
  | nil => cases h
  | cons first rest =>
    have hfold : ∀ (rest : List (Nat × Nat × ShellHash)) (best : Nat × Nat × ShellHash),
        let low := rest.foldl (fun best c => if c.1 < best.1 ∨ (c.1 = best.1 ∧ best.2.1 < c.2.1) then c else best) best
        low ∈ best :: rest ∧ ∀ d ∈ best :: rest, low.1 ≤ d.1 := by
      intro rest
      induction rest with
      | nil => simp
      | cons x rest ih =>
        intro best
        simp only [foldl_cons, mem_cons, forall_eq_or_imp] at ih ⊢
        split
        case isTrue hlow =>
          obtain ⟨hmem, hx, hrest⟩ := ih x
          exact ⟨.inr hmem, by omega, hx, hrest⟩
        case isFalse hlow =>
          obtain ⟨hmem, hbest, hrest⟩ := ih best
          exact ⟨hmem.imp_right .inr, hbest, by omega, hrest⟩
    rw [← Option.some.inj h]
    exact hfold rest first

/-- The tip of the transaction is below the incoming one, and it is not one of the sender's own up to the incoming nonce. -/
def Outbid (inner : PoolInner) (incoming : Incoming) (hash : ShellHash) : Prop :=
  ∃ entry, inner.byHash.lookup hash = some entry ∧ entryTip entry incoming.baseFee < incoming.tip ∧
    ¬ (entry.tx.sender = incoming.sender ∧ entry.tx.tx.nonce ≤ incoming.nonce)

theorem outbid_of_evictionCandidate {incoming : Incoming} (h : inner.evictionCandidate incoming evicted = some hash) :
    hash ∉ evicted ∧ inner.Outbid incoming hash := by
  simp only [evictionCandidate, Option.map_eq_some_iff, Option.filter_eq_some_iff] at h
  obtain ⟨c, ⟨hlow, htip⟩, rfl⟩ := h
  obtain ⟨⟨key, x⟩, _, hx⟩ := mem_filterMap.1 (lowestTip_spec hlow).1
  dsimp only at hx
  split at hx
  · cases hx
  case isFalse hmem =>
    obtain ⟨entry, he, hx⟩ := Option.bind_eq_some_iff.1 hx
    split at hx
    · cases hx
    case isFalse hown =>
      cases hx
      exact ⟨hmem, entry, he, of_decide_eq_true htip, hown⟩

/-- When there is no candidate, all that is outbid is evicted. -/
theorem mem_of_evictionCandidate_eq_none (h : Indexed Γ inner) {incoming : Incoming}
    (hnone : inner.evictionCandidate incoming evicted = none) (hout : inner.Outbid incoming hash) : hash ∈ evicted := by
  obtain ⟨entry, he, htip, hown⟩ := hout
  by_contra hmem
  have hin : (entryTip entry incoming.baseFee, entry.priorityKey.seq, hash) ∈ inner.evictable incoming evicted := by
    refine mem_filterMap.2 ⟨(entry.priorityKey, hash), ?_, ?_⟩
    · exact Std.TreeMap.mem_toList_iff_getElem?_eq_some.2 (h.order.index_slot he)
    · simp [hmem, he, hown]
  cases hlow : lowestTip (inner.evictable incoming evicted) with
  | none =>
    cases hlist : inner.evictable incoming evicted with
    | nil => simp [hlist] at hin
    | cons first rest => simp [hlist, lowestTip] at hlow
  | some c =>
    have hle := (lowestTip_spec hlow).2 _ hin
    simp only [evictionCandidate, hlow, Option.map_eq_none_iff, Option.filter_eq_none_iff, Option.some.injEq,
      decide_eq_true_eq, forall_eq'] at hnone
    exact hnone (lt_of_le_of_lt hle htip)

/-- What the evictions of an insertion come to: a plan that leaves room for the transaction. -/
structure Room (inner : PoolInner) (config : MempoolConfig) (size : Nat) (evicted : List ShellHash) (bytes : Nat) : Prop where
  nodup : evicted.Nodup
  stored : ∀ hash ∈ evicted, (inner.byHash.lookup hash).isSome
  count : saturatingAdd (inner.byHash.size - evicted.length) 1 ≤ config.maxPoolSize
  bytes_eq : bytes + ((evicted.filterMap inner.byHash.lookup).map PoolEntry.serializedSize).sum = inner.totalBytes + size
  bytes_le : bytes ≤ config.maxPoolBytes

/-- A plan that does not leave room, and cannot be carried on. -/
structure Stuck (inner : PoolInner) (config : MempoolConfig) (incoming : Incoming) (plan : List ShellHash × Nat) : Prop where
  planned : Planned inner plan
  candidate : inner.evictionCandidate incoming plan.1 = none
  full : config.maxPoolSize < inner.byHash.size - plan.1.length + 1 ∨
    config.maxPoolBytes < inner.totalBytes - plan.2 + incoming.size

/-- Every round plans at least one more entry, so as many rounds as there are entries, and one, come to an end. What every
round keeps holds of the plan at the end. -/
theorem capacityEvictions_spec (h : Sound Γ config inner) (incoming : Incoming) {P : List ShellHash → Prop}
    (hround : ∀ evicted evicted' hash, P evicted → inner.Outbid incoming hash →
      (∀ x, x ∈ evicted' ↔ x ∈ evicted ∨ inner.Follows hash x) → P evicted')
    (rounds : Nat) (hp : Planned inner plan) (hP : P plan.1) (hrounds : inner.byHash.size < rounds + plan.1.length) :
    (∃ e plan', inner.capacityEvictions config incoming rounds plan = some (.error e) ∧ P plan'.1 ∧
      Stuck inner config incoming plan') ∨
      ∃ evicted bytes, inner.capacityEvictions config incoming rounds plan = some (.ok (evicted, bytes)) ∧ P evicted ∧
        Room inner config incoming.size evicted bytes := by
  induction rounds generalizing plan with
  | zero =>
    have := length_le_size hp.nodup hp.stored
    omega
  | succ rounds ih =>
    obtain ⟨evicted, evictedBytes⟩ := plan
    unfold capacityEvictions
    dsimp only
    split
    case h_1 bytes hbytes hcount =>
      obtain ⟨hadd, hle⟩ := Option.filter_eq_some_iff.1 hbytes
      have hplan := hp.bytes_le h.indexed
      have hsum := hp.bytes
      dsimp only at hplan hsum
      refine .inr ⟨evicted, bytes, rfl, hP, hp.nodup, hp.stored, of_decide_eq_true hcount, ?_, of_decide_eq_true hle⟩
      unfold checkedAdd at hadd
      obtain ⟨_, heq⟩ := Option.ite_none_right_eq_some.1 hadd
      have := Option.some.inj heq
      omega
    case h_2 countFits hnot =>
      split
      case h_1 hnone =>
        refine .inl ⟨_, (evicted, evictedBytes), rfl, hP, hp, hnone, ?_⟩
        by_contra hfits
        rw [not_or, Nat.not_lt, Nat.not_lt] at hfits
        dsimp only at hfits
        have hmax := config.maxPoolBytes_le
        have hbytes : checkedAdd (inner.totalBytes - evictedBytes) incoming.size =
            some (inner.totalBytes - evictedBytes + incoming.size) := if_pos (by omega)
        refine hnot (inner.totalBytes - evictedBytes + incoming.size) ?_ (decide_eq_true ?_)
        · rw [hbytes, Option.filter_some, if_pos (decide_eq_true hfits.2)]
        · exact (Nat.min_le_left _ _).trans hfits.1
      case h_2 candidate hcandidate =>
        obtain ⟨hnew, hout⟩ := outbid_of_evictionCandidate hcandidate
        obtain ⟨entry, he, -⟩ := id hout
        have hmem : ∀ x, x ∈ ((inner.entryAndDescendantHashes candidate).foldl inner.evictHash (evicted, evictedBytes)).1 ↔
            x ∈ evicted ∨ inner.Follows candidate x := by
          intro x
          rw [mem_foldl_evictHash, mem_entryAndDescendantHashes h.indexed he]
        have hp' := hp.foldl_evictHash h (inner.entryAndDescendantHashes candidate) fun x hx => by
          obtain ⟨_, _, _, hx, _⟩ := (mem_entryAndDescendantHashes h.indexed he).1 hx
          simp [hx]
        have hlonger := ((nodup_cons.2 ⟨hnew, hp.nodup⟩).subperm (cons_subset.2
          ⟨(hmem candidate).2 (.inr ⟨entry, entry, he, he, rfl, Nat.le_refl _⟩), fun x hx => (hmem x).2 (.inl hx)⟩)).length_le
        rw [length_cons] at hlonger
        dsimp only at hrounds hlonger
        exact ih hp' (hround _ _ _ hP hout hmem) (by omega)

/-! ## Checks -/

/-- What an insertion has checked when it writes. -/
structure Admitted (Γ : PoolCtx) (config : MempoolConfig) (view : PoolView) (stx : SignedTransaction) (inner : PoolInner)
    (size : Nat) (evicted : List ShellHash) (bytes : Nat) : Prop where
  size_pos : 0 < size
  floor : checkBalanceFloor view stx = .ok ()
  new : inner.byHash.lookup (stx.hash Γ.toCtx) = none
  queue : (inner.queued stx.sender stx.tx.nonce).isSome ∨ inner.senderCount stx.sender < config.maxPerSender
  replaces : ∀ hash, inner.queued stx.sender stx.tx.nonce = some hash → hash ∈ evicted
  room : Room inner config size evicted bytes
  balances : inner.ensurePendingBalanceAvailable view stx evicted = .ok ()

theorem checkSize_pos {Γ : PoolCtx} (h : checkSize Γ stx = .ok size) : 0 < size := by
  unfold checkSize at h
  split at h
  · cases h
  case h_2 n hn =>
    simp only [bind_ok_iff, pure, Except.pure, Except.ok.injEq] at h
    obtain ⟨_, _, rfl⟩ := h
    exact Γ.serializedTransactionSize_pos stx n hn

/-- The checks under the lock that the rest of an insertion depends on. -/
theorem checkAdmission_ok {Γ : PoolCtx} (h : inner.checkAdmission Γ config view verify stx = .ok (size, baseFee, root)) :
    0 < size ∧ checkBalanceFloor view stx = .ok () ∧ inner.byHash.lookup (stx.hash Γ.toCtx) = none ∧
      ((inner.queued stx.sender stx.tx.nonce).isSome ∨ inner.senderCount stx.sender < config.maxPerSender) := by
  simp only [checkAdmission, bind_ok_iff, ensure_ok_iff, decide_eq_true_eq, Option.isNone_iff_eq_none, pure, Except.pure,
    Except.ok.injEq] at h
  obtain ⟨validated, hvalid, _, hfloor, _, _, _, hnew, _, _, _, _, _, hqueue, rfl⟩ := h
  refine ⟨?_, hfloor, hnew, hqueue⟩
  simp only [validateStateless, bind_ok_iff, pure, Except.pure, Except.ok.injEq, Prod.mk.injEq] at hvalid
  obtain ⟨_, _, _, _, _, _, _, _, _, _, _, _, _, _, _, _, _, _, n, hn, _, _, rfl, _, _⟩ := hvalid
  exact checkSize_pos hn

section

variable (stx verify view) {Γ : PoolCtx} (h : Sound Γ.toCtx config inner)

include h

/-- An insertion into a sound pool ends. It leaves the pool as it was, or has passed every check. -/
theorem insert_spec : (∃ e, inner.insert Γ config view verify stx = some (.error e, inner)) ∨
      ∃ size root evicted bytes, Admitted Γ config view stx inner size evicted bytes ∧
        inner.insert Γ config view verify stx = some (.ok (stx.hash Γ.toCtx),
          (inner.removeEntries evicted).addEntry (stx.hash Γ.toCtx) (inner.newEntry stx size root) bytes) := by
  unfold PoolInner.insert
  split
  case h_1 e _ => exact .inl ⟨e, rfl⟩
  case h_2 size baseFee root hcheck =>
    obtain ⟨hpos, hfloor, hnew, hqueue⟩ := checkAdmission_ok hcheck
    rcases capacityEvictions_spec h (incoming stx size baseFee) (P := ((inner.replaced stx).1 ⊆ ·))
      (fun _ _ _ hsub _ hmem x hx => (hmem x).2 (.inl (hsub hx))) (inner.byHash.size + 1) (planned_replaced h stx)
      (List.Subset.refl _) (by omega) with ⟨e, _, he, _⟩ | ⟨evicted, bytes, hevict, hsub, hroom⟩
    · rw [he]
      exact .inl ⟨e, rfl⟩
    · rw [hevict]
      dsimp only
      split
      case h_1 => exact .inl ⟨_, rfl⟩
      case h_2 => exact .inl ⟨_, rfl⟩
      case h_3 hbalances _ =>
        exact .inr ⟨size, root, evicted, bytes,
          ⟨hpos, hfloor, hnew, hqueue, fun hash hq => hsub (mem_replaced.2 hq), hroom, hbalances⟩, rfl⟩

/-- An insertion as a step of the pool. -/
theorem run_insert_spec (inRange : stx.tx.FeesInRange) :
    (PoolCall.insert view verify stx inRange).run Γ config inner = inner ∨
      ∃ size root evicted bytes, Admitted Γ config view stx inner size evicted bytes ∧
        (PoolCall.insert view verify stx inRange).run Γ config inner =
          (inner.removeEntries evicted).addEntry (stx.hash Γ.toCtx) (inner.newEntry stx size root) bytes := by
  rcases insert_spec stx verify view h with ⟨e, heq⟩ | ⟨size, root, evicted, bytes, hadmitted, heq⟩
  · refine .inl ?_
    simp [PoolCall.run, heq]
  · refine .inr ⟨size, root, evicted, bytes, hadmitted, ?_⟩
    simp [PoolCall.run, heq]

end

/-! ## Balances -/

theorem foldl_subtract (cost : PoolEntry → Nat) (entries : List PoolEntry) {n : Nat} (hn : n ≤ u256Max)
    (hsum : (entries.map cost).sum ≤ n) :
    entries.foldl (fun total entry => total.subtract (cost entry)) (⟨n, 0⟩ : ReservationTotal) =
      ⟨n - (entries.map cost).sum, 0⟩ := by
  induction entries generalizing n with
  | nil => rfl
  | cons entry entries ih =>
    rw [map_cons, sum_cons] at hsum
    rw [foldl_cons, ReservationTotal.subtract_eq (by omega) hn, ih (by omega) (by omega), map_cons, sum_cons]
    congr 1
    omega

theorem Indexed.reservationCostFor_eq (h : Indexed Γ inner) (he : inner.byHash.lookup hash = some entry) (account : Address) :
    reservationCostFor entry.tx account = exactCost entry.tx account := by
  have htotal := total_erase he fun e => exactCost e.tx account
  have hfits := (h.reserved account).1
  unfold pendingCost at hfits
  rw [reservationCostFor, foldl_addOrMax _ _ (Nat.zero_le _), Nat.zero_add, ← costSum, h.costs hash entry he]
  omega

/-- The total without the evicted entries is what the rest of the pool reserves. -/
theorem Indexed.reservedTotalExcluding_eq (h : Indexed Γ inner) (hnodup : evicted.Nodup) (account : Address) :
    inner.reservedTotalExcluding account evicted = ⟨(inner.removeEntries evicted).pendingCost account, 0⟩ := by
  have hrest := total_eraseAll hnodup inner.byHash fun e => exactCost e.tx account
  rw [← byHash_removeEntries, ← pendingCost, ← pendingCost] at hrest
  have hcost : ∀ entry ∈ evicted.filterMap inner.byHash.lookup,
      reservationCostFor entry.tx account = exactCost entry.tx account := by
    intro entry hentry
    obtain ⟨hash, _, he⟩ := mem_filterMap.1 hentry
    exact h.reservationCostFor_eq he account
  have hsum : (evicted.filterMap inner.byHash.lookup).map (fun e => reservationCostFor e.tx account) =
      (evicted.filterMap inner.byHash.lookup).map fun e => exactCost e.tx account :=
    map_congr_left hcost
  unfold reservedTotalExcluding
  rw [(h.reserved account).2, ReservationTotal.ofSum_getD,
    foldl_subtract (fun e => reservationCostFor e.tx account) _ (h.reserved account).1 (by rw [hsum]; omega), hsum]
  congr 1
  omega

/-- At most one reservation of a transaction names an account with a cost. -/
theorem costSum_reservationCosts_cases (stx : SignedTransaction) (account : Address) :
    costSum (reservationCosts stx) account = 0 ∨
      ∃ r ∈ reservationCosts stx, r.1 = account ∧ r.2 ≠ 0 ∧ costSum (reservationCosts stx) account = r.2 := by
  by_cases hzero : costSum (reservationCosts stx) account = 0
  · exact .inl hzero
  refine .inr ?_
  unfold reservationCosts at hzero ⊢
  by_cases hpayer : gasPayer stx = stx.sender
  · rw [if_pos hpayer] at hzero ⊢
    by_cases ha : stx.sender = account
    · simp_all
    · simp [ha] at hzero
  · rw [if_neg hpayer] at hzero ⊢
    by_cases ha : stx.sender = account
    · subst ha
      simp_all
    · by_cases hp : gasPayer stx = account
      · simp_all
      · simp [ha, hp] at hzero

variable {Γ : PoolCtx} {view : PoolView} {stx : SignedTransaction} {size bytes : Nat} {evicted : List ShellHash}

/-- The balance of an account covers what the rest of the pool and the transaction reserve of it. -/
theorem Admitted.covered (h : Sound Γ.toCtx config inner) (hrange : stx.tx.FeesInRange)
    (ha : Admitted Γ config view stx inner size evicted bytes) (account : Address) (hcost : exactCost stx account ≠ 0) :
    (inner.removeEntries evicted).pendingCost account + exactCost stx account ≤ u256Max ∧
      (inner.removeEntries evicted).pendingCost account + exactCost stx account ≤ view.balance account := by
  have hsum := costSum_reservationCosts hrange ha.floor account
  rcases costSum_reservationCosts_cases stx account with hzero | ⟨r, hr, rfl, hne, heq⟩
  · exact absurd (hsum.symm.trans hzero) hcost
  · have hcheck := forM_ok ha.balances r hr
    unfold checkReservation at hcheck
    rw [if_neg hne] at hcheck
    simp only [ensure_ok_iff, decide_eq_true_eq, h.indexed.reservedTotalExcluding_eq ha.room.nodup] at hcheck
    rw [← hsum, heq]
    exact ReservationTotal.add_covered hcheck

/-! ## The pool after an insertion -/

theorem lookup_removeEntries (evicted : List ShellHash) (inner : PoolInner) (hash : ShellHash) :
    (inner.removeEntries evicted).byHash.lookup hash = if hash ∈ evicted then none else inner.byHash.lookup hash := by
  rw [byHash_removeEntries, lookup_eraseAll]

section

variable (h : Sound Γ.toCtx config inner) (ha : Admitted Γ config view stx inner size evicted bytes)

include h ha

theorem Admitted.queue_free : (inner.removeEntries evicted).queued stx.sender stx.tx.nonce = none := by
  have hrest := (h.removeEntries evicted).indexed
  cases hq : (inner.removeEntries evicted).queued stx.sender stx.tx.nonce with
  | none => rfl
  | some hash =>
    obtain ⟨entry, he, hslot⟩ := (hrest.queues (stx.sender, stx.tx.nonce) hash).1 hq
    dsimp only at he
    rw [lookup_removeEntries] at he
    split_ifs at he with hmem
    have hqueued := h.indexed.queues.index_slot he
    rw [hslot] at hqueued
    exact absurd (ha.replaces hash hqueued) hmem

theorem Admitted.fresh (hrange : stx.tx.FeesInRange) (root : Option ShellHash) :
    Fresh Γ.toCtx (inner.removeEntries evicted) (stx.hash Γ.toCtx) (inner.newEntry stx size root) where
  hash_eq := rfl
  new := by
    rw [lookup_removeEntries, ha.new]
    simp
  free := ha.queue_free h
  fee := rfl
  seq := (seq_removeEntries evicted inner).symm
  size := ha.size_pos
  costs := costSum_reservationCosts hrange ha.floor
  fits account := by
    by_cases hcost : exactCost stx account = 0
    · have hrest := ((h.removeEntries evicted).indexed.reserved account).1
      have heq : exactCost (inner.newEntry stx size root).tx account = 0 := hcost
      omega
    · exact (ha.covered h hrange account hcost).1

end

/-- Every entry has a byte, so there are at most as many entries as bytes. -/
theorem Indexed.size_le_bytes {Γ : Ctx} (h : Indexed Γ inner) : inner.byHash.size ≤ inner.totalBytes := by
  rw [size_eq_total, h.bytes]
  exact total_le_total h.sizes

/-- What a plan leaves of the entries and of the bytes. -/
theorem Planned.removeEntries {Γ : Ctx} (h : Sound Γ config inner) (hp : Planned inner plan) :
    (inner.removeEntries plan.1).byHash.size + plan.1.length = inner.byHash.size ∧
      (inner.removeEntries plan.1).totalBytes + plan.2 = inner.totalBytes := by
  have hall : (plan.1.filterMap inner.byHash.lookup).length = plan.1.length :=
    filterMap_length_eq_length.2 hp.stored
  have hcount := total_eraseAll hp.nodup inner.byHash fun _ => 1
  have hbytes := total_eraseAll hp.nodup inner.byHash PoolEntry.serializedSize
  rw [← byHash_removeEntries, ← size_eq_total, ← size_eq_total] at hcount
  rw [← byHash_removeEntries, ← (h.removeEntries plan.1).indexed.bytes, ← h.indexed.bytes, ← hp.bytes] at hbytes
  exact ⟨by simpa [hall] using hcount, hbytes⟩

section

variable (hr : Room inner config size evicted bytes)

include hr

theorem Room.planned :
    Planned inner (evicted, ((evicted.filterMap inner.byHash.lookup).map PoolEntry.serializedSize).sum) :=
  ⟨hr.nodup, hr.stored, rfl⟩

theorem Room.bytes_removeEntries {Γ : Ctx} (h : Sound Γ config inner) :
    bytes = (inner.removeEntries evicted).totalBytes + size := by
  have hroom := hr.bytes_eq
  have hrest := (hr.planned.removeEntries h).2
  dsimp only at hrest
  omega

theorem Room.count_le {Γ : Ctx} (h : Sound Γ config inner) (hpos : 0 < size) :
    (inner.removeEntries evicted).byHash.size + 1 ≤ config.maxPoolSize := by
  have hrest := (hr.planned.removeEntries h).1
  have hcount := hr.count
  have hbytes := (h.removeEntries evicted).indexed.size_le_bytes
  have hbound := config.maxPoolBytes_le
  have hle := hr.bytes_le
  have heq := hr.bytes_removeEntries h
  dsimp only at hrest
  -- The count is at most the number of bytes, so its projection does not saturate.
  rw [saturatingAdd_eq (by omega)] at hcount
  omega

end

theorem Admitted.sender_le (h : Sound Γ.toCtx config inner) (ha : Admitted Γ config view stx inner size evicted bytes) :
    (inner.removeEntries evicted).senderCount stx.sender + 1 ≤ config.maxPerSender := by
  have htotal := total_eraseAll ha.room.nodup inner.byHash (ofSender stx.sender)
  rw [← byHash_removeEntries, ← (h.removeEntries evicted).indexed.counts, ← h.indexed.counts] at htotal
  rcases ha.queue with hsome | hlt
  · obtain ⟨hash, hq⟩ := Option.isSome_iff_exists.1 hsome
    obtain ⟨entry, he, hslot⟩ := (h.indexed.queues (stx.sender, stx.tx.nonce) hash).1 hq
    have hone : ofSender stx.sender entry = 1 := if_pos (congrArg Prod.fst hslot)
    have hmem : 1 ∈ (evicted.filterMap inner.byHash.lookup).map (ofSender stx.sender) :=
      mem_map.2 ⟨entry, mem_filterMap.2 ⟨hash, ha.replaces hash hq, he⟩, hone⟩
    have hle := single_le_sum (fun x _ => Nat.zero_le x) 1 hmem
    have hlimit := h.limited.senders stx.sender
    omega
  · omega

end PoolInner

end ShellChain
