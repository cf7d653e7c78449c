import ShellChain.Lemmas.MempoolAdmission
import ShellChain.SampleChain

/-!
# What the pool holds, and who can pay for it

Whatever calls are made, with any transactions and whatever the chain says of balances and nonces at each call, the indexes of
the pool name the same transactions, its totals are the totals over them, and its limits hold. If the balance that is supplied
for an account does not change between the calls, the pending transactions together never reserve more than it.
-/

namespace ShellChain

namespace PoolInner

/-! ## Representation -/

/-- The places in the queues, with the hashes they hold. -/
def queueSlots (inner : PoolInner) : List ((Address × Nat) × ShellHash) :=
  inner.bySender.entries.flatMap fun s => s.2.toList.map fun q => ((s.1, q.1), q.2)

/-- What the fields of a pool say of each other. -/
structure Represented (Γ : Ctx) (config : MempoolConfig) (inner : PoolInner) : Prop where
  /-- The queues hold the hashes of the index, each once. -/
  queues : (inner.queueSlots.map Prod.snd).Perm inner.byHash.keys
  /-- The order holds the hashes of the index, each once. -/
  order : (inner.byPriority.toList.map Prod.snd).Perm inner.byHash.keys
  /-- A transaction stands under its hash, in the queue of its sender at its nonce, and in the order at its key. -/
  placed : ∀ hash entry, inner.byHash.lookup hash = some entry → entry.tx.hash Γ = hash ∧
    inner.queued entry.tx.sender entry.tx.tx.nonce = some hash ∧ inner.byPriority[entry.priorityKey]? = some hash ∧
    entry.priorityKey.negPriorityFee = -(entry.tx.tx.maxPriorityFeePerGas : Int)
  bytes : inner.totalBytes = inner.byHash.total PoolEntry.serializedSize
  reserved : ∀ account, ((inner.reservedByAccount.lookup account).getD .zero).exact = inner.pendingCost account
  count_le : inner.byHash.size ≤ config.maxPoolSize
  bytes_le : inner.totalBytes ≤ config.maxPoolBytes
  sender_le : ∀ sender, inner.senderCount sender ≤ config.maxPerSender

theorem mem_queueSlots (inner : PoolInner) (q : Address × Nat) (hash : ShellHash) :
    (q, hash) ∈ inner.queueSlots ↔ inner.queued q.1 q.2 = some hash := by
  obtain ⟨sender, nonce⟩ := q
  simp only [queueSlots, queued, List.mem_flatMap, List.mem_map, Option.bind_eq_some_iff, Prod.exists, Prod.mk.injEq]
  constructor
  · rintro ⟨⟨s, queue⟩, hs, n, x, hx, ⟨rfl, rfl⟩, rfl⟩
    exact ⟨queue, AList.mem_lookup_iff.2 hs, Std.TreeMap.mem_toList_iff_getElem?_eq_some.1 hx⟩
  · rintro ⟨queue, hs, hx⟩
    exact ⟨⟨sender, queue⟩, AList.mem_lookup_iff.1 hs, nonce, hash, Std.TreeMap.mem_toList_iff_getElem?_eq_some.2 hx,
      ⟨rfl, rfl⟩, rfl⟩

/-- A place is listed once: queues of different senders have no place in common. -/
theorem nodup_queueSlots (inner : PoolInner) : inner.queueSlots.Nodup := by
  refine List.nodup_flatMap.2 ⟨?_, ?_⟩
  · intro s _
    refine (Std.TreeMap.nodup_toList s.2).map ?_
    rintro ⟨n, x⟩ ⟨n', x'⟩ heq
    simp only [Prod.mk.injEq, true_and] at heq
    rw [heq.1, heq.2]
  · refine (List.nodupKeys_iff_pairwise.1 inner.bySender.nodupKeys).imp ?_
    intro s s' hne x hx hx'
    obtain ⟨q, _, rfl⟩ := List.mem_map.1 hx
    obtain ⟨q', _, heq⟩ := List.mem_map.1 hx'
    simp only [Prod.mk.injEq] at heq
    exact hne heq.1.1.symm

theorem Sound.represented {Γ : Ctx} {config : MempoolConfig} {inner : PoolInner} (h : Sound Γ config inner) :
    Represented Γ config inner where
  queues := AList.perm_keys_of_mirrors h.indexed.queues inner.nodup_queueSlots inner.mem_queueSlots
  order := AList.perm_keys_of_mirrors h.indexed.order (Std.TreeMap.nodup_toList _)
    fun _ _ => Std.TreeMap.mem_toList_iff_getElem?_eq_some
  placed hash entry he := ⟨h.indexed.hashes hash entry he, h.indexed.queues.index_slot he, h.indexed.order.index_slot he,
    h.indexed.fees hash entry he⟩
  bytes := h.indexed.bytes
  reserved account := by
    rw [(h.indexed.reserved account).2, ReservationTotal.ofSum_getD]
    simp [ReservationTotal.exact]
  count_le := h.limited.count
  bytes_le := h.limited.bytes
  sender_le := h.limited.senders

end PoolInner

open PoolInner

/-- The pool of a node, one call after another. -/
def poolSystem (Γ : PoolCtx) (config : MempoolConfig) : TransitionSystem PoolInner PoolCall where
  step inner call := call.run Γ config inner

variable {Γ : PoolCtx} {config : MempoolConfig} {inner : PoolInner}

theorem sound_step (h : Sound Γ.toCtx config inner) (call : PoolCall) : Sound Γ.toCtx config (call.run Γ config inner) := by
  refine (removalClosed_sound Γ.toCtx config).run h call ?_
  rintro view verify stx inRange rfl
  rcases run_insert_spec stx verify view h inRange with heq | ⟨size, root, evicted, bytes, hadmitted, heq⟩
  · rw [heq]
    exact h
  · -- an insertion that passes every check keeps the pool in step and within its limits
    rw [heq]
    have hrest := h.removeEntries evicted
    have hfresh := hadmitted.fresh h inRange root
    refine ⟨?_, ?_, hadmitted.room.bytes_le, ?_⟩
    · rw [hadmitted.room.bytes_removeEntries h]
      exact hrest.indexed.addEntry hfresh
    · have hsize := AList.total_insert hfresh.new (inner.newEntry stx size root) fun _ => 1
      rw [← AList.size_eq_total, ← AList.size_eq_total] at hsize
      exact hsize.le.trans (hadmitted.room.count_le h hadmitted.size_pos)
    · intro sender
      rw [senderCount_addEntry hfresh.free]
      by_cases hs : stx.sender = sender
      · subst hs
        have hone : ofSender stx.sender (inner.newEntry stx size root) = 1 := if_pos rfl
        rw [hone]
        exact hadmitted.sender_le h
      · have hzero : ofSender sender (inner.newEntry stx size root) = 0 := if_neg hs
        rw [hzero]
        exact hrest.limited.senders sender

theorem sound_run (Γ : PoolCtx) (config : MempoolConfig) (calls : List PoolCall) :
    Sound Γ.toCtx config ((poolSystem Γ config).run .empty calls) :=
  TransitionSystem.invariant_run_of_step (M := poolSystem Γ config) (I := Sound Γ.toCtx config)
    (fun _ call h => sound_step h call) (sound_empty Γ.toCtx config 0) calls

/-- After any calls the fields of the pool agree and its limits hold, and the next insertion ends and leaves the pool as it
is if it fails. -/
theorem pool_represented (Γ : PoolCtx) (config : MempoolConfig) (calls : List PoolCall) :
    Represented Γ.toCtx config ((poolSystem Γ config).run .empty calls) ∧
      ∀ view verify stx, ∃ outcome after,
        ((poolSystem Γ config).run .empty calls).insert Γ config view verify stx = some (outcome, after) ∧
          ∀ e, outcome = .error e → after = (poolSystem Γ config).run .empty calls := by
  have hsound := sound_run Γ config calls
  refine ⟨hsound.represented, ?_⟩
  intro view verify stx
  rcases insert_spec stx verify view hsound with ⟨e, heq⟩ | ⟨size, root, evicted, bytes, _, heq⟩
  · exact ⟨_, _, heq, fun _ _ => rfl⟩
  · refine ⟨_, _, heq, ?_⟩
    intro e he
    cases he

/-! ## Solvency -/

/-- The balances that a call is given of the sender and of the account that pays for gas. -/
def PoolCall.Supplies (balance : Address → Nat) : PoolCall → Prop
  | .insert view _ stx _ =>
    view.balance stx.sender = balance stx.sender ∧ view.balance (gasPayer stx) = balance (gasPayer stx)
  | _ => True

/-- Only the sender and the account that pays for gas have a cost. -/
theorem eq_of_exactCost_ne_zero {stx : SignedTransaction} {account : Address} (h : exactCost stx account ≠ 0) :
    account = stx.sender ∨ account = gasPayer stx := by
  by_cases hs : stx.sender = account
  · exact .inl hs.symm
  by_cases hp : gasPayer stx = account
  · exact .inr hp.symm
  · simp [exactCost, hs, hp] at h

theorem covered_step (h : Sound Γ.toCtx config inner) {balance : Address → Nat} {call : PoolCall}
    (hsupplies : call.Supplies balance) (hcovered : ∀ account, inner.pendingCost account ≤ balance account) :
    ∀ account, (call.run Γ config inner).pendingCost account ≤ balance account := by
  intro account
  refine (removalClosed_pendingCost_le account (balance account)).run (hcovered account) call ?_
  rintro view verify stx inRange rfl
  rcases run_insert_spec stx verify view h inRange with heq | ⟨size, root, evicted, bytes, hadmitted, heq⟩
  · rw [heq]
    exact hcovered account
  · have htx : (inner.newEntry stx size root).tx = stx := rfl
    rw [heq, pendingCost_addEntry (hadmitted.fresh h inRange root).new, htx]
    by_cases hcost : exactCost stx account = 0
    · rw [hcost]
      exact (removalClosed_pendingCost_le account (balance account)).removeEntries evicted (hcovered account)
    · have hle := (hadmitted.covered h inRange account hcost).2
      rcases eq_of_exactCost_ne_zero hcost with rfl | rfl
      · rw [← hsupplies.1]
        exact hle
      · rw [← hsupplies.2]
        exact hle

/-- If every call is given the same balance of an account, its pending transactions never reserve more than that. -/
theorem pending_costs_covered (Γ : PoolCtx) (config : MempoolConfig) (balance : Address → Nat) (calls : List PoolCall)
    (hsupplies : ∀ call ∈ calls, call.Supplies balance) (account : Address) :
    ((poolSystem Γ config).run .empty calls).pendingCost account ≤ balance account := by
  have hrun := TransitionSystem.invariant_run (M := poolSystem Γ config) (C := fun _ call => call.Supplies balance)
    (I := fun inner => Sound Γ.toCtx config inner ∧ ∀ account, inner.pendingCost account ≤ balance account)
    (s := PoolInner.empty) (l := calls) ?_ ?_ ?_
  · exact hrun.2 account
  · rintro inner call ⟨hsound, hcovered⟩ hcall
    exact ⟨sound_step hsound call, covered_step hsound hcall hcovered⟩
  · exact ⟨sound_empty Γ.toCtx config 0, fun _ => Nat.zero_le _⟩
  · exact TransitionSystem.admits_of_forall fun call hcall _ => hsupplies call hcall

/-! ## An account that sponsors and spends -/

namespace SponsoredPool

/-- The key of the account that pays for the bundle. -/
def sponsorKey : Bytes :=
  [8]

/-- A bundle of one transfer, whose gas the sponsor pays. -/
def bundle : SignedTransaction :=
  ⟨chainAddress senderKey, ⟨1337, 0, none, 5, [], 100000, 1, 0, none, aaBundleTxType, none, none⟩, ⟨.mlDsa65, [2]⟩,
    .reference, some ⟨[⟨some (.repeatByte 0xcc), 5, [], 21000⟩], some (chainAddress sponsorKey), some [3], none, none⟩⟩

def transfer (nonce : Nat) : SignedTransaction :=
  ⟨chainAddress sponsorKey, ⟨1337, nonce, some (.repeatByte 0xcc), 7, [], 21000, 1, 0, none, 2, none, none⟩,
    ⟨.mlDsa65, [2]⟩, .reference, none⟩

/-- Every transaction takes a thousand bytes. -/
def ctx : PoolCtx where
  toCtx := chainCtx
  serializedTransactionSize _ := some 1000
  serializedTransactionSize_pos := by simp

def limits : MempoolConfig :=
  ⟨4, 10000, 2, 1337, 1, 10, by decide, by decide⟩

/-- The sponsor can pay for the bundle and for one transfer. -/
def balance (a : Address) : Nat :=
  if a = chainAddress senderKey then 5 else if a = chainAddress sponsorKey then 130000 else 0

def view : PoolView where
  validation :=
    { config := sampleChainConfig
      registry := .fromAllowlist
      blockNumber := 1
      account _ := none
      pubkey a := if a = chainAddress senderKey then some senderKey
        else if a = chainAddress sponsorKey then some sponsorKey else none
      validators := []
      algorithmMatured _ := false
      customAccepts _ _ _ := false
      paymasterAccepts _ _ _ := false }
  head := none
  balance := balance
  nonce _ := 0

theorem bundle_inRange : bundle.tx.FeesInRange :=
  ⟨by decide, by decide, by decide, by simp [bundle]⟩

theorem transfer_inRange (nonce : Nat) : (transfer nonce).tx.FeesInRange :=
  ⟨by simp [transfer, u256Max], by simp [transfer, u64Max], by simp [transfer, u64Max], by simp [transfer]⟩

/-- The second transfer of the sponsor finds its balance reserved. -/
def calls : List PoolCall :=
  [.insert view preVerified bundle bundle_inRange, .insert view preVerified (transfer 0) (transfer_inRange 0),
    .insert view preVerified (transfer 1) (transfer_inRange 1)]

theorem sponsor_covered :
    ((poolSystem ctx limits).run .empty calls).byHash.size = 2 ∧
      ((poolSystem ctx limits).run .empty calls).pendingCost (chainAddress sponsorKey) = 121007 ∧
      ∀ account, ((poolSystem ctx limits).run .empty calls).pendingCost account ≤ balance account := by
  refine ⟨by decide +kernel, by decide +kernel, ?_⟩
  intro account
  refine pending_costs_covered ctx limits balance calls ?_ account
  intro call hcall
  simp only [calls, List.mem_cons, List.not_mem_nil, or_false] at hcall
  rcases hcall with rfl | rfl | rfl
  · exact ⟨rfl, rfl⟩
  · exact ⟨rfl, rfl⟩
  · exact ⟨rfl, rfl⟩

end SponsoredPool

end ShellChain
