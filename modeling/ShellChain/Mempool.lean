import ShellChain.Execution

/-!
# The transaction pool

The pending transactions of a node (`mempool/src/pool.rs`): an index by hash, a queue by nonce for every sender, an order by
fee and arrival, the bytes that are held, and the balance that pending transactions reserve of their senders and paymasters.
Every check of an insertion comes before its first write. What the pool reads of the chain is a parameter of each call, so
that balances, nonces and keys may change between calls in any way.
-/

namespace ShellChain

open Checks

/-! ## Configuration and errors -/

/-- `MempoolConfig`. -/
structure MempoolConfig where
  maxPoolSize : Nat
  maxPoolBytes : Nat
  maxPerSender : Nat
  chainId : Nat
  minGasPrice : Nat
  replacementFeeBumpPct : Nat
  /-- The limits are `usize`. -/
  maxPoolSize_le : maxPoolSize ≤ u64Max
  maxPoolBytes_le : maxPoolBytes ≤ u64Max

/-- Why a transaction is invalid: a message of the pool, or an error of the validation rules. -/
inductive InvalidReason
  | message (text : String)
  | rules (error : TxValidationError)
  deriving DecidableEq

/-- `MempoolError`. -/
inductive MempoolError
  | poolFull (capacity : Nat)
  | poolBytesFull (capacity : Nat)
  | senderQueueFull (sender : Address) (count : Nat)
  | duplicate (hash : ShellHash)
  | chainIdMismatch (expected got : Nat)
  | gasPriceTooLow (got min : Nat)
  | gasTooLow (got minimum : Nat)
  | nonceTooLow (got pending : Nat)
  | nonceGap (expected got : Nat)
  | insufficientBalance (needed have' : Nat)
  | replacementFeeTooLow (got required : Nat)
  | invalidSignature (message : String)
  | pubkeyRequired (sender : Address)
  | addressMismatch (sender derived : Address)
  | crypto
  | invalidTransaction (reason : InvalidReason)
  deriving DecidableEq

def mapAaValidationError (stx : SignedTransaction) : TxValidationError → MempoolError
  | .pubkeyNotFound => .pubkeyRequired stx.sender
  | .addressMismatch sender derived => .addressMismatch sender derived
  | .signatureInvalid => .invalidSignature "PQ signature verification failed"
  | .crypto => .crypto
  | error => .invalidTransaction (.rules error)

/-! ## Entries -/

/-- The sum of the balance reserved of an account: the sum modulo the range of `U256`, and the carries. -/
structure ReservationTotal where
  low : Nat
  overflowUnits : Nat
  deriving DecidableEq

namespace ReservationTotal

/-- `ReservationTotal::default`. -/
def zero : ReservationTotal :=
  ⟨0, 0⟩

def add (total : ReservationTotal) (cost : Nat) : ReservationTotal :=
  ⟨(total.low + cost) % (u256Max + 1), saturatingAdd total.overflowUnits (if u256Max < total.low + cost then 1 else 0)⟩

def subtract (total : ReservationTotal) (cost : Nat) : ReservationTotal :=
  if total.low < cost ∧ total.overflowUnits = 0 then zero
  else ⟨(total.low + (u256Max + 1) - cost) % (u256Max + 1), total.overflowUnits - if total.low < cost then 1 else 0⟩

def saturatingU256 (total : ReservationTotal) : Nat :=
  if total.overflowUnits = 0 then total.low else u256Max

def isZero (total : ReservationTotal) : Bool :=
  total.overflowUnits = 0 ∧ total.low = 0

end ReservationTotal

/-- The place of a transaction in the order: the negated fee, and its arrival. -/
structure PriorityKey where
  negPriorityFee : Int
  seq : Nat
  deriving DecidableEq

instance : Ord PriorityKey where
  compare := compareLex (compareOn PriorityKey.negPriorityFee) (compareOn PriorityKey.seq)

instance : Std.TransOrd PriorityKey :=
  inferInstanceAs (Std.TransCmp (compareLex (compareOn PriorityKey.negPriorityFee) (compareOn PriorityKey.seq)))

instance : Std.LawfulEqOrd PriorityKey where
  eq_of_compare {a b} h := by
    have hlex : compareLex (compareOn PriorityKey.negPriorityFee) (compareOn PriorityKey.seq) a b = .eq := h
    simp only [compareLex_eq_eq, compareOn, Std.compare_eq_iff_eq] at hlex
    cases a
    cases b
    simp_all

/-- `PoolEntry`. -/
structure PoolEntry where
  tx : SignedTransaction
  priorityKey : PriorityKey
  serializedSize : Nat
  validatedRootHash : Option ShellHash
  deriving DecidableEq

/-- `PoolInner`. -/
structure PoolInner where
  byHash : HashMap ShellHash PoolEntry
  bySender : HashMap Address (Std.TreeMap Nat ShellHash)
  byPriority : Std.TreeMap PriorityKey ShellHash
  seq : Nat
  totalBytes : Nat
  acceptedTotal : Nat
  reservedByAccount : HashMap Address ReservationTotal

/-- The pool of `TxPool::new`. -/
def PoolInner.empty : PoolInner :=
  ⟨∅, ∅, ∅, 0, 0, 0, ∅⟩

/-! ## Costs -/

def addOrMax (left right : Nat) : Nat :=
  if left + right ≤ u256Max then left + right else u256Max

/-- `max_gas_cost`: the products of two `u64` fit. -/
def maxGasCost (stx : SignedTransaction) : Nat :=
  addOrMax (min (stx.tx.gasLimit * stx.tx.maxFeePerGas) u256Max)
    (min (stx.tx.blobGas * stx.tx.maxFeePerBlobGas.getD 0) u256Max)

def gasPayer (stx : SignedTransaction) : Address :=
  ((stx.aaBundle.bind AaBundle.paymaster).filter (· ≠ stx.sender)).getD stx.sender

def reservationCosts (stx : SignedTransaction) : List (Address × Nat) :=
  if gasPayer stx = stx.sender then [(stx.sender, addOrMax (maxGasCost stx) stx.tx.value), (stx.sender, 0)]
  else [(stx.sender, stx.tx.value), (gasPayer stx, maxGasCost stx)]

def reservationCostFor (stx : SignedTransaction) (account : Address) : Nat :=
  (((reservationCosts stx).filter fun r => r.1 = account).map Prod.snd).foldl addOrMax 0

def minerTip (maxFee maxPriorityFee baseFee : Nat) : Nat :=
  effectiveGasPrice maxFee maxPriorityFee baseFee - baseFee

/-- `replacement_fee_required`: the products of the source are `u128` and do not overflow. -/
def replacementFeeRequired (oldFee bumpPct : Nat) : Option Nat :=
  if bumpPct = 0 then some oldFee
  else
    let required := max ((oldFee * (bumpPct + 100) + 99) / 100) (oldFee + 1)
    if required ≤ u64Max then some required else none

/-! ## Queues -/

/-- The loop of `next_expected_nonce` over the queued nonces. -/
def nextExpectedNonceLoop : List Nat → Nat → Nat
  | [], expected => expected
  | queued :: rest, expected =>
    if queued < expected then nextExpectedNonceLoop rest expected
    else if queued = expected then nextExpectedNonceLoop rest (saturatingAdd expected 1)
    else expected

def nextExpectedNonce (queue : Option (Std.TreeMap Nat ShellHash)) (chainNonce : Nat) : Nat :=
  nextExpectedNonceLoop ((queue.map fun q => q.toList.map Prod.fst).getD []) chainNonce

namespace PoolInner

variable (inner : PoolInner)

/-- The hash that a sender has queued at a nonce. -/
def queued (sender : Address) (nonce : Nat) : Option ShellHash :=
  (inner.bySender.lookup sender).bind fun queue => queue[nonce]?

/-- The number of transactions that a sender has queued. -/
def senderCount (sender : Address) : Nat :=
  ((inner.bySender.lookup sender).map Std.TreeMap.size).getD 0

/-! ## Reservations -/

/-- One step of `add_reservations`. -/
def addReservation (reserved : HashMap Address ReservationTotal) (r : Address × Nat) : HashMap Address ReservationTotal :=
  if r.2 = 0 then reserved else reserved.insert r.1 (((reserved.lookup r.1).getD .zero).add r.2)

def addReservations (stx : SignedTransaction) : PoolInner :=
  { inner with reservedByAccount := (reservationCosts stx).foldl addReservation inner.reservedByAccount }

/-- One step of `remove_reservations`. -/
def removeReservation (reserved : HashMap Address ReservationTotal) (r : Address × Nat) :
    HashMap Address ReservationTotal :=
  if r.2 = 0 then reserved
  else
    match reserved.lookup r.1 with
    | none => reserved
    | some total => if (total.subtract r.2).isZero then reserved.erase r.1 else reserved.insert r.1 (total.subtract r.2)

def removeReservations (stx : SignedTransaction) : PoolInner :=
  { inner with reservedByAccount := (reservationCosts stx).foldl removeReservation inner.reservedByAccount }

def reservedTotalExcluding (account : Address) (excluded : List ShellHash) : ReservationTotal :=
  (excluded.filterMap inner.byHash.lookup).foldl
    (fun total entry => total.subtract (reservationCostFor entry.tx account))
    ((inner.reservedByAccount.lookup account).getD .zero)

/-! ## Removal -/

/-- The queues of senders without one nonce of one; an empty queue is dropped. -/
def dequeue (bySender : HashMap Address (Std.TreeMap Nat ShellHash)) (sender : Address) (nonce : Nat) :
    HashMap Address (Std.TreeMap Nat ShellHash) :=
  match bySender.lookup sender with
  | none => bySender
  | some queue => if (queue.erase nonce).isEmpty then bySender.erase sender else bySender.insert sender (queue.erase nonce)

/-- The pool without an entry that is stored under a hash. -/
def dropEntry (hash : ShellHash) (entry : PoolEntry) : PoolInner :=
  { ({ inner with
      byHash := inner.byHash.erase hash
      totalBytes := inner.totalBytes - entry.serializedSize } : PoolInner).removeReservations entry.tx with
    byPriority := inner.byPriority.erase entry.priorityKey
    bySender := dequeue inner.bySender entry.tx.sender entry.tx.tx.nonce }

def removeEntry (hash : ShellHash) : Bool × PoolInner :=
  match inner.byHash.lookup hash with
  | none => (false, inner)
  | some entry => (true, inner.dropEntry hash entry)

/-- The removal of several hashes, one after another. -/
def removeEntries (hashes : List ShellHash) : PoolInner :=
  hashes.foldl (fun inner hash => (inner.removeEntry hash).2) inner

def entryAndDescendantHashes (hash : ShellHash) : List ShellHash :=
  match inner.byHash.lookup hash with
  | none => []
  | some entry =>
    match inner.bySender.lookup entry.tx.sender with
    | none => [hash]
    | some queue => (queue.toList.filter fun q => entry.tx.tx.nonce ≤ q.1).map Prod.snd

/-- `remove_entry_and_descendants`, with the number of removed entries. -/
def removeEntryAndDescendants (hash : ShellHash) : Nat × PoolInner :=
  (inner.entryAndDescendantHashes hash).foldl (fun acc hash =>
    (if (acc.2.removeEntry hash).1 then acc.1 + 1 else acc.1, (acc.2.removeEntry hash).2)) (0, inner)

/-- An empty pool starts counting arrivals again. -/
def resetIfEmpty : PoolInner :=
  if inner.byHash.size = 0 then { inner with seq := 0 } else inner

def remove (hash : ShellHash) : Bool × PoolInner :=
  ((inner.removeEntry hash).1, (inner.removeEntry hash).2.resetIfEmpty)

def removeWithDescendants (hash : ShellHash) : Nat × PoolInner :=
  ((inner.removeEntryAndDescendants hash).1, (inner.removeEntryAndDescendants hash).2.resetIfEmpty)

def removeBatch (hashes : List ShellHash) : PoolInner :=
  (inner.removeEntries hashes).resetIfEmpty

/-- The queued hashes below the canonical nonce of their sender; a sender whose nonce cannot be read is skipped. -/
def staleNonces (nonce : Address → Option Nat) : List ShellHash :=
  inner.bySender.entries.flatMap fun s => match nonce s.1 with
    | none => []
    | some canonical => (s.2.toList.filter fun q => q.1 < canonical).map Prod.snd

def pruneNonceTooLow (nonce : Address → Option Nat) : Nat × PoolInner :=
  ((inner.staleNonces nonce).length, (inner.removeEntries (inner.staleNonces nonce)).resetIfEmpty)

/-- The root of an account with the built-in validator. -/
def canonicalRoot (account : Address → Option AccountPolicy) (sender : Address) : Option ShellHash :=
  ((account sender).filter fun a => a.validationCodeHash.isNone ∧ a.pqPubkeyHash ≠ .zero).map AccountPolicy.pqPubkeyHash

/-- The hashes whose validated root is no longer the canonical one. -/
def staleRoots (account : Address → Option AccountPolicy) : List ShellHash :=
  (inner.byHash.entries.filter fun e => e.2.validatedRootHash.any fun validated =>
    (inner.bySender.lookup e.2.tx.sender).isSome && (canonicalRoot account e.2.tx.sender).any (· ≠ validated)).map Sigma.fst

def pruneRotatedRoots (account : Address → Option AccountPolicy) : Nat × PoolInner :=
  let removed := (inner.staleRoots account).foldl (fun acc hash =>
    (acc.1 + (acc.2.removeEntryAndDescendants hash).1, (acc.2.removeEntryAndDescendants hash).2)) (0, inner)
  (removed.1, removed.2.resetIfEmpty)

/-- `clear`: the number of admissions is kept. -/
def clear : PoolInner :=
  { PoolInner.empty with acceptedTotal := inner.acceptedTotal }

/-! ## Capacity -/

def entryTip (entry : PoolEntry) (baseFee : Nat) : Nat :=
  minerTip entry.tx.tx.maxFeePerGas entry.tx.tx.maxPriorityFeePerGas baseFee

/-- What an incoming transaction is compared with: its sender, nonce and size, its effective tip and the base fee. -/
structure Incoming where
  sender : Address
  nonce : Nat
  size : Nat
  tip : Nat
  baseFee : Nat

/-- The entries that may be evicted for an incoming transaction, with their effective tip and arrival: not evicted already,
and not the sender's own up to the incoming nonce. -/
def evictable (incoming : Incoming) (evicted : List ShellHash) : List (Nat × Nat × ShellHash) :=
  inner.byPriority.toList.filterMap fun p =>
    if p.2 ∈ evicted then none
    else (inner.byHash.lookup p.2).bind fun entry =>
      if entry.tx.sender = incoming.sender ∧ entry.tx.tx.nonce ≤ incoming.nonce then none
      else some (entryTip entry incoming.baseFee, p.1.seq, p.2)

/-- The first minimum: the lowest tip, and of equal tips the latest arrival. -/
def lowestTip : List (Nat × Nat × ShellHash) → Option (Nat × Nat × ShellHash)
  | [] => none
  | first :: rest => some (rest.foldl (fun best c =>
      if c.1 < best.1 ∨ (c.1 = best.1 ∧ best.2.1 < c.2.1) then c else best) first)

/-- The next entry to evict: the lowest, if the incoming tip is above it. -/
def evictionCandidate (incoming : Incoming) (evicted : List ShellHash) : Option ShellHash :=
  ((lowestTip (inner.evictable incoming evicted)).filter fun c => c.1 < incoming.tip).map fun c => c.2.2

/-- One more hash to evict, with the bytes of the evicted entries. -/
def evictHash (acc : List ShellHash × Nat) (hash : ShellHash) : List ShellHash × Nat :=
  if hash ∈ acc.1 then acc
  else (acc.1 ++ [hash], match inner.byHash.lookup hash with
    | none => acc.2
    | some entry => saturatingAdd acc.2 entry.serializedSize)

/-- The loop of `capacity_evictions`: the hashes to evict and the bytes of the pool afterwards. None when the number of
rounds given does not suffice. -/
def capacityEvictions (inner : PoolInner) (config : MempoolConfig) (incoming : Incoming) :
    Nat → List ShellHash × Nat → Option (Except MempoolError (List ShellHash × Nat))
  | 0, _ => none
  | rounds + 1, (evicted, evictedBytes) =>
    let projectedCount := saturatingAdd (inner.byHash.size - evicted.length) 1
    let projectedBytes := checkedAdd (inner.totalBytes - evictedBytes) incoming.size
    match projectedBytes.filter (· ≤ config.maxPoolBytes), decide (projectedCount ≤ config.maxPoolSize) with
    | some bytes, true => some (.ok (evicted, bytes))
    | _, countFits =>
      match inner.evictionCandidate incoming evicted with
      | none => some (.error (if countFits then .poolBytesFull config.maxPoolBytes else .poolFull config.maxPoolSize))
      | some candidate =>
        capacityEvictions inner config incoming rounds
          ((inner.entryAndDescendantHashes candidate).foldl inner.evictHash (evicted, evictedBytes))

end PoolInner

/-! ## What an insertion reads -/

/-- The functions of a node that the pool uses: the digests, and the length of the JSON of a transaction, which is never
empty. -/
structure PoolCtx extends Ctx where
  serializedTransactionSize : SignedTransaction → Option Nat
  serializedTransactionSize_pos : ∀ stx n, serializedTransactionSize stx = some n → 0 < n

/-- What the pool reads of the chain: what validation reads, the header of the head (none without a head, and `some none`
for a head whose header is missing), and the accounts. -/
structure PoolView where
  validation : ValidationView
  head : Option (Option BlockHeader)
  balance : Address → Nat
  nonce : Address → Nat

def maxTxSize : Nat :=
  128 * 1024

/-- A message of the pool. -/
def invalid (text : String) : MempoolError :=
  .invalidTransaction (.message text)

/-- A blob transaction must pay the blob price of the next block. -/
def checkBlobFee (head : BlockHeader) (tx : Transaction) : Except MempoolError Unit :=
  let blobBaseFee := calcBlobGasPrice (calcExcessBlobGas head.excessBlobGas head.blobGasUsed)
  let fee := tx.maxFeePerBlobGas.getD blobBaseFee
  ensure (tx.txType ≠ 3 ∨ blobBaseFee ≤ fee)
    (invalid s!"max fee per blob gas ({fee}) below current blob base fee ({blobBaseFee})")

/-- The checks against the head, and its base fee. -/
def checkHead (view : PoolView) (tx : Transaction) : Except MempoolError Nat :=
  match view.head with
  | none => .ok 0
  | some none => .error (invalid "canonical head header is missing")
  | some (some head) => do
    ensure (tx.gasLimit ≤ head.gasLimit)
      (invalid s!"transaction gas limit {tx.gasLimit} exceeds block gas limit {head.gasLimit}")
    ensure (head.baseFeePerGas ≤ tx.maxFeePerGas)
      (invalid s!"max fee per gas ({tx.maxFeePerGas}) below current base fee ({head.baseFeePerGas})")
    checkBlobFee head tx
    pure head.baseFeePerGas

/-- The key that `validate_aa_tx` returns for an account with the built-in validator. -/
def validatedPubkey (Γ : Ctx) (view : PoolView) (stx : SignedTransaction) : Bytes :=
  match view.validation.governanceFallbackPubkey Γ stx with
  | some _ => (view.validation.pubkey stx.sender).getD []
  | none => (stx.pubkeyMode.pubkeyBytes.orElse fun _ => view.validation.pubkey stx.sender).getD []

/-- The root that authorised a transaction of an account with the built-in validator. -/
def validatedRoot (Γ : Ctx) (view : PoolView) (stx : SignedTransaction) : Option ShellHash :=
  let account := view.validation.account stx.sender
  if account.all fun a => a.validationCodeHash.isNone then
    some (((account.map AccountPolicy.pqPubkeyHash).filter (· ≠ .zero)).getD (Γ.blake3 (validatedPubkey Γ view stx)))
  else none

/-- The size of a transaction, which must not exceed the bound. -/
def checkSize (Γ : PoolCtx) (stx : SignedTransaction) : Except MempoolError Nat :=
  match Γ.serializedTransactionSize stx with
  | none => .error (invalid "tx serialization failed")
  | some size => do
    ensure (size ≤ maxTxSize) (invalid s!"transaction too large: {size} bytes (max {maxTxSize})")
    pure size

def checkIntrinsicGas (stx : SignedTransaction) (aaExtraGas : Nat) : Except MempoolError Unit :=
  match totalIntrinsicGas stx aaExtraGas with
  | none => .error (.gasTooLow stx.tx.gasLimit u64Max)
  | some intrinsic => ensure (intrinsic ≤ stx.tx.gasLimit) (.gasTooLow stx.tx.gasLimit intrinsic)

/-- `validate_stateless`: the size, the base fee and the root. -/
def validateStateless (Γ : PoolCtx) (config : MempoolConfig) (view : PoolView) (verify : Verifier)
    (stx : SignedTransaction) : Except MempoolError (Nat × Nat × Option ShellHash) := do
  ensure (stx.tx.chainId = config.chainId) (.chainIdMismatch config.chainId stx.tx.chainId)
  ensure (stx.tx.txType ≤ 3 ∨ stx.tx.txType = aaBundleTxType)
    (.invalidTransaction (.rules (.unsupportedTransactionType stx.tx.txType)))
  let baseFee ← checkHead view stx.tx
  ensure (stx.tx.maxPriorityFeePerGas ≤ stx.tx.maxFeePerGas) (invalid "max priority fee per gas exceeds max fee per gas")
  ensure (config.minGasPrice ≤ stx.tx.maxFeePerGas) (.gasPriceTooLow stx.tx.maxFeePerGas config.minGasPrice)
  stx.tx.validateAccessList.mapError invalid
  stx.tx.validateBlobTx.mapError invalid
  let aaExtraGas ← (validateAaBundleStructure stx).mapError fun e => .invalidTransaction (.rules e)
  checkIntrinsicGas stx aaExtraGas
  let size ← checkSize Γ stx
  (view.validation.validateAaTx Γ.toCtx verify stx).mapError (mapAaValidationError stx)
  pure (size, baseFee, validatedRoot Γ.toCtx view stx)

/-- The balance floor of the sender and of the account that pays for gas. -/
def checkBalanceFloor (view : PoolView) (stx : SignedTransaction) : Except MempoolError Unit := do
  let payer := gasPayer stx
  let gasCost := maxGasCost stx
  let senderBalance := view.balance stx.sender
  ensure (gasCost ≤ view.balance payer) (.insufficientBalance gasCost (view.balance payer))
  if payer ≠ stx.sender then
    ensure (stx.tx.value ≤ senderBalance) (.insufficientBalance stx.tx.value senderBalance)
  else
    ensure (gasCost + stx.tx.value ≤ u256Max ∧ gasCost + stx.tx.value ≤ senderBalance)
      (.insufficientBalance (min (gasCost + stx.tx.value) u256Max) senderBalance)

namespace PoolInner

variable (inner : PoolInner)

/-- The fees of an entry and of its replacement, in the order in which they are compared. -/
def feePairs (old new : Transaction) : List (Nat × Nat) :=
  [(old.maxPriorityFeePerGas, new.maxPriorityFeePerGas), (old.maxFeePerGas, new.maxFeePerGas)] ++
    (old.maxFeePerBlobGas.map fun oldFee => (oldFee, new.maxFeePerBlobGas.getD 0)).toList

/-- A replacement must raise a fee by the bump. -/
def checkFeeBump (bumpPct : Nat) (fees : Nat × Nat) : Except MempoolError Unit :=
  match replacementFeeRequired fees.1 bumpPct with
  | none => .error (.replacementFeeTooLow fees.2 u64Max)
  | some required => ensure (required ≤ fees.2) (.replacementFeeTooLow fees.2 required)

/-- The nonce follows the queue, or the transaction replaces the entry at its nonce. -/
def checkNonce (config : MempoolConfig) (view : PoolView) (stx : SignedTransaction) : Except MempoolError Unit :=
  let nonce := stx.tx.nonce
  let expected := nextExpectedNonce (inner.bySender.lookup stx.sender) (view.nonce stx.sender)
  match inner.queued stx.sender nonce with
  | some existing =>
    match inner.byHash.lookup existing with
    | none => [(0, stx.tx.maxPriorityFeePerGas), (0, stx.tx.maxFeePerGas)].forM (checkFeeBump config.replacementFeeBumpPct)
    | some entry => (feePairs entry.tx.tx stx.tx).forM (checkFeeBump config.replacementFeeBumpPct)
  | none => do
    ensure (nonce ≤ expected) (.nonceGap expected nonce)
    ensure (expected ≤ nonce) (.nonceTooLow nonce expected)

/-- The checks of `insert` up to the limit of the sender: the size, the base fee and the root of the transaction. -/
def checkAdmission (Γ : PoolCtx) (inner : PoolInner) (config : MempoolConfig) (view : PoolView) (verify : Verifier)
    (stx : SignedTransaction) : Except MempoolError (Nat × Nat × Option ShellHash) := do
  let validated ← validateStateless Γ config view verify stx
  checkBalanceFloor view stx
  ensure (stx.tx.nonce ≠ u64Max) (invalid "nonce cannot advance past u64::MAX")
  ensure (inner.byHash.lookup (stx.hash Γ.toCtx)).isNone (.duplicate (stx.hash Γ.toCtx))
  ensure (view.nonce stx.sender ≤ stx.tx.nonce) (.nonceTooLow stx.tx.nonce (view.nonce stx.sender))
  inner.checkNonce config view stx
  ensure ((inner.queued stx.sender stx.tx.nonce).isSome ∨ inner.senderCount stx.sender < config.maxPerSender)
    (.senderQueueFull stx.sender (inner.senderCount stx.sender))
  pure validated

/-- One account of `ensure_pending_balance_available`. -/
def checkReservation (view : PoolView) (excluded : List ShellHash) (r : Address × Nat) : Except MempoolError Unit :=
  if r.2 = 0 then .ok ()
  else
    let needed := (inner.reservedTotalExcluding r.1 excluded).add r.2
    ensure (needed.overflowUnits = 0 ∧ needed.saturatingU256 ≤ view.balance r.1)
      (.insufficientBalance needed.saturatingU256 (view.balance r.1))

def ensurePendingBalanceAvailable (view : PoolView) (stx : SignedTransaction)
    (excluded : List ShellHash) : Except MempoolError Unit :=
  (reservationCosts stx).forM (inner.checkReservation view excluded)

/-- The arrival number of the next transaction. -/
def nextSeq : Except MempoolError Nat :=
  match checkedAdd inner.seq 1 with
  | none => .error (invalid "mempool arrival sequence exhausted")
  | some next => .ok next

/-- The pool with one more entry. -/
def addEntry (hash : ShellHash) (entry : PoolEntry) (bytes : Nat) : PoolInner :=
  let queue := (inner.bySender.lookup entry.tx.sender).getD ∅
  { ({ inner with
      byPriority := inner.byPriority.insert entry.priorityKey hash
      bySender := inner.bySender.insert entry.tx.sender (queue.insert entry.tx.tx.nonce hash)
      seq := inner.seq + 1 } : PoolInner).addReservations entry.tx with
    byHash := inner.byHash.insert hash entry
    totalBytes := bytes
    acceptedTotal := saturatingAdd inner.acceptedTotal 1 }

/-- The entry of a transaction that arrives now. -/
def newEntry (stx : SignedTransaction) (size : Nat) (root : Option ShellHash) : PoolEntry :=
  ⟨stx, ⟨-(stx.tx.maxPriorityFeePerGas : Int), inner.seq⟩, size, root⟩

/-- The hash that an insertion replaces, with the bytes of its entry. -/
def replaced (stx : SignedTransaction) : List ShellHash × Nat :=
  (inner.queued stx.sender stx.tx.nonce).toList.foldl inner.evictHash ([], 0)

/-- What an incoming transaction is compared with. -/
def incoming (stx : SignedTransaction) (size baseFee : Nat) : Incoming :=
  ⟨stx.sender, stx.tx.nonce, size, minerTip stx.tx.maxFeePerGas stx.tx.maxPriorityFeePerGas baseFee, baseFee⟩

/-- `insert`: every check comes before the first write. None when the evictions do not end within as many rounds as there
are entries, and one. -/
def insert (Γ : PoolCtx) (config : MempoolConfig) (view : PoolView) (verify : Verifier) (stx : SignedTransaction)
    (inner : PoolInner) : Option (Except MempoolError ShellHash × PoolInner) :=
  match inner.checkAdmission Γ config view verify stx with
  | .error e => some (.error e, inner)
  | .ok (size, baseFee, root) =>
    match inner.capacityEvictions config (incoming stx size baseFee) (inner.byHash.size + 1) (inner.replaced stx) with
    | none => none
    | some (.error e) => some (.error e, inner)
    | some (.ok (evicted, bytes)) =>
      match inner.ensurePendingBalanceAvailable view stx evicted, inner.nextSeq with
      | .error e, _ => some (.error e, inner)
      | .ok _, .error e => some (.error e, inner)
      | .ok _, .ok _ =>
        some (.ok (stx.hash Γ.toCtx),
          (inner.removeEntries evicted).addEntry (stx.hash Γ.toCtx) (inner.newEntry stx size root) bytes)

end PoolInner

/-! ## Calls -/

/-- The widths of the fields that the cost of a transaction is computed from. -/
structure Transaction.FeesInRange (tx : Transaction) : Prop where
  value : tx.value ≤ u256Max
  gasLimit : tx.gasLimit ≤ u64Max
  maxFeePerGas : tx.maxFeePerGas ≤ u64Max
  maxFeePerBlobGas : ∀ fee, tx.maxFeePerBlobGas = some fee → fee ≤ u64Max

/-- A call that changes the pool, with what it reads of the chain. -/
inductive PoolCall
  | insert (view : PoolView) (verify : Verifier) (stx : SignedTransaction) (inRange : stx.tx.FeesInRange)
  | remove (hash : ShellHash)
  | removeWithDescendants (hash : ShellHash)
  | removeBatch (hashes : List ShellHash)
  | pruneNonceTooLow (nonce : Address → Option Nat)
  | pruneRotatedRoots (account : Address → Option AccountPolicy)
  | clear

/-- The pool after a call. -/
def PoolCall.run (Γ : PoolCtx) (config : MempoolConfig) (inner : PoolInner) : PoolCall → PoolInner
  | .insert view verify stx _ => ((inner.insert Γ config view verify stx).map Prod.snd).getD inner
  | .remove hash => (inner.remove hash).2
  | .removeWithDescendants hash => (inner.removeWithDescendants hash).2
  | .removeBatch hashes => inner.removeBatch hashes
  | .pruneNonceTooLow nonce => (inner.pruneNonceTooLow nonce).2
  | .pruneRotatedRoots account => (inner.pruneRotatedRoots account).2
  | .clear => inner.clear

end ShellChain
