import ShellChain.Theorems.PendingPool

/-!
# What a full pool evicts

Room for a transaction is made by evicting queues from a transaction on that is outbid: its effective tip is below the
incoming one. Nothing else goes but the transaction that is replaced.
-/

namespace ShellChain

namespace PoolInner

variable {inner : PoolInner} {incoming : Incoming} {evicted : List ShellHash} {low hash x : ShellHash}

/-- The pool with one more transaction is beyond a limit. -/
def Exceeds (config : MempoolConfig) (inner : PoolInner) (size : Nat) : Prop :=
  config.maxPoolSize < inner.byHash.size + 1 ∨ config.maxPoolBytes < inner.totalBytes + size

/-- What holds of the evicted entries: the limits are kept without them; but for the one that is replaced, each stands at or
behind an evicted one that is outbid, and all behind it are evicted; no lower nonce of the sender is among them. -/
structure Fair (config : MempoolConfig) (inner : PoolInner) (incoming : Incoming) (evicted : List ShellHash) : Prop where
  room : ¬ Exceeds config (inner.removeEntries evicted) incoming.size
  outbid : ∀ hash ∈ evicted, inner.queued incoming.sender incoming.nonce ≠ some hash →
    ∃ low ∈ evicted, inner.Outbid incoming low ∧ inner.Follows low hash
  higher : ∀ hash ∈ evicted, ∀ entry, inner.byHash.lookup hash = some entry → entry.tx.sender = incoming.sender →
    incoming.nonce ≤ entry.tx.tx.nonce
  later : ∀ hash ∈ evicted, inner.queued incoming.sender incoming.nonce ≠ some hash →
    ∀ x, inner.Follows hash x → x ∈ evicted

/-- Every evicted entry is the one that is replaced, or goes with all that stands at or behind an outbid one. -/
def FromOutbid (inner : PoolInner) (incoming : Incoming) (evicted : List ShellHash) : Prop :=
  ∀ hash ∈ evicted, inner.queued incoming.sender incoming.nonce = some hash ∨
    ∃ low, inner.Outbid incoming low ∧ inner.Follows low hash ∧ ∀ x, inner.Follows low x → x ∈ evicted

theorem Follows.trans (h : inner.Follows low hash) (h' : inner.Follows hash x) : inner.Follows low x := by
  obtain ⟨entry, mid, he, hmid, hsender, hle⟩ := h
  obtain ⟨_, last, hmid', hlast, hsender', hle'⟩ := h'
  cases Option.some.inj (hmid.symm.trans hmid')
  exact ⟨entry, last, he, hlast, hsender'.trans hsender, hle.trans hle'⟩

theorem Outbid.follows (h : inner.Outbid incoming hash) : inner.Follows hash hash := by
  obtain ⟨entry, he, -⟩ := h
  exact ⟨entry, entry, he, he, rfl, Nat.le_refl _⟩

variable {Γ : PoolCtx} {config : MempoolConfig}

/-- The transaction that is replaced is the sender's own. -/
theorem Outbid.not_replaced (h : Sound Γ.toCtx config inner) (hout : inner.Outbid incoming hash) :
    inner.queued incoming.sender incoming.nonce ≠ some hash := by
  intro hq
  obtain ⟨entry, he, -, hown⟩ := hout
  obtain ⟨_, he', hslot⟩ := (h.indexed.queues (incoming.sender, incoming.nonce) hash).1 hq
  cases Option.some.inj (he.symm.trans he')
  obtain ⟨hsender, hnonce⟩ := Prod.mk.inj hslot
  exact hown ⟨hsender, hnonce.le⟩

/-- A round adds what stands at or behind an outbid transaction. -/
theorem FromOutbid.round (h : FromOutbid inner incoming evicted) {evicted' : List ShellHash}
    (hout : inner.Outbid incoming low) (hmem : ∀ x, x ∈ evicted' ↔ x ∈ evicted ∨ inner.Follows low x) :
    FromOutbid inner incoming evicted' := by
  intro hash hhash
  rcases (hmem hash).1 hhash with hold | hnew
  · refine (h hash hold).imp_right ?_
    rintro ⟨low', hout', hfollows, hall⟩
    exact ⟨low', hout', hfollows, fun x hx => (hmem x).2 (.inl (hall x hx))⟩
  · exact .inr ⟨low, hout, hnew, fun x hx => (hmem x).2 (.inr hx)⟩

theorem FromOutbid.later (h : FromOutbid inner incoming evicted) (hhash : hash ∈ evicted)
    (hother : inner.queued incoming.sender incoming.nonce ≠ some hash) (hx : inner.Follows hash x) : x ∈ evicted := by
  obtain ⟨low, -, hfollows, hall⟩ := (h hash hhash).resolve_left hother
  exact hall x (hfollows.trans hx)

theorem FromOutbid.fair (hs : Sound Γ.toCtx config inner) (h : FromOutbid inner incoming evicted)
    (hroom : ¬ Exceeds config (inner.removeEntries evicted) incoming.size) : Fair config inner incoming evicted := by
  refine ⟨hroom, ?_, ?_, fun hash hhash hother x hx => h.later hhash hother hx⟩
  · intro hash hhash hother
    obtain ⟨low, hout, hfollows, hall⟩ := (h hash hhash).resolve_left hother
    exact ⟨low, hall low hout.follows, hout, hfollows⟩
  · intro hash hhash entry he hsender
    rcases h hash hhash with hq | ⟨low, ⟨first, hfirst, -, hown⟩, ⟨_, _, hfirst', he', hsame, hle⟩, -⟩
    · obtain ⟨_, he', hslot⟩ := (hs.indexed.queues (incoming.sender, incoming.nonce) hash).1 hq
      cases Option.some.inj (he.symm.trans he')
      exact (congrArg Prod.snd hslot).ge
    · cases Option.some.inj (he.symm.trans he')
      cases Option.some.inj (hfirst.symm.trans hfirst')
      by_contra hlow
      exact hown ⟨hsame.symm.trans hsender, by omega⟩

end PoolInner

open PoolInner

/-- For a transaction that passed the earlier checks, in any pool that calls led to, the evictions come to an end. They are
fair, or the pool would be beyond a limit even without all that stands at or behind an outbid transaction. -/
theorem capacity_evictions_fair (Γ : PoolCtx) (config : MempoolConfig) (calls : List PoolCall) (view : PoolView)
    (verify : Verifier) (stx : SignedTransaction) {inner : PoolInner} (hinner : (poolSystem Γ config).run .empty calls = inner)
    (size baseFee : Nat) (root : Option ShellHash)
    (hcheck : inner.checkAdmission Γ config view verify stx = .ok (size, baseFee, root)) :
    (∃ evicted bytes, inner.capacityEvictions config (incoming stx size baseFee) (inner.byHash.size + 1)
        (inner.replaced stx) = some (.ok (evicted, bytes)) ∧ Fair config inner (incoming stx size baseFee) evicted) ∨
      ∃ e all, inner.capacityEvictions config (incoming stx size baseFee) (inner.byHash.size + 1) (inner.replaced stx) =
          some (.error e) ∧ Exceeds config (inner.removeEntries all) size ∧
        ∀ hash, hash ∈ all ↔ inner.queued stx.sender stx.tx.nonce = some hash ∨
          ∃ low, inner.Outbid (incoming stx size baseFee) low ∧ inner.Follows low hash := by
  have hs := hinner ▸ sound_run Γ config calls
  rcases capacityEvictions_spec hs (incoming stx size baseFee)
    (P := fun evicted => (inner.replaced stx).1 ⊆ evicted ∧ FromOutbid inner (incoming stx size baseFee) evicted)
    (fun _ _ _ hP hout hmem => ⟨fun x hx => (hmem x).2 (.inl (hP.1 hx)), hP.2.round hout hmem⟩) (inner.byHash.size + 1)
    (planned_replaced hs stx) ⟨List.Subset.refl _, fun hash hhash => .inl (mem_replaced.1 hhash)⟩ (by omega) with
    ⟨e, plan, herror, ⟨hsub, hfrom⟩, hstuck⟩ | ⟨evicted, bytes, hok, ⟨-, hfrom⟩, hroom⟩
  · refine .inr ⟨e, plan.1, herror, ?_, fun hash => ⟨fun hhash => ?_, ?_⟩⟩
    · obtain ⟨hcount, hbytes⟩ := hstuck.planned.removeEntries hs
      have hfull := hstuck.full
      change _ ∨ _ < _ - _ + size at hfull
      unfold Exceeds
      omega
    · refine (hfrom hash hhash).imp_right ?_
      rintro ⟨low, hout, hfollows, -⟩
      exact ⟨low, hout, hfollows⟩
    · rintro (hq | ⟨low, hout, hfollows⟩)
      · exact hsub (mem_replaced.2 hq)
      · exact hfrom.later (mem_of_evictionCandidate_eq_none hs.indexed hstuck.candidate hout) (hout.not_replaced hs) hfollows
  · refine .inl ⟨evicted, bytes, hok, hfrom.fair hs ?_⟩
    have hcount := hroom.count_le hs (checkAdmission_ok hcheck).1
    have hbytes := hroom.bytes_removeEntries hs
    have hle := hroom.bytes_le
    unfold Exceeds
    omega

namespace SponsoredPool

/-- Room for two transactions. -/
def tightLimits : MempoolConfig :=
  { limits with
    maxPoolSize := 2
    maxPoolSize_le := by decide }

/-- Two transfers of the sponsor, which pay no tip, fill the pool. -/
def fillingCalls : List PoolCall :=
  calls.tail

/-- A transfer of the other sender with a tip of five. -/
def tippedTransfer : SignedTransaction :=
  ⟨chainAddress senderKey, ⟨1337, 0, some (.repeatByte 0xcc), 7, [], 21000, 6, 5, none, 2, none, none⟩,
    ⟨.mlDsa65, [2]⟩, .reference, none⟩

/-- The other sender can pay for it. -/
def richView : PoolView :=
  { view with balance := fun _ => 1000000 }

theorem tippedTransfer_evicts : ∃ inner evicted bytes, (poolSystem ctx tightLimits).run .empty fillingCalls = inner ∧
    inner.byHash.size = 2 ∧ inner.capacityEvictions tightLimits (incoming tippedTransfer 1000 0) (inner.byHash.size + 1)
        (inner.replaced tippedTransfer) = some (.ok (evicted, bytes)) ∧
      evicted ≠ [] ∧ Fair tightLimits inner (incoming tippedTransfer 1000 0) evicted := by
  have hevicts : (capacityEvictions ((poolSystem ctx tightLimits).run .empty fillingCalls) tightLimits
      (incoming tippedTransfer 1000 0) 3 (replaced ((poolSystem ctx tightLimits).run .empty fillingCalls)
        tippedTransfer)).any (fun result => result.toOption.any fun plan => !plan.1.isEmpty) = true := by decide +kernel
  have hsize : ((poolSystem ctx tightLimits).run .empty fillingCalls).byHash.size = 2 := by decide +kernel
  rcases capacity_evictions_fair ctx tightLimits fillingCalls richView preVerified tippedTransfer rfl 1000 0
    (validatedRoot chainCtx richView tippedTransfer) (by decide +kernel) with ⟨evicted, bytes, hok, hfair⟩ | ⟨e, _, herror, _⟩
  · rw [hsize] at hok
    rw [hok] at hevicts
    refine ⟨_, evicted, bytes, rfl, hsize, by rw [hsize]; exact hok, ?_, hfair⟩
    rintro rfl
    cases hevicts
  · rw [hsize] at herror
    rw [herror] at hevicts
    cases hevicts

end SponsoredPool

end ShellChain
