import ShellChain.Lemmas.Production

/-!
# The draft of a producer replays

The producer tries the candidates one by one, and registers the key that an included transaction embeds at once. The importer
stages such keys from the parent state and registers them after the block. As long as the two have run alike, the state of
the producer is that of the importer with the staged keys registered; this relation is carried along the candidates.
-/

namespace ShellChain

open Checks

variable {σ ρ : Type} {M : Machine σ ρ} {ctx : ExecContext}

/-! ## Passes over the transactions before another one -/

section

variable {index : Nat} {keys : KeyTable} {stx : SignedTransaction} {transactions others : List SignedTransaction}
  {k : KeyStage} {v : ValidationView} {Γ : Ctx}

theorem executeTxs_append {p q : Progress σ ρ} : executeTxs M ctx keys index p (transactions ++ others) = .ok q ↔
    ∃ r, executeTxs M ctx keys index p transactions = .ok r ∧
      executeTxs M ctx keys (index + transactions.length) r others = .ok q := by
  induction transactions generalizing index p with
  | nil => simp [executeTxs]
  | cons first rest ih =>
    simp only [List.cons_append, executeTxs, bind_ok_iff, ih, List.length_cons, Nat.add_assoc, Nat.add_comm 1]
    constructor
    · rintro ⟨a, ha, r, hr, hq⟩
      exact ⟨r, ⟨a, ha, hr⟩, hq⟩
    · rintro ⟨r, ⟨a, ha, hr⟩, hq⟩
      exact ⟨a, ha, r, hr, hq⟩

theorem executeTxs_singleton {p q : Progress σ ρ} :
    executeTxs M ctx keys index p [stx] = .ok q ↔ executeTx M ctx keys index p stx = .ok q := by
  simp only [executeTxs, bind_ok_iff, Except.ok.injEq, exists_eq_right]

theorem signingKeys_append {r : KeyStage × List (SignedTransaction × Bytes)} :
    signingKeys Γ v k (transactions ++ others) = .ok r ↔ ∃ first rest, signingKeys Γ v k transactions = .ok first ∧
      signingKeys Γ v first.1 others = .ok rest ∧ (rest.1, first.2 ++ rest.2) = r := by
  induction transactions generalizing k r with
  | nil =>
    simp only [List.nil_append, signingKeys, Except.ok.injEq]
    exact ⟨fun h => ⟨(k, []), r, rfl, h, rfl⟩, by rintro ⟨_, _, rfl, h, rfl⟩; exact h⟩
  | cons stx tail ih =>
    simp only [List.cons_append, signingKeys, bind_ok_iff, pure_ok_iff, ih]
    constructor
    · rintro ⟨staged, hstaged, _, ⟨first, rest, hfirst, hrest, rfl⟩, rfl⟩
      exact ⟨_, rest, ⟨staged, hstaged, first, hfirst, rfl⟩, hrest, by rw [List.append_assoc]⟩
    · rintro ⟨_, rest, ⟨staged, hstaged, first, hfirst, rfl⟩, hrest, rfl⟩
      exact ⟨staged, hstaged, _, ⟨first, rest, hfirst, hrest, rfl⟩, by rw [List.append_assoc]⟩

theorem signingKeys_singleton {r : KeyStage × Option Bytes} (h : signingKey Γ v k stx = .ok r) :
    signingKeys Γ v k [stx] = .ok (r.1, r.2.toList.map fun key => (stx, key)) := by
  simp only [signingKeys, bind_ok_iff, pure_ok_iff]
  exact ⟨r, h, (r.1, []), rfl, by rw [List.append_nil]⟩

theorem cumulativeBlobGas_concat {number fee used used' next : Nat}
    (h : cumulativeBlobGas number fee index used transactions = .ok used')
    (hgas : checkedCumulativeBlobGas used' stx.tx.blobGas = some next) (hpays : paysBlobBaseFee stx fee = true) :
    cumulativeBlobGas number fee index used (transactions ++ [stx]) = .ok next := by
  induction transactions generalizing index used with
  | nil =>
    rw [cumulativeBlobGas, Except.ok.injEq] at h
    simp only [List.nil_append, cumulativeBlobGas, h, hgas, bind_ok_iff, ensure_ok_iff]
    exact ⟨(), hpays, trivial⟩
  | cons first rest ih =>
    rw [cumulativeBlobGas] at h
    rw [List.cons_append, cumulativeBlobGas]
    split at h
    · cases h
    · simp only [bind_ok_iff] at h ⊢
      obtain ⟨u, hfirst, hrest⟩ := h
      exact ⟨u, hfirst, ih hrest⟩

end

/-- The draft has room and its blob gas is that of its transactions. -/
theorem blobGas_of_selectCandidates {parent : ExecState σ ρ} {candidates : List SignedTransaction} {maxTxs : Nat}
    {final : Draft σ ρ} (h : selectCandidates M ctx maxTxs ⟨.start parent, [], 0⟩ candidates = .ok final) :
    final.included.length ≤ maxTxs ∧
      cumulativeBlobGas ctx.env.number (calcBlobGasPrice ctx.env.excessBlobGas) 0 0 final.included =
        .ok final.blobGasUsed := by
  refine selectCandidates_invariant (I := fun d => d.included.length ≤ maxTxs ∧
    cumulativeBlobGas ctx.env.number (calcBlobGasPrice ctx.env.excessBlobGas) 0 0 d.included = .ok d.blobGasUsed)
    ?_ ⟨Nat.zero_le _, rfl⟩ h
  intro _ stx _ d nextBlobGas next _ _ hafford hd htry
  rcases tryCandidate_cases htry with rfl | ⟨-, after, ⟨-, rfl⟩ | ⟨result, cumulativeGas, -, -, rfl⟩⟩
  · exact hd
  · exact hd
  · refine ⟨?_, cumulativeBlobGas_concat hd.2 hafford.blobGas hafford.blobFee⟩
    rw [List.length_append]
    exact hafford.room

/-! ## Keys registered after the block -/

section

variable {s : ExecState σ ρ} {staged : KeyTable}

@[simp]
theorem ExecState.registerNew_empty (s : ExecState σ ρ) : s.registerNew .empty = s := by
  simp [registerNew, KeyTable.empty]

/-- The progress with keys registered. -/
def Progress.registerNew (p : Progress σ ρ) (newPubkeys : KeyTable) : Progress σ ρ :=
  { p with state := p.state.registerNew newPubkeys }

theorem rewardProposer_registerNew (p : Progress σ ρ) (staged : KeyTable) (parentHash : ShellHash) (txIndex : Nat) :
    rewardProposer M ctx parentHash txIndex (p.registerNew staged) =
      (rewardProposer M ctx parentHash txIndex p).map fun r => (r.1.registerNew staged, r.2) := by
  unfold rewardProposer
  by_cases hfees : p.fees = 0
  · rw [if_pos hfees, if_pos (show (p.registerNew staged).fees = 0 from hfees)]
    rfl
  · rw [if_neg hfees, if_neg (show (p.registerNew staged).fees ≠ 0 from hfees)]
    have hworld : (p.registerNew staged).state.world = p.state.world := rfl
    have hsame : (p.registerNew staged).fees = p.fees := rfl
    rw [hworld, hsame]
    cases M.addBalance p.state.world ctx.env.proposer p.fees with
    | none => rfl
    | some world => rfl

theorem applyPendingActivations_registerNew (number : Nat) (s : ExecState σ ρ) (staged : KeyTable) :
    applyPendingActivations M number (s.registerNew staged) =
      (applyPendingActivations M number s).map fun t => t.registerNew staged := by
  unfold applyPendingActivations
  have hworld : (s.registerNew staged).world = s.world := rfl
  have hregistry : (s.registerNew staged).registry = s.registry := rfl
  rw [hworld, hregistry]
  cases M.processPendingActivations number s.world s.registry with
  | none => rfl
  | some next => rfl

/-- The importer stages a key for the sender of the transaction: no custom validator, no governance fallback key and no
registered key. -/
structure ValidationView.FirstUse (Γ : Ctx) (v : ValidationView) (stx : SignedTransaction) : Prop where
  builtIn : (v.account stx.sender).bind AccountPolicy.validationCodeHash = none
  noFallback : v.governanceFallbackPubkey Γ stx = none
  unregistered : v.pubkey stx.sender = none

theorem ExecState.registerEmbedded_of_isSome {stx : SignedTransaction} (h : s.pubkeys stx.sender ≠ none) :
    s.registerEmbedded stx = s := by
  unfold registerEmbedded
  split
  · exact if_neg (by simpa using h)
  · rfl

/-- Where the importer stages the keys that the producer registers, one more transaction leaves the states alike. -/
theorem registerEmbedded_of_signingKey {Γ : Ctx} {v : ValidationView} {k k' : KeyStage} {stx : SignedTransaction}
    {key : Option Bytes} (h : signingKey Γ v k stx = .ok (k', key))
    (hfirst : ∀ pubkey, stx.pubkeyMode = .embedded pubkey → (s.registerNew k.newPubkeys).pubkeys stx.sender = none →
      v.FirstUse Γ stx) :
    (s.registerNew k.newPubkeys).registerEmbedded stx = s.registerNew k'.newPubkeys := by
  -- a transaction that stages nothing embeds no key of an unknown sender
  have hkeep : ¬ v.FirstUse Γ stx →
      (s.registerNew k.newPubkeys).registerEmbedded stx = s.registerNew k.newPubkeys := by
    intro hnot
    cases hmode : stx.pubkeyMode with
    | reference => simp only [ExecState.registerEmbedded, hmode]
    | embedded pubkey => exact ExecState.registerEmbedded_of_isSome fun hnone => hnot (hfirst pubkey hmode hnone)
  unfold signingKey at h
  split at h
  · rename_i hcustom
    obtain ⟨rfl, -⟩ := Prod.mk.inj (Except.ok.inj h)
    exact hkeep fun huse => by simp [huse.builtIn] at hcustom
  split at h
  · rename_i hfallback
    obtain ⟨rfl, -⟩ := Prod.mk.inj (Except.ok.inj h)
    exact hkeep fun huse => by simp [huse.noFallback] at hfallback
  split at h
  · rename_i pubkey hmode
    simp only [bind_ok_iff, pure_ok_iff] at h
    obtain ⟨_, -, h⟩ := h
    obtain ⟨rfl, -⟩ := Prod.mk.inj h
    by_cases hnone : v.pubkey stx.sender = none
    · simp only [ExecState.registerEmbedded, hmode, ExecState.registerNew, KeyStage.stage, hnone, Option.isNone_none, if_true,
        KeyTable.orInsert, Option.isNone_iff_eq_none]
      split
      · rename_i hunknown
        obtain ⟨hs, hk⟩ : s.pubkeys stx.sender = none ∧ k.newPubkeys stx.sender = none := by
          simpa [Option.orElse_eq_or] using hunknown
        congr 1
        funext a
        by_cases ha : a = stx.sender
        · simp [ha, hs, hk]
        · simp [ha]
      · rename_i hknown
        congr 1
        funext a
        by_cases ha : a = stx.sender
        · subst ha
          cases hs : s.pubkeys stx.sender with
          | some found => rfl
          | none =>
            cases hk : k.newPubkeys stx.sender with
            | some found => simp
            | none => exact absurd (by simp [hs, hk]) hknown
        · simp [ha]
    · rw [hkeep fun huse => hnone huse.unregistered, KeyStage.stage,
        if_neg (by simpa using hnone)]
  · rename_i hmode
    have hstaged : k' = k := by
      split at h
      · cases h
      · simp only [bind_ok_iff, pure_ok_iff] at h
        obtain ⟨_, -, h⟩ := h
        exact (Prod.mk.inj h).1.symm
    simp only [ExecState.registerEmbedded, hmode, hstaged]

end

/-! ## Producer and importer side by side -/

section

variable (M ctx) (parent : ExecState σ ρ)

/-- What the importer checks of the transactions of a block before it executes them: the keys and signatures, the policy in
the parent state, and each transaction in the state it has reached. -/
structure AcceptedByImporter (transactions : List SignedTransaction) : Prop where
  signatures : ∃ keys, signingKeys M.toCtx (M.view ctx parent) ⟨.empty, .empty⟩ transactions = .ok keys ∧
    verifyBatchAll M.toCtx keys.2 = true
  policy : validateInParentState M preVerified ctx parent .empty (fun _ => none) transactions = .ok ()
  current : ∀ pre stx rest p, transactions = pre ++ stx :: rest →
    executeTxs M ctx (embeddedPubkeys transactions) 0 (.start parent) pre = .ok p →
    validateInCurrentState M ctx (embeddedPubkeys transactions) p.state stx = .ok ()

/-- The producer is about to execute a candidate, and an importer of what the draft includes has run alike so far: it has
come to the same progress but for the keys that it has staged. -/
structure TriedAlike (maxTxs : Nat) (candidates : List SignedTransaction) (keys : KeyTable) (d : Draft σ ρ) (k : KeyStage)
    (p : Progress σ ρ) (stx : SignedTransaction) : Prop where
  drafted : ∃ pre rest, candidates = pre ++ stx :: rest ∧
    selectCandidates M ctx maxTxs ⟨.start parent, [], 0⟩ pre = .ok d
  affordable : ∃ nextBlobGas, Affordable ctx maxTxs d stx nextBlobGas
  valid : (M.view ctx d.progress.state).validateTxForImport M.toCtx ctx.chainId M.verify
    (M.nonce d.progress.state.world stx.sender) stx = .ok ()
  staged : ∃ batch, signingKeys M.toCtx (M.view ctx parent) ⟨.empty, .empty⟩ d.included = .ok (k, batch)
  replayed : executeTxs M ctx keys 0 (.start parent) d.included = .ok p
  progress : d.progress = p.registerNew k.newPubkeys

/-- The execution of a candidate by the producer, and whether its gas leaves it in the block. -/
def executeCandidate (d : Draft σ ρ) (stx : SignedTransaction) : ExecState σ ρ × Option (ExecResult × Nat) :=
  let (after, outcome) := M.execute ctx d.progress.state stx d.included.length d.progress.cumulativeGas
  (after, outcome.bind fun result =>
    (checkedCumulativeBlockGas d.progress.cumulativeGas result.gasUsed ctx.env.gasLimit).map (result, ·))

/-- Along production no difference between producer and importer is made or seen. -/
structure KeysUnseen (maxTxs : Nat) (candidates : List SignedTransaction) (keys : KeyTable) : Prop where
  /-- A candidate that is executed and not kept leaves no metadata behind. -/
  leftOut : ∀ d k p stx after, TriedAlike M ctx parent maxTxs candidates keys d k p stx →
    executeCandidate M ctx d stx = (after, none) →
    after.pubkeys = d.progress.state.pubkeys ∧ after.recovery = d.progress.state.recovery ∧
      after.registry = d.progress.state.registry
  /-- A key that the producer registers is one that the importer stages. -/
  registered : ∀ d k p stx after kept pubkey, TriedAlike M ctx parent maxTxs candidates keys d k p stx →
    executeCandidate M ctx d stx = (after, some kept) → stx.pubkeyMode = .embedded pubkey →
    after.pubkeys stx.sender = none → (M.view ctx parent).FirstUse M.toCtx stx
  /-- The execution of a kept candidate does not see the keys that the importer has only staged. -/
  executed : ∀ d k p stx after kept, TriedAlike M ctx parent maxTxs candidates keys d k p stx →
    executeCandidate M ctx d stx = (after, some kept) →
    ∃ after', M.execute ctx p.state stx d.included.length p.cumulativeGas = (after', some kept.1) ∧
      after'.registerNew k.newPubkeys = after

/-- The importer of what a draft includes runs alike. -/
def RunsAlike (keys : KeyTable) (d : Draft σ ρ) : Prop :=
  ∃ k batch p, signingKeys M.toCtx (M.view ctx parent) ⟨.empty, .empty⟩ d.included = .ok (k, batch) ∧
    executeTxs M ctx keys 0 (.start parent) d.included = .ok p ∧ d.progress = p.registerNew k.newPubkeys

end

section

variable {parent : ExecState σ ρ} {candidates transactions pre rest : List SignedTransaction} {maxTxs : Nat} {d : Draft σ ρ}
  {stx : SignedTransaction} {nextBlobGas : Nat}

/-- A block whose transactions the importer executes is accepted by its checks. -/
theorem acceptedByImporter_of_executed {keys : KeyStage × List (SignedTransaction × Bytes)} {q : Progress σ ρ}
    (hkeys : signingKeys M.toCtx (M.view ctx parent) ⟨.empty, .empty⟩ transactions = .ok keys)
    (hbatch : verifyBatchAll M.toCtx keys.2 = true)
    (hpolicy : validateInParentState M preVerified ctx parent .empty (fun _ => none) transactions = .ok ())
    (hexec : executeTxs M ctx (embeddedPubkeys transactions) 0 (.start parent) transactions = .ok q) :
    AcceptedByImporter M ctx parent transactions := by
  refine ⟨⟨keys, hkeys, hbatch⟩, hpolicy, fun pre stx rest p htxs hpre => ?_⟩
  generalize embeddedPubkeys transactions = table at hexec hpre ⊢
  subst htxs
  obtain ⟨p', hpre', hrest⟩ := executeTxs_append.mp hexec
  obtain rfl : p = p' := Except.ok.inj (hpre.symm.trans hpre')
  simp only [executeTxs, executeTx, bind_ok_iff, mapError_ok_iff] at hrest
  obtain ⟨_, ⟨_, -, _, hvalid, -⟩, -⟩ := hrest
  exact hvalid

variable (haccepted : AcceptedByImporter M ctx parent transactions)
  (hunseen : KeysUnseen M ctx parent maxTxs candidates (embeddedPubkeys transactions))

include haccepted hunseen

/-- One tried candidate: as long as the draft is a part of the block, the importer runs alike. -/
theorem RunsAlike.tryCandidate (hcandidates : candidates = pre ++ stx :: rest)
    (hdrafted : selectCandidates M ctx maxTxs ⟨.start parent, [], 0⟩ pre = .ok d)
    (hafford : Affordable ctx maxTxs d stx nextBlobGas)
    (hd : d.included <+: transactions → RunsAlike M ctx parent (embeddedPubkeys transactions) d) {next : Draft σ ρ}
    (htry : tryCandidate M ctx d stx nextBlobGas = .ok next) (hnext : next.included <+: transactions) :
    RunsAlike M ctx parent (embeddedPubkeys transactions) next := by
  have htried : ∀ k batch p, signingKeys M.toCtx (M.view ctx parent) ⟨.empty, .empty⟩ d.included = .ok (k, batch) →
      executeTxs M ctx (embeddedPubkeys transactions) 0 (.start parent) d.included = .ok p →
      d.progress = p.registerNew k.newPubkeys →
      (M.view ctx d.progress.state).validateTxForImport M.toCtx ctx.chainId M.verify
        (M.nonce d.progress.state.world stx.sender) stx = .ok () →
      TriedAlike M ctx parent maxTxs candidates (embeddedPubkeys transactions) d k p stx :=
    fun k batch p hkeys hexec hprogress hvalid =>
      ⟨⟨pre, rest, hcandidates, hdrafted⟩, ⟨nextBlobGas, hafford⟩, hvalid, ⟨batch, hkeys⟩, hexec, hprogress⟩
  rcases tryCandidate_cases htry with rfl | ⟨hvalid, after, ⟨hfail, rfl⟩ | ⟨result, cumulativeGas, hexec, hgas, rfl⟩⟩
  · exact hd hnext
  · -- a candidate that leaves nothing behind is no step
    obtain ⟨k, batch, p, hkeys, hrun, hprogress⟩ := hd hnext
    have houtcome : executeCandidate M ctx d stx = (after, none) := by
      rcases hfail with hfail | ⟨result, hfail, hgas⟩
      · simp only [executeCandidate, hfail, Option.bind_none]
      · simp only [executeCandidate, hfail, Option.bind_some, hgas, Option.map_none]
    obtain ⟨hpubkeys, hrecovery, hregistry⟩ :=
      hunseen.leftOut d k p stx after (htried k batch p hkeys hrun hprogress hvalid) houtcome
    refine ⟨k, batch, p, hkeys, hrun, ?_⟩
    rw [Draft.rollback, hpubkeys, hrecovery, hregistry]
    exact hprogress
  · obtain ⟨tail, htail⟩ := hnext
    have htxs : transactions = d.included ++ stx :: tail := by
      rw [← htail, List.append_assoc]
      rfl
    obtain ⟨k, batch, p, hkeys, hrun, hprogress⟩ := hd ⟨stx :: tail, htxs.symm⟩
    have htriedAt := htried k batch p hkeys hrun hprogress hvalid
    have houtcome : executeCandidate M ctx d stx = (after, some (result, cumulativeGas)) := by
      simp only [executeCandidate, hexec, Option.bind_some, hgas, Option.map_some]
    obtain ⟨after', hexec', rfl⟩ := hunseen.executed d k p stx _ _ htriedAt houtcome
    -- the keys of one more transaction are found as those of the block are
    obtain ⟨⟨blockKeys, hblock, -⟩, -, hcurrent⟩ := haccepted
    rw [htxs] at hblock
    obtain ⟨first, others, hfirst, hothers, -⟩ := signingKeys_append.mp hblock
    obtain rfl : (k, batch) = first := Except.ok.inj (hkeys.symm.trans hfirst)
    simp only [signingKeys, bind_ok_iff, pure_ok_iff] at hothers
    obtain ⟨⟨k', key⟩, hstaged, _, -, -⟩ := hothers
    refine ⟨k', _, p.add ctx stx after' result cumulativeGas,
      signingKeys_append.mpr ⟨_, _, hkeys, signingKeys_singleton hstaged, rfl⟩, ?_, ?_⟩
    · refine executeTxs_append.mpr ⟨p, hrun, executeTxs_singleton.mpr ?_⟩
      have hgasEq : d.progress.cumulativeGas = p.cumulativeGas := by rw [hprogress]; rfl
      have hfits := hafford.fits
      rw [hgasEq] at hgas hfits
      simp only [executeTx, bind_ok_iff, ensure_ok_iff, mapError_ok_iff, Nat.zero_add, hexec', hgas]
      exact ⟨(), hfits, (), hcurrent _ _ _ p htxs hrun, rfl⟩
    · have hregistered := registerEmbedded_of_signingKey hstaged fun pubkey hmode hnone =>
        hunseen.registered d k p stx _ _ pubkey htriedAt houtcome hmode hnone
      simp only [Progress.add, Progress.registerNew, hprogress, hregistered]

/-- The importer of a produced block runs alike to its end. -/
theorem RunsAlike.selectCandidates {final : Draft σ ρ}
    (h : selectCandidates M ctx maxTxs ⟨.start parent, [], 0⟩ candidates = .ok final) (hfinal : final.included = transactions) :
    RunsAlike M ctx parent (embeddedPubkeys transactions) final := by
  refine selectCandidates_invariant
    (I := fun d => d.included <+: transactions → RunsAlike M ctx parent (embeddedPubkeys transactions) d)
    (fun _ _ _ _ _ _ hcandidates hdrafted hafford hd htry hnext =>
      RunsAlike.tryCandidate haccepted hunseen hcandidates hdrafted hafford hd htry hnext)
    (fun _ => ⟨⟨.empty, .empty⟩, [], .start parent, rfl, rfl, ?_⟩) h (hfinal ▸ List.prefix_rfl)
  simp [Progress.registerNew, Progress.start]

end

end ShellChain
