import ShellChain.Production
import ShellChain.Lemmas.Body

/-!
# What a producer includes

The loop over the candidates keeps every property of a draft that one accepted candidate keeps, so what holds of all
included transactions is proved for one of them.
-/

namespace ShellChain

open Checks

variable {σ ρ : Type} {M : Machine σ ρ} {ctx : ExecContext}

/-- A proof is read back from its JSON text. -/
def Machine.ReadsSigProofs (M : Machine σ ρ) : Prop :=
  ∀ proof bytes, M.sigProofToJson proof = some bytes → M.sigProofFromJson bytes = some proof

/-- What the loop has checked of a candidate before it is validated. -/
structure Affordable (ctx : ExecContext) (maxTxs : Nat) (d : Draft σ ρ) (stx : SignedTransaction) (nextBlobGas : Nat) :
    Prop where
  room : d.included.length < maxTxs
  fits : txFitsRemainingBlockGas stx d.progress.cumulativeGas ctx.env.gasLimit = true
  baseFee : ctx.env.baseFeePerGas ≤ stx.tx.maxFeePerGas
  blobGas : checkedCumulativeBlobGas d.blobGasUsed stx.tx.blobGas = some nextBlobGas
  blobFee : paysBlobBaseFee stx (calcBlobGasPrice ctx.env.excessBlobGas) = true

variable {d final : Draft σ ρ} {candidates : List SignedTransaction} {maxTxs timestamp : Nat} {node : ChainNode σ ρ}
  {block : Block} {pubkey : Bytes} {sign : Bytes → PQSignature}

/-- A candidate is left out as it is, left out after its execution was rolled back, or included. -/
theorem tryCandidate_cases {next : Draft σ ρ} {stx : SignedTransaction} {nextBlobGas : Nat}
    (h : tryCandidate M ctx d stx nextBlobGas = .ok next) : next = d ∨
      (M.view ctx d.progress.state).validateTxForImport M.toCtx ctx.chainId M.verify
          (M.nonce d.progress.state.world stx.sender) stx = .ok () ∧
        ∃ after, ((M.execute ctx d.progress.state stx d.included.length d.progress.cumulativeGas = (after, none) ∨
          ∃ result, M.execute ctx d.progress.state stx d.included.length d.progress.cumulativeGas = (after, some result) ∧
            checkedCumulativeBlockGas d.progress.cumulativeGas result.gasUsed ctx.env.gasLimit = none) ∧
          next = d.rollback after ∨ ∃ result cumulativeGas,
          M.execute ctx d.progress.state stx d.included.length d.progress.cumulativeGas = (after, some result) ∧
          checkedCumulativeBlockGas d.progress.cumulativeGas result.gasUsed ctx.env.gasLimit = some cumulativeGas ∧
          next = ⟨d.progress.add ctx stx (after.registerEmbedded stx) result cumulativeGas, d.included ++ [stx],
            nextBlobGas⟩) := by
  simp only [tryCandidate] at h
  split at h
  · exact .inl (Except.ok.inj h).symm
  · rename_i hvalid
    refine .inr ⟨hvalid, ?_⟩
    split at h
    · rename_i after hexec
      exact ⟨after, .inl ⟨.inl hexec, (Except.ok.inj h).symm⟩⟩
    · rename_i after result hexec
      split_ifs at h
      refine ⟨after, ?_⟩
      split at h
      · rename_i hgas
        exact .inl ⟨.inr ⟨result, hexec, hgas⟩, (Except.ok.inj h).symm⟩
      · rename_i cumulativeGas hgas
        exact .inr ⟨result, cumulativeGas, hexec, hgas, (Except.ok.inj h).symm⟩

/-- The loop ends before a candidate, passes it over, or tries it. -/
theorem selectCandidates_cons (M : Machine σ ρ) (ctx : ExecContext) (maxTxs : Nat) (d : Draft σ ρ) (stx : SignedTransaction) :
    (∀ rest, selectCandidates M ctx maxTxs d (stx :: rest) = .ok d) ∨
      (∀ rest, selectCandidates M ctx maxTxs d (stx :: rest) = selectCandidates M ctx maxTxs d rest) ∨
      ∃ nextBlobGas, Affordable ctx maxTxs d stx nextBlobGas ∧ ∀ rest, selectCandidates M ctx maxTxs d (stx :: rest) =
        (tryCandidate M ctx d stx nextBlobGas >>= fun next => selectCandidates M ctx maxTxs next rest) := by
  by_cases hfull : maxTxs ≤ d.included.length ∨ ctx.env.gasLimit ≤ d.progress.cumulativeGas
  · exact .inl fun rest => by rw [selectCandidates, if_pos hfull]
  by_cases hskip : ¬ txFitsRemainingBlockGas stx d.progress.cumulativeGas ctx.env.gasLimit ∨
      stx.tx.maxFeePerGas < ctx.env.baseFeePerGas
  · exact .inr (.inl fun rest => by rw [selectCandidates, if_neg hfull, if_pos hskip])
  cases hblob : checkedCumulativeBlobGas d.blobGasUsed stx.tx.blobGas with
  | none => exact .inr (.inl fun rest => by rw [selectCandidates, if_neg hfull, if_neg hskip, hblob])
  | some nextBlobGas =>
    by_cases hpays : paysBlobBaseFee stx (calcBlobGasPrice ctx.env.excessBlobGas) = true
    · push Not at hfull hskip
      refine .inr (.inr ⟨nextBlobGas, ⟨hfull.1, hskip.1, hskip.2, hblob, hpays⟩, fun rest => ?_⟩)
      rw [selectCandidates, if_neg (by push Not; exact hfull), if_neg (by push Not; exact hskip), hblob]
      exact if_neg (not_not.mpr hpays)
    · refine .inr (.inl fun rest => ?_)
      rw [selectCandidates, if_neg hfull, if_neg hskip, hblob]
      exact if_pos hpays

/-- The invariant rule of the loop over the candidates: a step is taken by a candidate from the draft of those before it. -/
theorem selectCandidates_invariant {I : Draft σ ρ → Prop}
    (hstep : ∀ pre stx rest d' nextBlobGas next, candidates = pre ++ stx :: rest →
      selectCandidates M ctx maxTxs d pre = .ok d' → Affordable ctx maxTxs d' stx nextBlobGas → I d' →
      tryCandidate M ctx d' stx nextBlobGas = .ok next → I next) (hd : I d)
    (h : selectCandidates M ctx maxTxs d candidates = .ok final) : I final := by
  induction candidates generalizing d with
  | nil =>
    rw [selectCandidates, Except.ok.injEq] at h
    exact h ▸ hd
  | cons first rest ih =>
    rcases selectCandidates_cons M ctx maxTxs d first with hend | hskip | ⟨nextBlobGas, hafford, htry⟩
    · rw [hend, Except.ok.injEq] at h
      exact h ▸ hd
    · rw [hskip] at h
      exact ih (fun pre stx rest' d' _ _ heq hpre => hstep (first :: pre) stx rest' d' _ _ (by rw [heq]; rfl)
        ((hskip pre).trans hpre)) hd h
    · rw [htry, bind_ok_iff] at h
      obtain ⟨next, hnext, hrun⟩ := h
      refine ih (fun pre stx rest' d' _ _ heq hpre => hstep (first :: pre) stx rest' d' _ _ (by rw [heq]; rfl) ?_)
        (hstep [] first rest d _ _ rfl rfl hafford hd hnext) hrun
      rw [htry, hnext]
      exact hpre

/-- Every included transaction pays at least the base fee. -/
theorem baseFee_le_of_included (hd : ∀ stx ∈ d.included, ctx.env.baseFeePerGas ≤ stx.tx.maxFeePerGas)
    (h : selectCandidates M ctx maxTxs d candidates = .ok final) :
    ∀ stx ∈ final.included, ctx.env.baseFeePerGas ≤ stx.tx.maxFeePerGas := by
  refine selectCandidates_invariant (I := fun d => ∀ stx ∈ d.included, ctx.env.baseFeePerGas ≤ stx.tx.maxFeePerGas)
    ?_ hd h
  intro _ stx _ d nextBlobGas next _ _ hafford hd htry
  rcases tryCandidate_cases htry with rfl | ⟨-, after, ⟨-, rfl⟩ | ⟨result, cumulativeGas, -, -, rfl⟩⟩
  · exact hd
  · exact hd
  · exact List.forall_mem_append.mpr ⟨hd, List.forall_mem_singleton.mpr hafford.baseFee⟩

/-- The proposer is rewarded with one transaction at most, which settles nothing. -/
theorem starkRewards_of_rewardProducer {parentHash : ShellHash} {rewarded : Progress σ ρ × List SystemTransaction}
    (h : rewardProducer M ctx parentHash d = .ok rewarded) : (rewarded.2.filter fun tx => tx.kind = .starkReward) = [] := by
  unfold rewardProducer at h
  split at h
  · rw [← Except.ok.inj h, List.filter_nil]
  · have h := mapError_ok_iff.mp h
    unfold rewardProposer at h
    split at h
    · rw [← Except.ok.inj h, List.filter_nil]
    · split at h
      · cases h
      · rw [← Except.ok.inj h]
        rfl

theorem assembleSettlingBlock_ok {proposer : Address} {assembled : Assembled σ ρ}
    (h : assembleSettlingBlock M node timestamp maxTxs proposer candidates [] = .ok assembled) :
    let hdr := preliminaryHeader M.toCtx node.head (node.head.number + 1) timestamp proposer
    let ctx := node.execContext M.toCtx hdr
    ∃ draft rewarded final,
      selectCandidates M ctx (min maxTxs node.config.maxTxPerBlock) ⟨.start node.state, [], 0⟩ candidates = .ok draft ∧
      rewardProducer M ctx hdr.parentHash draft = .ok rewarded ∧
      applyPendingActivations M hdr.number rewarded.1.state = .ok final ∧
      assembled = ⟨⟨{ hdr with
        gasUsed := draft.progress.cumulativeGas
        blobGasUsed := draft.blobGasUsed
        logsBloom := blockBloom rewarded.1.receipts
        stateRoot := M.stateRoot final.world
        sigAggregateProof := sigCommitmentOf M node draft.included }, draft.included, rewarded.2, none⟩,
        ⟨final, rewarded.1.receipts, []⟩⟩ := by
  simp only [assembleSettlingBlock, bind_ok_iff, mapError_ok_iff, pure_ok_iff] at h
  obtain ⟨draft, hdraft, rewarded, hrewarded, settled, hsettled, final, hfinal, rfl⟩ := h
  obtain rfl := Except.ok.inj hsettled
  exact ⟨draft, rewarded, final, hdraft, hrewarded, hfinal, rfl⟩

/-- What a committed production has established. -/
structure ProducedBlock (M : Machine σ ρ) (sign : Bytes → PQSignature) (pubkey : Bytes) (node : ChainNode σ ρ)
    (timestamp maxTxs : Nat) (candidates : List SignedTransaction) (pending : List ProofAmendment)
    (produced : ChainNode σ ρ) (block : Block) (proposer : Address) : Prop where
  proposer_eq : node.config.proposerAddress = some proposer
  room : (checkedAdd node.head.number 1).isSome = true
  turn : node.engine.proposerForBlock (node.head.number + 1) = proposer
  parent : (node.canonical (node.head.number + 1)).isSome = false ∧
    node.finality.lastFinalizedNumber ≤ node.head.number
  assembled : ∃ assembled, assembleSettlingBlock M node timestamp maxTxs proposer candidates pending = .ok assembled ∧
    block = { assembled.block with proposerSeal := some (sign (assembled.block.hash M.toCtx).bytes) } ∧
    produced = (({ node with
      knownAuthorities := Function.update node.knownAuthorities block.header.proposer (some pubkey) }).commitCanonical
        M.toCtx block assembled.processed).recordSettledSources assembled.processed.settlements

theorem produceSettlingBlock_ok {pending : List ProofAmendment} {produced : ChainNode σ ρ}
    (h : produceSettlingBlock M sign pubkey node timestamp maxTxs candidates pending = .ok (produced, block)) :
    ∃ proposer, ProducedBlock M sign pubkey node timestamp maxTxs candidates pending produced block proposer := by
  unfold produceSettlingBlock at h
  split at h
  · cases h
  · rename_i proposer hproposer
    simp only [bind_ok_iff, ensure_ok_iff, pure_ok_iff, decide_eq_true_eq] at h
    obtain ⟨_, hroom, _, hturn, _, hparent, assembled, hassembled, h⟩ := h
    obtain ⟨rfl, rfl⟩ := Prod.mk.inj h
    -- a safe parent is not below the finalized block
    have hsafe : (node.canonical (node.head.number + 1)).isSome = false ∧
        node.finality.lastFinalizedNumber ≤ node.head.number := by
      unfold ensureProductionParent at hparent
      split_ifs at hparent with hnext hzero hbehind
      · exact ⟨by simpa using hnext, by omega⟩
      · exact ⟨by simpa using hnext, by omega⟩
    exact ⟨proposer, hproposer, hroom, hturn, hsafe, assembled, hassembled, rfl, rfl⟩

end ShellChain
