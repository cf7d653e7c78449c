import ShellChain.Import

/-!
# What an accepted block has passed

One inversion lemma for each function on the import path: what holds when it succeeds, and what it returns.
-/

namespace ShellChain

open Checks

variable {σ ρ : Type} {M : Machine σ ρ} {ctx : ExecContext} {sv : SettlementView}
  {index now : Nat} {keys : KeyTable} {p q : Progress σ ρ} {stx : SignedTransaction}
  {transactions : List SignedTransaction} {k : KeyStage} {v : ValidationView} {Γ : Ctx} {block parent : Block}
  {e : Executed σ ρ} {s : ExecState σ ρ} {settlements : List ProofAmendment} {processed : Processed σ ρ}
  {node next : ChainNode σ ρ} {finalizedImport : Bool} {pubkey : Bytes}

/-- The gas of the executed transactions stays in the limit of the block. -/
theorem executeTxs_cumulativeGas_le (h : executeTxs M ctx keys index p transactions = .ok q)
    (hp : p.cumulativeGas ≤ ctx.env.gasLimit) : q.cumulativeGas ≤ ctx.env.gasLimit := by
  induction transactions generalizing index p with
  | nil =>
    rw [executeTxs, Except.ok.injEq] at h
    exact h ▸ hp
  | cons stx rest ih =>
    simp only [executeTxs, bind_ok_iff] at h
    obtain ⟨next, hnext, hrest⟩ := h
    simp only [executeTx, bind_ok_iff] at hnext
    obtain ⟨_, -, _, -, hnext⟩ := hnext
    split at hnext
    · exact absurd hnext throw_ne_ok
    split at hnext
    · exact absurd hnext throw_ne_ok
    · rename_i cumulativeGas hgas
      obtain rfl := pure_ok_iff.mp hnext
      exact ih hrest (of_decide_eq_true (Option.filter_eq_some_iff.mp hgas).2)

/-! ## The body -/

/-- A transaction of a sender without a custom validator has a key in the batch. -/
theorem signingKey_isSome {r : KeyStage × Option Bytes} (h : signingKey Γ v k stx = .ok r)
    (hv : (v.account stx.sender).bind AccountPolicy.validationCodeHash = none) : ∃ key, r.2 = some key := by
  unfold signingKey at h
  rw [hv, Option.isSome_none, if_neg Bool.false_ne_true] at h
  split at h
  · exact ⟨_, by rw [← Except.ok.inj h]⟩
  · split at h
    · simp only [bind_ok_iff, pure_ok_iff] at h
      obtain ⟨key, -, rfl⟩ := h
      exact ⟨key, rfl⟩
    · split at h
      · cases h
      · simp only [bind_ok_iff, pure_ok_iff] at h
        obtain ⟨key, -, rfl⟩ := h
        exact ⟨key, rfl⟩

theorem mem_signingKeys {r : KeyStage × List (SignedTransaction × Bytes)} (h : signingKeys Γ v k transactions = .ok r)
    (hmem : stx ∈ transactions) (hv : (v.account stx.sender).bind AccountPolicy.validationCodeHash = none) :
    ∃ key, (stx, key) ∈ r.2 := by
  induction transactions generalizing k r with
  | nil => cases hmem
  | cons first rest ih =>
    simp only [signingKeys, bind_ok_iff, pure_ok_iff] at h
    obtain ⟨staged, hfirst, others, hothers, rfl⟩ := h
    rcases List.mem_cons.mp hmem with rfl | hrest
    · obtain ⟨key, hkey⟩ := signingKey_isSome hfirst hv
      exact ⟨key, by simp [hkey]⟩
    · obtain ⟨key, hkey⟩ := ih hothers hrest
      exact ⟨key, List.mem_append_right _ hkey⟩

/-- What the execution of a body with transactions or settlements has passed. -/
theorem executeFullBody_ok (h : executeFullBody M ctx sv s block settlements = .ok e) :
    ∃ keys executed rewarded settled final,
      signingKeys M.toCtx (M.view ctx s) ⟨.empty, .empty⟩ block.transactions = .ok keys ∧
      verifyBatchAll M.toCtx keys.2 = true ∧
      validateInParentState M preVerified ctx s .empty (fun _ => none) block.transactions = .ok () ∧
      executeTxs M ctx (embeddedPubkeys block.transactions) 0 (.start s) block.transactions = .ok executed ∧
      executed.cumulativeGas = block.header.gasUsed ∧
      rewardProposer M ctx block.header.parentHash block.transactions.length executed = .ok rewarded ∧
      settleRewards M ctx sv (block.transactions.length + rewarded.2.length) rewarded.1 settlements = .ok settled ∧
      rewarded.2 ++ settled.2 = block.systemTransactions ∧
      applyPendingActivations M block.number settled.1.state = .ok final ∧
      e = ⟨final, settled.1.receipts, keys.1.newPubkeys⟩ := by
  simp only [executeFullBody, bind_ok_iff, ensure_ok_iff, pure_ok_iff, decide_eq_true_eq] at h
  obtain ⟨keys, hkeys, _, hbatch, _, hparent, executed, hexecuted, _, hgas, rewarded, hrewarded, settled, hsettled, _,
    hsystem, final, hfinal, rfl⟩ := h
  exact ⟨keys, executed, rewarded, settled, final, hkeys, hbatch, hparent, hexecuted, hgas, hrewarded, hsettled, hsystem,
    hfinal, rfl⟩

/-- The settlements of a block are decoded from the payloads of its reward transactions. -/
theorem map_some_settlements {registry : AlgorithmRegistry} (h : checkedSettlements M sv registry block = .ok settlements) :
    settlements.map some = block.starkRewards.map fun tx => tx.proofPayload.bind M.amendmentFromJson := by
  simp only [checkedSettlements, bind_ok_iff, pure_ok_iff] at h
  obtain ⟨_, -, _, -, decoded, hdecoded, _, -, _, -, rfl⟩ := h
  refine map_eq_of_mapM_ok (fun tx a ha => ?_) hdecoded
  unfold decodeSettlement at ha
  split at ha
  · cases ha
  · rename_i payload hpayload
    split at ha
    · cases ha
    · rename_i decoded' hjson
      simp only [bind_ok_iff, pure_ok_iff] at ha
      obtain ⟨_, -, rfl⟩ := ha
      rw [hpayload, Option.bind_some, hjson]

/-- What the processing of a block has established. -/
structure ProcessedBlock (M : Machine σ ρ) (ctx : ExecContext) (sv : SettlementView) (s : ExecState σ ρ) (block : Block)
    (processed : Processed σ ρ) : Prop where
  settled : checkedSettlements M sv s.registry block = .ok processed.settlements
  executed : ∃ e : Executed σ ρ, executeBody M ctx sv s block processed.settlements = .ok e ∧
    verifyImportLogsBloom block e.receipts = .ok () ∧ M.stateRoot e.state.world = block.header.stateRoot ∧
    processed.state = e.state.registerNew e.newPubkeys ∧ processed.receipts = e.receipts

theorem processBlock_ok (h : processBlock M ctx sv s block = .ok processed) : ProcessedBlock M ctx sv s block processed := by
  simp only [processBlock, bind_ok_iff, ensure_ok_iff, pure_ok_iff, decide_eq_true_eq] at h
  obtain ⟨settlements, hsettled, e, he, _, hbloom, _, hroot, rfl⟩ := h
  exact ⟨hsettled, e, he, hbloom, hroot, rfl, rfl⟩

/-- The gas a processed block states is at most its limit. -/
theorem gasUsed_le_of_processBlock (h : processBlock M ctx sv s block = .ok processed) :
    block.header.gasUsed ≤ ctx.env.gasLimit := by
  obtain ⟨e, hbody, -⟩ := (processBlock_ok h).executed
  unfold executeBody at hbody
  split at hbody
  · simp only [executeEmptyBody, bind_ok_iff, ensure_ok_iff, decide_eq_true_eq] at hbody
    obtain ⟨_, hgas, -⟩ := hbody
    omega
  · obtain ⟨_, _, _, _, _, -, -, -, hexecuted, hgas, -⟩ := executeFullBody_ok hbody
    exact hgas ▸ executeTxs_cumulativeGas_le hexecuted (Nat.zero_le _)

/-! ## Import -/

/-- The block that extends the head is the only one classified as next. -/
theorem classify_canonicalNext (h : node.classify Γ block = .ok .canonicalNext) :
    block.number = node.head.number + 1 ∧ block.header.parentHash = node.head.hash Γ := by
  unfold ChainNode.classify classifyImport at h
  split_ifs at h with h1 h2 h3 h4 h5 h6 <;> cases h
  have hnumber : block.number = node.head.number + 1 := by omega
  exact ⟨hnumber, by simpa [hnumber] using h5⟩

/-- What the import of a block on top of the head has established. -/
structure ImportedNext (M : Machine σ ρ) (now : Nat) (node : ChainNode σ ρ) (block : Block) (next : ChainNode σ ρ) :
    Prop where
  number : block.number = node.head.number + 1
  parentHash : block.header.parentHash = node.head.hash M.toCtx
  accepted : ∃ parent pubkey processed, node.blocks block.header.parentHash = some parent ∧
    verifyHeaderChecks M node now block parent false = .ok pubkey ∧
    processBlock M (node.execContext M.toCtx block.header) (node.settlementView M) node.state block = .ok processed ∧
    next = ((node.noteAuthority block.header.proposer pubkey).commitCanonical M.toCtx block
      processed).recordSettledSources processed.settlements

theorem verifyHeaderChecks_ok (h : verifyHeaderChecks M node now block parent finalizedImport = .ok pubkey) :
    verifyImportConsensus M node now block parent finalizedImport = .ok pubkey ∧
      verifyImportEconomics block parent = .ok () ∧ verifyIncomingWitnessRoot M.toCtx block = .ok () ∧
      verifyImportSigAggregateProof M block = .ok () := by
  simp only [verifyHeaderChecks, bind_ok_iff, pure_ok_iff] at h
  obtain ⟨key, hconsensus, _, heconomics, _, hwitness, _, hproof, rfl⟩ := h
  exact ⟨hconsensus, heconomics, hwitness, hproof⟩

theorem parentForImport_ok (h : parentForImport node block = .ok parent) :
    node.blocks block.header.parentHash = some parent := by
  unfold parentForImport at h
  split_ifs at h
  split at h
  · cases h
  · rename_i found hfound
    rw [hfound, Except.ok.inj h]

/-- A block that extends the head is classified as next. -/
theorem classify_of_next (hnumber : block.number = node.head.number + 1)
    (hparent : block.header.parentHash = node.head.hash Γ) (hroom : (checkedAdd node.head.number 1).isSome = true)
    (hfinal : node.finality.lastFinalizedNumber ≤ node.head.number) : node.classify Γ block = .ok .canonicalNext := by
  unfold ChainNode.classify classifyImport
  rw [if_neg (by omega), if_neg (by omega), if_neg (by omega), if_neg (by simp [Option.isSome_iff_ne_none.mp hroom]),
    if_neg (fun h => h.2 hparent), if_neg (by omega)]

/-- A block that extends the head and passes its checks is imported. -/
theorem importBlock_of_next (hclass : node.classify M.toCtx block = .ok .canonicalNext)
    (hparent : node.blocks block.header.parentHash = some parent) (hnumber : block.number ≠ 0)
    (hheader : verifyHeaderChecks M node now block parent false = .ok pubkey)
    (hprocessed : processBlock M (node.execContext M.toCtx block.header) (node.settlementView M) node.state block =
      .ok processed) :
    importBlock M now node block = .ok (((node.noteAuthority block.header.proposer pubkey).commitCanonical M.toCtx block
      processed).recordSettledSources processed.settlements) := by
  have hfound : parentForImport node block = .ok parent := by
    rw [parentForImport, if_neg hnumber, hparent]
  simp only [importBlock, importBlockInner, bind_ok_iff]
  refine ⟨.canonicalNext, hclass, ?_⟩
  simp only [importCanonicalNext, bind_ok_iff, mapError_ok_iff, pure_ok_iff]
  exact ⟨parent, hfound, pubkey, hheader, processed, hprocessed, rfl⟩

theorem importSideFork_head (h : importSideFork M now node block finalizedImport = .ok next) : next.head = node.head := by
  simp only [importSideFork, bind_ok_iff, pure_ok_iff] at h
  obtain ⟨_, -, _, -, _, -, rfl⟩ := h
  rfl

/-- An import leaves the head, or puts the block on top of it. -/
theorem importBlockInner_head (h : importBlockInner M now node block finalizedImport = .ok next) :
    next.head = node.head ∨ next.head = block ∧ block.number = node.head.number + 1 := by
  simp only [importBlockInner, bind_ok_iff] at h
  obtain ⟨transition, hclass, h⟩ := h
  cases transition with
  | duplicateOrStale => exact .inl (congrArg ChainNode.head (pure_ok_iff.mp h)).symm
  | unfinalizedFork | nextHeightFork => exact .inl (importSideFork_head h)
  | canonicalNext =>
    simp only [importCanonicalNext, bind_ok_iff, mapError_ok_iff, pure_ok_iff] at h
    obtain ⟨_, -, _, -, _, -, rfl⟩ := h
    exact .inr ⟨rfl, (classify_canonicalNext hclass).1⟩

/-- An import does not move the head down. -/
theorem importBlockInner_number_le (h : importBlockInner M now node block finalizedImport = .ok next) :
    node.head.number ≤ next.head.number := by
  rcases importBlockInner_head h with hhead | ⟨hhead, hnumber⟩
  · rw [hhead]
  · rw [hhead, hnumber]
    exact Nat.le_succ _

/-- An import that moves the head up has put the block on top of it. -/
theorem importBlock_advances (h : importBlock M now node block = .ok next) (hhead : node.head.number < next.head.number) :
    ImportedNext M now node block next := by
  simp only [importBlock, importBlockInner, bind_ok_iff] at h
  obtain ⟨transition, hclass, h⟩ := h
  cases transition with
  | duplicateOrStale =>
    obtain rfl := pure_ok_iff.mp h
    exact absurd hhead (lt_irrefl _)
  | unfinalizedFork | nextHeightFork => exact absurd hhead (importSideFork_head h ▸ lt_irrefl _)
  | canonicalNext =>
    simp only [importCanonicalNext, bind_ok_iff, mapError_ok_iff, pure_ok_iff] at h
    obtain ⟨parent, hparent, pubkey, hheader, processed, hprocessed, hnext⟩ := h
    obtain ⟨hnumber, hparentHash⟩ := classify_canonicalNext hclass
    exact ⟨hnumber, hparentHash, parent, pubkey, processed, parentForImport_ok hparent, hheader, hprocessed, hnext.symm⟩

theorem commitCanonical_receipts (Γ : Ctx) (node : ChainNode σ ρ) (block : Block) (processed : Processed σ ρ) :
    (node.commitCanonical Γ block processed).receipts (block.hash Γ) = some processed.receipts :=
  Function.update_self ..

theorem ImportedNext.head (h : ImportedNext M now node block next) : next.head = block := by
  obtain ⟨_, _, _, -, -, -, rfl⟩ := h.accepted
  rfl

end ShellChain
