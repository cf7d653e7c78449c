import ShellChain.Lemmas.Body

/-!
# Blocks that do not see the branch they are replayed on

The context of a block holds what the chain store says about the head and about earlier blocks, and the settlement view what
it says about settled sources. The processing of a block is the same on two branches when each of its checks that reads them
is answered alike, in particular when contracts decide alike in both contexts.
-/

namespace ShellChain

open Checks

variable {σ ρ : Type} {M : Machine σ ρ}

/-- The context with another head and other block hashes. -/
def ExecContext.withChain (ctx : ExecContext) (headNumber : Nat) (blockHash : Nat → Option ShellHash) : ExecContext :=
  { ctx with headNumber := headNumber, blockHash := blockHash }

/-- The transaction with its key given in another way. -/
def SignedTransaction.withMode (stx : SignedTransaction) (mode : PubkeyMode) : SignedTransaction :=
  { stx with pubkeyMode := mode }

/-- What contracts decide about a transaction is the same in a context with another head and other block hashes. -/
structure SameContracts (M : Machine σ ρ) (ctx : ExecContext) (headNumber : Nat) (blockHash : Nat → Option ShellHash)
    (stx : SignedTransaction) : Prop where
  execute : ∀ s index gas, M.execute (ctx.withChain headNumber blockHash) s stx index gas = M.execute ctx s stx index gas
  customAccepts : ∀ s mode, M.customAccepts (ctx.withChain headNumber blockHash) s (stx.withMode mode) =
    M.customAccepts ctx s (stx.withMode mode)
  paymasterAccepts : ∀ s mode, M.paymasterAccepts (ctx.withChain headNumber blockHash) s (stx.withMode mode) =
    M.paymasterAccepts ctx s (stx.withMode mode)

variable {Γ : Ctx} {block parent : Block} {finalizedImport : Bool} {node : ChainNode σ ρ}
  {now : Nat} {plan : ForkAdoptionPlan}

/-! ## Validation -/

theorem exists_mode_txForImportValidation (v : ValidationView) (keys : KeyTable) (stx : SignedTransaction) :
    ∃ mode, txForImportValidation v keys stx = stx.withMode mode := by
  unfold txForImportValidation
  split
  · exact ⟨stx.pubkeyMode, rfl⟩
  · split
    · exact ⟨stx.pubkeyMode, rfl⟩
    · split
      · exact ⟨stx.pubkeyMode, rfl⟩
      · exact ⟨_, rfl⟩

section

variable {ctx : ExecContext} {headNumber : Nat} {blockHash : Nat → Option ShellHash}

/-- The transaction has the same verdict in both contexts, with its key resolved from the block or not. -/
theorem validateTxForImport_withChain {stx : SignedTransaction} (hstx : SameContracts M ctx headNumber blockHash stx)
    (s : ExecState σ ρ) (verify : Verifier) (expectedNonce : Nat) (keys : KeyTable) :
    (M.view (ctx.withChain headNumber blockHash) s).validateTxForImport M.toCtx ctx.chainId verify expectedNonce
        (txForImportValidation (M.view (ctx.withChain headNumber blockHash) s) keys stx) =
      (M.view ctx s).validateTxForImport M.toCtx ctx.chainId verify expectedNonce
        (txForImportValidation (M.view ctx s) keys stx) := by
  have hmode : txForImportValidation (M.view (ctx.withChain headNumber blockHash) s) keys stx =
      txForImportValidation (M.view ctx s) keys stx := rfl
  rw [hmode]
  obtain ⟨mode, hmode⟩ := exists_mode_txForImportValidation (M.view ctx s) keys stx
  rw [hmode]
  have hpay : (M.view (ctx.withChain headNumber blockHash) s).validatePaymasterAuthorization M.toCtx verify
      (stx.withMode mode) = (M.view ctx s).validatePaymasterAuthorization M.toCtx verify (stx.withMode mode) := by
    unfold ValidationView.validatePaymasterAuthorization
    simp only [Machine.view, hstx.paymasterAccepts]
    rfl
  have haa : (M.view (ctx.withChain headNumber blockHash) s).validateAaTx M.toCtx verify (stx.withMode mode) =
      (M.view ctx s).validateAaTx M.toCtx verify (stx.withMode mode) := by
    unfold ValidationView.validateAaTx ValidationView.validateBuiltIn
    simp only [hpay]
    simp only [Machine.view, hstx.customAccepts]
    rfl
  unfold ValidationView.validateTxForImport ValidationView.validateRules
  rw [haa]

theorem signingKeys_withChain (s : ExecState σ ρ) (k : KeyStage) (transactions : List SignedTransaction) :
    signingKeys M.toCtx (M.view (ctx.withChain headNumber blockHash) s) k transactions =
      signingKeys M.toCtx (M.view ctx s) k transactions := by
  induction transactions generalizing k with
  | nil => rfl
  | cons stx rest ih =>
    have hfirst : signingKey M.toCtx (M.view (ctx.withChain headNumber blockHash) s) k stx =
        signingKey M.toCtx (M.view ctx s) k stx := rfl
    simp only [signingKeys, hfirst, ih]

variable {transactions : List SignedTransaction} {settlements : List ProofAmendment} {sv sv' : SettlementView}
  {block : Block}

theorem validateInParentState_withChain (htxs : ∀ stx ∈ transactions, SameContracts M ctx headNumber blockHash stx)
    (s : ExecState σ ρ) (verify : Verifier) (keys : KeyTable) (nonces : Address → Option Nat) :
    validateInParentState M verify (ctx.withChain headNumber blockHash) s keys nonces transactions =
      validateInParentState M verify ctx s keys nonces transactions := by
  induction transactions generalizing keys nonces with
  | nil => rfl
  | cons stx rest ih =>
    rw [List.forall_mem_cons] at htxs
    have hstx := validateTxForImport_withChain htxs.1 s verify
      ((nonces stx.sender).getD (M.nonce s.world stx.sender)) keys
    simp only [validateInParentState]
    rw [show (ctx.withChain headNumber blockHash).chainId = ctx.chainId from rfl, hstx]
    simp only [ih htxs.2]
    rfl

/-! ## Execution -/

/-- The rewards read of the settlement view the values of the settlements. -/
theorem settleRewards_withChain (hvalues : ∀ a ∈ settlements, sv'.starkRewardValue a = sv.starkRewardValue a) (txIndex : Nat)
    (p : Progress σ ρ) : settleRewards M (ctx.withChain headNumber blockHash) sv' txIndex p settlements =
      settleRewards M ctx sv txIndex p settlements := by
  induction settlements generalizing txIndex p with
  | nil => rfl
  | cons a rest ih =>
    rw [List.forall_mem_cons] at hvalues
    have hfirst : settleReward M (ctx.withChain headNumber blockHash) sv' txIndex p a =
        settleReward M ctx sv txIndex p a := by
      unfold settleReward buildStarkRewardTx
      rw [hvalues.1]
      rfl
    simp only [settleRewards, hfirst, ih hvalues.2]

end

/-! ## Checks that are answered alike -/

/-- The checks of a block that read the chain are answered alike in two contexts and settlement views, each as far as the
block gets: the settlements and their rewards, the policy in the parent state, and the transactions in order. -/
structure ReadsAlike (M : Machine σ ρ) (ctx ctx' : ExecContext) (sv sv' : SettlementView) (s : ExecState σ ρ)
    (block : Block) : Prop where
  settlements : ∀ settled, checkedSettlements M sv' s.registry block = .ok settled ↔
    checkedSettlements M sv s.registry block = .ok settled
  rewards : ∀ settled, checkedSettlements M sv s.registry block = .ok settled →
    ∀ a ∈ settled, sv'.starkRewardValue a = sv.starkRewardValue a
  policy : validateInParentState M preVerified ctx' s .empty (fun _ => none) block.transactions = .ok () ↔
    validateInParentState M preVerified ctx s .empty (fun _ => none) block.transactions = .ok ()
  current : ∀ pre stx rest p, block.transactions = pre ++ stx :: rest →
    executeTxs M ctx (embeddedPubkeys block.transactions) 0 (.start s) pre = .ok p →
    (validateInCurrentState M ctx' (embeddedPubkeys block.transactions) p.state stx = .ok () ↔
      validateInCurrentState M ctx (embeddedPubkeys block.transactions) p.state stx = .ok ())
  executed : ∀ pre stx rest p, block.transactions = pre ++ stx :: rest →
    executeTxs M ctx (embeddedPubkeys block.transactions) 0 (.start s) pre = .ok p →
    validateInCurrentState M ctx (embeddedPubkeys block.transactions) p.state stx = .ok () →
    M.execute ctx' p.state stx pre.length p.cumulativeGas = M.execute ctx p.state stx pre.length p.cumulativeGas

section

variable {ctx : ExecContext} {headNumber : Nat} {blockHash : Nat → Option ShellHash} {sv sv' : SettlementView}
  {s : ExecState σ ρ}

/-- The loop over the transactions when each is answered alike in the state that those before it have led to. -/
theorem executeTxs_alike {ctx' : ExecContext} (henv : ctx'.env = ctx.env) {keys : KeyTable}
    {transactions : List SignedTransaction} {index : Nat} {p : Progress σ ρ}
    (hcurrent : ∀ pre stx rest p', transactions = pre ++ stx :: rest → executeTxs M ctx keys index p pre = .ok p' →
      (validateInCurrentState M ctx' keys p'.state stx = .ok () ↔ validateInCurrentState M ctx keys p'.state stx = .ok ()) ∧
        (validateInCurrentState M ctx keys p'.state stx = .ok () →
          M.execute ctx' p'.state stx (index + pre.length) p'.cumulativeGas =
            M.execute ctx p'.state stx (index + pre.length) p'.cumulativeGas)) (q : Progress σ ρ) :
    executeTxs M ctx' keys index p transactions = .ok q ↔ executeTxs M ctx keys index p transactions = .ok q := by
  induction transactions generalizing index p with
  | nil => rfl
  | cons stx rest ih =>
    obtain ⟨hvalid, hexec⟩ := hcurrent [] stx rest p rfl rfl
    rw [List.length_nil, Nat.add_zero] at hexec
    have hfirst : ∀ next, executeTx M ctx' keys index p stx = .ok next ↔ executeTx M ctx keys index p stx = .ok next := by
      intro next
      simp only [executeTx, bind_ok_iff, mapError_ok_iff, henv, Progress.add]
      refine exists_congr fun _ => and_congr_right fun _ => exists_congr fun u => ?_
      cases u
      constructor
      · rintro ⟨hv, h⟩
        have hv := hvalid.mp hv
        exact ⟨hv, by rwa [← hexec hv]⟩
      · rintro ⟨hv, h⟩
        exact ⟨hvalid.mpr hv, by rwa [hexec hv]⟩
    simp only [executeTxs, bind_ok_iff, hfirst]
    refine exists_congr fun next => and_congr_right fun hnext => ?_
    refine ih fun pre stx' rest' p' htxs hpre => ?_
    have := hcurrent (stx :: pre) stx' rest' p' (by rw [htxs]; rfl) (by
      simp only [executeTxs, bind_ok_iff]
      exact ⟨next, hnext, hpre⟩)
    rwa [List.length_cons, Nat.add_comm pre.length, ← Nat.add_assoc] at this

/-- A block is processed alike where its checks are answered alike. -/
theorem ReadsAlike.processBlock_iff (h : ReadsAlike M ctx (ctx.withChain headNumber blockHash) sv sv' s block)
    (processed : Processed σ ρ) : processBlock M (ctx.withChain headNumber blockHash) sv' s block = .ok processed ↔
      processBlock M ctx sv s block = .ok processed := by
  have hexec : ∀ q, executeTxs M (ctx.withChain headNumber blockHash) (embeddedPubkeys block.transactions) 0 (.start s)
      block.transactions = .ok q ↔
        executeTxs M ctx (embeddedPubkeys block.transactions) 0 (.start s) block.transactions = .ok q := by
    have henv : (ctx.withChain headNumber blockHash).env = ctx.env := rfl
    refine executeTxs_alike henv fun pre stx rest p htxs hpre => ⟨h.current pre stx rest p htxs hpre, fun hvalid => ?_⟩
    rw [Nat.zero_add]
    exact h.executed pre stx rest p htxs hpre hvalid
  have hfull : ∀ settled, checkedSettlements M sv s.registry block = .ok settled → ∀ e,
      executeFullBody M (ctx.withChain headNumber blockHash) sv' s block settled = .ok e ↔
        executeFullBody M ctx sv s block settled = .ok e := by
    intro settled hsettled e
    simp only [executeFullBody, bind_ok_iff, signingKeys_withChain, h.policy, hexec,
      settleRewards_withChain (h.rewards settled hsettled)]
    rfl
  have hbody : ∀ settled, checkedSettlements M sv s.registry block = .ok settled → ∀ e,
      executeBody M (ctx.withChain headNumber blockHash) sv' s block settled = .ok e ↔
        executeBody M ctx sv s block settled = .ok e := by
    intro settled hsettled e
    unfold executeBody
    split
    · rfl
    · exact hfull settled hsettled e
  simp only [processBlock, bind_ok_iff, h.settlements]
  exact exists_congr fun settled => and_congr_right fun hsettled => exists_congr fun e =>
    and_congr_left fun _ => hbody settled hsettled e

/-- Where contracts decide alike, a block is answered alike if its settlements are. -/
theorem readsAlike_of_sameContracts (htxs : ∀ stx ∈ block.transactions, SameContracts M ctx headNumber blockHash stx)
    (hsettlements : ∀ settled, checkedSettlements M sv' s.registry block = .ok settled ↔
      checkedSettlements M sv s.registry block = .ok settled)
    (hrewards : ∀ settled, checkedSettlements M sv s.registry block = .ok settled →
      ∀ a ∈ settled, sv'.starkRewardValue a = sv.starkRewardValue a) :
    ReadsAlike M ctx (ctx.withChain headNumber blockHash) sv sv' s block := by
  have hmem : ∀ {pre stx rest}, block.transactions = pre ++ stx :: rest → stx ∈ block.transactions := by
    intro pre stx rest h
    rw [h]
    exact List.mem_append_right _ List.mem_cons_self
  refine ⟨hsettlements, hrewards, by rw [validateInParentState_withChain htxs], fun pre stx rest p heq _ => ?_,
    fun pre stx rest p heq _ _ => (htxs stx (hmem heq)).execute ..⟩
  exact Eq.congr_left (validateTxForImport_withChain (htxs stx (hmem heq)) p.state M.verify _ _)

end

/-! ## Import on top of the head -/

theorem room_of_consensusRules {pubkey : Bytes} (h : consensusRules M node now block parent finalizedImport = .ok pubkey) :
    (checkedAdd parent.number 1).isSome = true := by
  unfold consensusRules at h
  split at h
  · exact absurd h throw_ne_ok
  · cases finalizedImport <;> simp only [Bool.false_eq_true, if_false, if_true, bind_ok_iff, ensure_ok_iff] at h <;>
    · obtain ⟨_, -, _, -, _, -, _, hroom, -⟩ := h
      exact hroom

/-- A block extends another one. -/
def Block.Extends (Γ : Ctx) (parent block : Block) : Prop :=
  block.number = parent.number + 1 ∧ block.header.parentHash = parent.hash Γ

instance (Γ : Ctx) (parent block : Block) : Decidable (parent.Extends Γ block) :=
  inferInstanceAs (Decidable (_ ∧ _))

/-- The transition of a block on the head, when there is one. -/
theorem classify_of_extends (hnext : node.head.Extends M.toCtx block) {transition : BlockImportTransition}
    (h : node.classify M.toCtx block = .ok transition) : transition = .canonicalNext := by
  have hnumber := hnext.1
  unfold ChainNode.classify classifyImport at h
  split_ifs at h with h1 h2 h3 h4 h5 h6 <;> cases h
  · omega
  · omega
  · exact absurd hnext.2 h5.2
  · rfl

/-- Import of a block that extends the stored head: its header checks and its processing decide. -/
theorem importBlock_ok_iff {next : ChainNode σ ρ} (hext : node.head.Extends M.toCtx block)
    (hstored : node.blocks (node.head.hash M.toCtx) = some node.head)
    (hfinal : node.finality.lastFinalizedNumber ≤ node.head.number) :
    importBlock M now node block = .ok next ↔ ∃ pubkey processed,
      verifyHeaderChecks M node now block node.head false = .ok pubkey ∧
      processBlock M (node.execContext M.toCtx block.header) (node.settlementView M) node.state block = .ok processed ∧
      next = ((node.noteAuthority block.header.proposer pubkey).commitCanonical M.toCtx block
        processed).recordSettledSources processed.settlements := by
  have hparent : node.blocks block.header.parentHash = some node.head := by rw [hext.2, hstored]
  constructor
  · intro h
    simp only [importBlock, importBlockInner, bind_ok_iff] at h
    obtain ⟨transition, hclass, h⟩ := h
    obtain rfl := classify_of_extends hext hclass
    simp only [importCanonicalNext, bind_ok_iff, mapError_ok_iff, pure_ok_iff] at h
    obtain ⟨parent, hfound, pubkey, hheader, processed, hprocessed, rfl⟩ := h
    obtain rfl := Option.some.inj ((parentForImport_ok hfound).symm.trans hparent)
    exact ⟨pubkey, processed, hheader, hprocessed, rfl⟩
  · rintro ⟨pubkey, processed, hheader, hprocessed, rfl⟩
    have hconsensus := (verifyHeaderChecks_ok hheader).1
    simp only [verifyImportConsensus, bind_ok_iff] at hconsensus
    obtain ⟨_, -, hconsensus⟩ := hconsensus
    have hnext := classify_of_next hext.1 hext.2 (room_of_consensusRules hconsensus) hfinal
    exact importBlock_of_next hnext hparent (by rw [hext.1]; exact Nat.succ_ne_zero _) hheader hprocessed

/-- The header checks read of a node its engine, its limit and the key of the proposer. -/
theorem verifyHeaderChecks_congr {other : ChainNode σ ρ} (hengine : other.engine = node.engine)
    (hmax : other.config.maxTxPerBlock = node.config.maxTxPerBlock)
    (hkey : other.authorityPubkey block.header.proposer = node.authorityPubkey block.header.proposer) :
    verifyHeaderChecks M other now block parent finalizedImport =
      verifyHeaderChecks M node now block parent finalizedImport := by
  simp only [verifyHeaderChecks, verifyImportConsensus, consensusRules, hengine, hmax, hkey]

/-- The rule of finalized blocks changes nothing where it gives the verdict of the usual one. -/
theorem verifyHeaderChecks_finalizedImport (hrule : node.engine.verifyHeader block.header = .ok () ↔
      node.engine.verifyHeaderForFinalizedImport block.header parent.header = .ok ()) (pubkey : Bytes) :
    verifyHeaderChecks M node now block parent false = .ok pubkey ↔
      verifyHeaderChecks M node now block parent true = .ok pubkey := by
  have hconsensus : ∀ key, consensusRules M node now block parent false = .ok key ↔
      consensusRules M node now block parent true = .ok key := by
    intro key
    unfold consensusRules
    split
    · rfl
    · simp only [Bool.false_eq_true, if_false, if_true, bind_ok_iff]
      exact exists_congr fun u => and_congr_left fun _ => hrule
  simp only [verifyHeaderChecks, verifyImportConsensus, bind_ok_iff, hconsensus]

/-! ## The commit of an adoption -/

/-- The receipts with those of replayed blocks. -/
def recordReceipts (Γ : Ctx) (receipts : ShellHash → Option (List TransactionReceipt)) (replayed : List (ReplayedBlock σ ρ)) :
    ShellHash → Option (List TransactionReceipt) :=
  replayed.foldl (fun f r => Function.update f (r.block.hash Γ) (some r.processed.receipts)) receipts

/-- The receipts of replayed blocks do not depend on what was recorded before. -/
theorem recordReceipts_eq {f g : ShellHash → Option (List TransactionReceipt)} {replayed : List (ReplayedBlock σ ρ)}
    {hash : ShellHash} (h : f hash = g hash ∨ hash ∈ replayed.map fun r => r.block.hash Γ) :
    recordReceipts Γ f replayed hash = recordReceipts Γ g replayed hash := by
  induction replayed generalizing f g with
  | nil => simpa [recordReceipts] using h
  | cons r rest ih =>
    refine ih ?_
    by_cases heq : hash = r.block.hash Γ
    · exact .inl (by simp only [heq, Function.update_self])
    · rcases h with h | h
      · exact .inl (by simp only [Function.update_of_ne heq, h])
      · exact .inr ((List.mem_cons.mp h).resolve_left heq)

theorem receipts_foldl_commitReplayed (Γ : Ctx) (replayed : List (ReplayedBlock σ ρ)) (node : ChainNode σ ρ) :
    (replayed.foldl (ChainNode.commitReplayed Γ) node).receipts = recordReceipts Γ node.receipts replayed := by
  induction replayed generalizing node with
  | nil => rfl
  | cons r rest ih => exact ih (node.commitReplayed Γ r)

theorem foldl_recordSettledSources (replayed : List (ReplayedBlock σ ρ)) (node : ChainNode σ ρ) :
    let final := replayed.foldl (fun n r => n.recordSettledSources r.processed.settlements) node
    final.head = node.head ∧ final.state = node.state ∧ final.receipts = node.receipts := by
  induction replayed generalizing node with
  | nil => exact ⟨rfl, rfl, rfl⟩
  | cons r rest ih => exact ih (node.recordSettledSources r.processed.settlements)

theorem commitAdoption_outcome (Γ : Ctx) (node : ChainNode σ ρ) (plan : ForkAdoptionPlan) (tip : Block)
    (replay : ChainNode σ ρ × ExecState σ ρ × List (ReplayedBlock σ ρ)) :
    (commitAdoption Γ node plan tip replay).head = tip ∧ (commitAdoption Γ node plan tip replay).state = replay.2.1 ∧
      (commitAdoption Γ node plan tip replay).receipts = recordReceipts Γ replay.1.receipts replay.2.2 := by
  obtain ⟨hhead, hstate, hreceipts⟩ := foldl_recordSettledSources replay.2.2 _
  exact ⟨hhead, hstate, hreceipts.trans (receipts_foldl_commitReplayed Γ replay.2.2 replay.1)⟩

/-! ## Where the head moves -/

/-- The head of an adopting node is the preferred block. -/
theorem adoptPreferredFork_number {adopted : ChainNode σ ρ} (h : adoptPreferredFork M now node plan = .ok adopted) :
    adopted.head.number = plan.preferredNumber := by
  simp only [adoptPreferredFork, bind_ok_iff] at h
  obtain ⟨_, -, _, -, _, -, h⟩ := h
  split at h
  · exact absurd h throw_ne_ok
  · rename_i ancestor _
    simp only [bind_ok_iff, ensure_ok_iff, pure_ok_iff, decide_eq_true_eq] at h
    obtain ⟨_, -, _, -, replay, -, _, htip, rfl⟩ := h
    rw [(commitAdoption_outcome M.toCtx node plan (plan.newChain.getLast?.getD ancestor) replay).1]
    exact htip.2

end ShellChain
