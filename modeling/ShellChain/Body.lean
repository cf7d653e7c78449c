import ShellChain.Node

/-!
# The processing of a block body

What a block does to the state it is built on: the settlements it carries are checked, its transactions are executed, the
proposer and the provers are rewarded, scheduled algorithms are activated, and the result is compared with the header. The
state is that of the parent, and the settlement checks read the live node.
-/

namespace ShellChain

open Checks

variable {σ ρ : Type}

variable (M : Machine σ ρ) (ctx : ExecContext) (sv : SettlementView)

/-! ## Settlements -/

def systemExtraPrefix : Bytes :=
  ascii "shell:system-extra:v1:"

/-- `decode_system_extra`: data without the prefix holds no settlement. -/
def decodeSystemExtra (extraData : Bytes) : Except BlockError (List ProofAmendment) :=
  if ¬ systemExtraPrefix.isPrefixOf extraData then .ok []
  else
    match M.systemExtraFromJson (extraData.drop systemExtraPrefix.length) with
    | none => .error .systemExtraInvalid
    | some amendments => .ok amendments

/-- The amendment that a reward transaction carries, which must agree with the fields of the transaction. -/
def decodeSettlement (number : Nat) (tx : SystemTransaction) : Except BlockError ProofAmendment :=
  match tx.proofPayload with
  | none => .error (.settlementPayloadMissing number (tx.hash M.toCtx))
  | some payload =>
    match M.amendmentFromJson payload with
    | none => .error (.settlementPayloadInvalid number (tx.hash M.toCtx))
    | some a => do
      ensure (tx.sourceHash = a.blockHash ∧ tx.layer = some a.layer ∧ tx.originalSize = a.originalSize ∧
        tx.compressedSize = a.compressedSize) (.settlementMetadataMismatch number (tx.hash M.toCtx))
      pure a

/-- The reward transactions of a block. -/
def Block.starkRewards (block : Block) : List SystemTransaction :=
  block.systemTransactions.filter fun tx => tx.kind = .starkReward

/-- The settlements of a block, decoded and checked against the live chain. -/
def checkedSettlements (registry : AlgorithmRegistry) (block : Block) : Except BlockError (List ProofAmendment) := do
  let extra ← decodeSystemExtra M block.header.extraData
  ensure (extra = []) (.deprecatedSystemExtra block.number)
  let settlements ← block.starkRewards.mapM (decodeSettlement M block.number)
  (sv.validateStarkSettlementSequence settlements).mapError .settlementOrdering
  settlements.forM fun a => do
    (a.verifyProverAuthentication M.toCtx registry).mapError .settlementAuthentication
    ensure (sv.sourceBinding a) (.settlementSourceBinding a.blockNumber)
  pure settlements

/-! ## Rewards -/

/-- The proposer receives the fees of the block with a reward transaction; a block without fees has none. -/
def rewardProposer (parentHash : ShellHash) (txIndex : Nat) (p : Progress σ ρ) :
    Except BlockError (Progress σ ρ × List SystemTransaction) :=
  if p.fees = 0 then .ok (p, [])
  else
    match M.addBalance p.state.world ctx.env.proposer p.fees with
    | none => .error .rewardOverflow
    | some world =>
      let tx := SystemTransaction.blockGasReward ctx.chainId ctx.env.number txIndex ctx.env.proposer p.fees parentHash
      .ok ({ p with
        state := { p.state with world := world }
        receipts := p.receipts ++ [tx.receipt M.toCtx p.cumulativeGas] }, [tx])

def buildStarkRewardTx (txIndex : Nat) (a : ProofAmendment) : Option SystemTransaction := do
  let originalSize ← a.originalSize
  let value ← sv.starkRewardValue a
  let payload ← M.amendmentToJson a
  pure ⟨.starkReward, ctx.chainId, ctx.env.number, txIndex, .zero, a.prover, value, a.blockHash, some a.layer,
    some originalSize, some (a.compressedSize.getD a.sizeBytes), some payload⟩

/-- One settlement: the prover must be registered where the registry is in force, and receives the mint. -/
def settleReward (txIndex : Nat) (p : Progress σ ρ)
    (a : ProofAmendment) : Except BlockError (Progress σ ρ × SystemTransaction) :=
  match buildStarkRewardTx M ctx sv txIndex a with
  | none => .error .settlementReward
  | some tx => do
    let active := activeAt ctx.config.proverRegistryHeight ctx.env.number
    ensure (!active || M.proverRegistered p.state.world a.prover) .proverNotRegistered
    let recorded := if active then M.recordProverSettlement p.state.world a.prover a.blockNumber else p.state.world
    match M.applyStarkMint recorded tx with
    | none => throw .mintOverflow
    | some world =>
      pure ({ p with
        state := { p.state with world := world }
        receipts := p.receipts ++ [tx.receipt M.toCtx p.cumulativeGas] }, tx)

/-- The settlements of a block in order. -/
def settleRewards (M : Machine σ ρ) (ctx : ExecContext) (sv : SettlementView) :
    Nat → Progress σ ρ → List ProofAmendment → Except BlockError (Progress σ ρ × List SystemTransaction)
  | _, p, [] => .ok (p, [])
  | txIndex, p, a :: rest => do
    let settled ← settleReward M ctx sv txIndex p a
    let others ← settleRewards M ctx sv (txIndex + 1) settled.1 rest
    pure (others.1, settled.2 :: others.2)

def applyPendingActivations (number : Nat) (s : ExecState σ ρ) : Except BlockError (ExecState σ ρ) :=
  match M.processPendingActivations number s.world s.registry with
  | none => .error (.activation number)
  | some next => .ok { s with world := next.1, registry := next.2 }

/-! ## The body -/

/-- What the execution of a body leaves: the state, the receipts, and the first keys to register. -/
structure Executed (σ ρ : Type) where
  state : ExecState σ ρ
  receipts : List TransactionReceipt
  newPubkeys : KeyTable

/-- The body of a block with transactions or settlements. -/
def executeFullBody (s : ExecState σ ρ) (block : Block)
    (settlements : List ProofAmendment) : Except BlockError (Executed σ ρ) := do
  let keys ← signingKeys M.toCtx (M.view ctx s) ⟨.empty, .empty⟩ block.transactions
  ensure (verifyBatchAll M.toCtx keys.2) (.batchVerification block.number)
  validateInParentState M preVerified ctx s .empty (fun _ => none) block.transactions
  let executed ← executeTxs M ctx (embeddedPubkeys block.transactions) 0 (.start s) block.transactions
  ensure (executed.cumulativeGas = block.header.gasUsed)
    (.gasUsedMismatch block.number block.header.gasUsed executed.cumulativeGas)
  let rewarded ← rewardProposer M ctx block.header.parentHash block.transactions.length executed
  let settled ← settleRewards M ctx sv (block.transactions.length + rewarded.2.length) rewarded.1 settlements
  ensure (rewarded.2 ++ settled.2 = block.systemTransactions) (.systemTransactionsMismatch block.number)
  let final ← applyPendingActivations M block.number settled.1.state
  pure ⟨final, settled.1.receipts, keys.1.newPubkeys⟩

/-- The body of a block without transactions and settlements: only activations change the state. -/
def executeEmptyBody (M : Machine σ ρ) (s : ExecState σ ρ) (block : Block) : Except BlockError (Executed σ ρ) := do
  ensure (block.header.gasUsed = 0) (.gasUsedMismatch block.number block.header.gasUsed 0)
  ensure (block.systemTransactions = []) (.systemTransactionsMismatch block.number)
  let final ← applyPendingActivations M block.number s
  pure ⟨final, [], .empty⟩

def executeBody (s : ExecState σ ρ) (block : Block) (settlements : List ProofAmendment) : Except BlockError (Executed σ ρ) :=
  if block.transactions = [] ∧ settlements = [] then executeEmptyBody M s block
  else executeFullBody M ctx sv s block settlements

/-- `verify_import_logs_bloom`: an empty bloom stands for one without logs. -/
def verifyImportLogsBloom (block : Block) (receipts : List TransactionReceipt) : Except BlockError Unit :=
  let expected := blockBloom receipts
  ensure (block.header.logsBloom = expected ∨ (block.header.logsBloom = [] ∧ expected.all (· = 0)))
    (.logsBloomMismatch block.number)

/-- The keys of a state with those that are registered only where there is none. -/
def ExecState.registerNew (s : ExecState σ ρ) (newPubkeys : KeyTable) : ExecState σ ρ :=
  { s with pubkeys := fun a => (s.pubkeys a).orElse fun _ => newPubkeys a }

/-- What a processed block leaves. -/
structure Processed (σ ρ : Type) where
  state : ExecState σ ρ
  receipts : List TransactionReceipt
  settlements : List ProofAmendment

/-- A block on the state of its parent: the body is executed and the bloom and the state root of the header are compared
with the result. -/
def processBlock (s : ExecState σ ρ) (block : Block) : Except BlockError (Processed σ ρ) := do
  let settlements ← checkedSettlements M sv s.registry block
  let executed ← executeBody M ctx sv s block settlements
  verifyImportLogsBloom block executed.receipts
  let root := M.stateRoot executed.state.world
  ensure (root = block.header.stateRoot) (.stateRootMismatch block.number block.header.stateRoot root)
  pure ⟨executed.state.registerNew executed.newPubkeys, executed.receipts, settlements⟩

end ShellChain
