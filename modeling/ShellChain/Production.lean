import ShellChain.Import
import ShellChain.SigBatches
import Mathlib.Data.List.Sort

/-!
# Block production

`Node::produce_block` (`node/src/node/block_producer.rs`). The candidates are what the mempool offers, in its order. A
candidate that fails is skipped, and the world state is rolled back to before it; staged metadata is not. Then the producer
includes what it can of the pending settlements.
-/

namespace ShellChain

open Checks

variable {σ ρ : Type}

def ensureProductionParent (headNumber : Nat) (headHash : ShellHash) (canonicalNextExists : Bool) (finalizedNumber : Nat)
    (finalizedHash : ShellHash) : Except NodeError Unit :=
  if canonicalNextExists then .error .notProposer
  else if finalizedNumber = 0 then .ok ()
  else if headNumber < finalizedNumber ∨ (headNumber = finalizedNumber ∧ headHash ≠ finalizedHash) then
    .error (.conflictsWithFinalized headNumber finalizedNumber)
  else .ok ()

/-- The header before execution: the parent's gas limit, the fees that follow from the parent, and nothing committed to. -/
def preliminaryHeader (Γ : Ctx) (head : Block) (number timestamp : Nat) (proposer : Address) : BlockHeader where
  parentHash := head.hash Γ
  stateRoot := .zero
  transactionsRoot := .zero
  receiptsRoot := .zero
  logsBloom := []
  number := number
  gasLimit := head.header.gasLimit
  gasUsed := 0
  timestamp := timestamp
  extraData := []
  proposer := proposer
  sigAggregateProof := none
  baseFeePerGas := calculateBaseFee head.header.gasUsed head.header.gasLimit head.header.baseFeePerGas
  withdrawalsRoot := .zero
  parentBeaconBlockRoot := .zero
  blobGasUsed := 0
  excessBlobGas := calcExcessBlobGas head.header.excessBlobGas head.header.blobGasUsed
  witnessRoot := none

/-- What production has come to: the execution so far, the included transactions and their blob gas. -/
structure Draft (σ ρ : Type) where
  progress : Progress σ ρ
  included : List SignedTransaction
  blobGasUsed : Nat

/-- The draft after a candidate whose execution is not kept: the world state is rolled back. -/
def Draft.rollback (d : Draft σ ρ) (after : ExecState σ ρ) : Draft σ ρ :=
  { d with progress := { d.progress with state := { after with world := d.progress.state.world } } }

/-- The state with the embedded key of a transaction registered where the sender has none. -/
def ExecState.registerEmbedded (s : ExecState σ ρ) (stx : SignedTransaction) : ExecState σ ρ :=
  match stx.pubkeyMode with
  | .embedded pubkey =>
    if (s.pubkeys stx.sender).isNone then { s with pubkeys := Function.update s.pubkeys stx.sender (some pubkey) } else s
  | .reference => s

/-- A candidate that passed the checks of gas and fees: it is validated in the current state and executed. -/
def tryCandidate (M : Machine σ ρ) (ctx : ExecContext) (d : Draft σ ρ) (stx : SignedTransaction) (nextBlobGas : Nat) :
    Except NodeError (Draft σ ρ) :=
  let p := d.progress
  match (M.view ctx p.state).validateTxForImport M.toCtx ctx.chainId M.verify (M.nonce p.state.world stx.sender) stx with
  | .error _ => .ok d
  | .ok () =>
    match M.execute ctx p.state stx d.included.length p.cumulativeGas with
    | (after, none) => .ok (d.rollback after)
    | (after, some result) =>
      if ¬ result.effectsValid then .error .systemEffectsInvalid
      else
        match checkedCumulativeBlockGas p.cumulativeGas result.gasUsed ctx.env.gasLimit with
        | none => .ok (d.rollback after)
        | some cumulativeGas =>
          .ok ⟨p.add ctx stx (after.registerEmbedded stx) result cumulativeGas, d.included ++ [stx], nextBlobGas⟩

/-- The loop over the candidates; it ends when the block has its transactions or its gas is used up. -/
def selectCandidates (M : Machine σ ρ) (ctx : ExecContext) (maxTxs : Nat) :
    Draft σ ρ → List SignedTransaction → Except NodeError (Draft σ ρ)
  | d, [] => .ok d
  | d, stx :: rest =>
    if maxTxs ≤ d.included.length ∨ ctx.env.gasLimit ≤ d.progress.cumulativeGas then .ok d
    else if ¬ txFitsRemainingBlockGas stx d.progress.cumulativeGas ctx.env.gasLimit ∨
        stx.tx.maxFeePerGas < ctx.env.baseFeePerGas then
      selectCandidates M ctx maxTxs d rest
    else
      match checkedCumulativeBlobGas d.blobGasUsed stx.tx.blobGas with
      | none => selectCandidates M ctx maxTxs d rest
      | some nextBlobGas =>
        if ¬ paysBlobBaseFee stx (calcBlobGasPrice ctx.env.excessBlobGas) then selectCandidates M ctx maxTxs d rest
        else do
          let next ← tryCandidate M ctx d stx nextBlobGas
          selectCandidates M ctx maxTxs next rest

/-- The reward of the proposer for an included transaction that paid. -/
def rewardProducer (M : Machine σ ρ) (ctx : ExecContext) (parentHash : ShellHash) (d : Draft σ ρ) :
    Except NodeError (Progress σ ρ × List SystemTransaction) :=
  if d.included = [] then .ok (d.progress, [])
  else (rewardProposer M ctx parentHash d.included.length d.progress).mapError fun _ => .rewardOverflow

/-- The commitment to the signatures of the block that an aggregating node puts into the header. -/
def sigCommitmentOf (M : Machine σ ρ) (node : ChainNode σ ρ) (transactions : List SignedTransaction) : Option Bytes :=
  let entries := entriesFromTxs M.toCtx transactions
  if node.config.starkAggregation ∧ entries ≠ [] then
    M.sigProofToJson (.commitmentOnly (computeBatchRoot M.toCtx entries) (length_computeBatchRoot ..) entries.length)
  else none

/-- A block before it is sealed, with the state and the receipts of its execution. -/
structure Assembled (σ ρ : Type) where
  block : Block
  processed : Processed σ ρ

/-! ## Pending settlements -/

/-- A layer with the sources that are settled there. -/
abbrev SourceKey := Nat × ShellHash

/-- The layer of an amendment with each of its sources. -/
def ProofAmendment.sourceKeys (a : ProofAmendment) : List SourceKey :=
  a.coveredHashes.map fun source => (a.layer, source)

/-- The order of byte strings. -/
def lexLe : Bytes → Bytes → Bool
  | [], _ => true
  | _ :: _, [] => false
  | a :: as, b :: bs => a < b ∨ (a = b ∧ lexLe as bs)

/-- The order of `sort_stark_settlements_for_inclusion`: by layer, by start, the widest range first, then by hash and
prover. -/
def inclusionLe (a b : ProofAmendment) : Bool :=
  let start (x : ProofAmendment) := x.rangeStartBlock.getD x.blockNumber
  a.layer < b.layer ∨ (a.layer = b.layer ∧
    (start a < start b ∨ (start a = start b ∧
      (b.blockNumber < a.blockNumber ∨ (b.blockNumber = a.blockNumber ∧
        ((a.blockHash ≠ b.blockHash ∧ lexLe a.blockHash.bytes b.blockHash.bytes) ∨
          (a.blockHash = b.blockHash ∧ lexLe a.prover.bytes b.prover.bytes)))))))

def sortStarkSettlementsForInclusion (pending : List ProofAmendment) : List ProofAmendment :=
  pending.insertionSort fun a b => inclusionLe a b

/-- What the loop over the pending settlements has come to. -/
structure SettlementDraft (σ ρ : Type) where
  progress : Progress σ ρ
  systemTransactions : List SystemTransaction
  /-- `settled_stark_proofs`. -/
  settled : List ProofAmendment
  /-- `seen_stark_sources`. -/
  seen : List SourceKey

/-- An amendment passes every check of the loop: its sources are new, it continues the sequence, its prover is registered
where the registry is in force, it is authentic, and its proof is bound to its sources. -/
def SettlementDraft.admits (M : Machine σ ρ) (ctx : ExecContext) (sv : SettlementView) (d : SettlementDraft σ ρ)
    (a : ProofAmendment) : Bool :=
  a.sourceKeys.all (fun key => key ∉ d.seen) &&
    a.sourceKeys.all (fun key => key ∉ sv.settledSources) &&
    (sv.validateStarkSettlementSequence (d.settled ++ [a])).toBool &&
    (!activeAt ctx.config.proverRegistryHeight ctx.env.number || M.proverRegistered d.progress.state.world a.prover) &&
    (a.verifyProverAuthentication M.toCtx d.progress.state.registry).toBool &&
    sv.sourceBinding a

/-- One pending settlement of the loop. The sources of an admitted one count as seen even if it earns no reward. -/
def trySettlement (M : Machine σ ρ) (ctx : ExecContext) (sv : SettlementView) (includedTxs : Nat)
    (d : SettlementDraft σ ρ) (a : ProofAmendment) : Except NodeError (SettlementDraft σ ρ) :=
  if ¬ d.admits M ctx sv a then .ok d
  else
    let noted := { d with seen := d.seen ++ a.sourceKeys }
    match buildStarkRewardTx M ctx sv (includedTxs + d.systemTransactions.length) a with
    | none => .ok noted
    | some tx =>
      if tx.value = 0 then .ok noted
      else
        let world := d.progress.state.world
        let recorded := if activeAt ctx.config.proverRegistryHeight ctx.env.number then
            M.recordProverSettlement world a.prover a.blockNumber
          else world
        match M.applyStarkMint recorded tx with
        | none => .error (.block .mintOverflow)
        | some minted =>
          .ok { noted with
            progress := { d.progress with
              state := { d.progress.state with world := minted }
              receipts := d.progress.receipts ++ [tx.receipt M.toCtx d.progress.cumulativeGas] }
            systemTransactions := d.systemTransactions ++ [tx]
            settled := d.settled ++ [a] }

def settlePending (M : Machine σ ρ) (ctx : ExecContext) (sv : SettlementView) (includedTxs : Nat) :
    SettlementDraft σ ρ → List ProofAmendment → Except NodeError (SettlementDraft σ ρ)
  | d, [] => .ok d
  | d, a :: rest => do
    let next ← trySettlement M ctx sv includedTxs d a
    settlePending M ctx sv includedTxs next rest

/-! ## The block -/

/-- The block that a proposer assembles from the candidates and the pending settlements on the current head. -/
def assembleSettlingBlock (M : Machine σ ρ) (node : ChainNode σ ρ) (timestamp maxTxs : Nat) (proposer : Address)
    (candidates : List SignedTransaction) (pending : List ProofAmendment) : Except NodeError (Assembled σ ρ) := do
  let hdr := preliminaryHeader M.toCtx node.head (node.head.number + 1) timestamp proposer
  let ctx := node.execContext M.toCtx hdr
  let draft ← selectCandidates M ctx (min maxTxs node.config.maxTxPerBlock) ⟨.start node.state, [], 0⟩ candidates
  let rewarded ← rewardProducer M ctx hdr.parentHash draft
  let settled ← settlePending M ctx (node.settlementView M) draft.included.length ⟨rewarded.1, rewarded.2, [], []⟩
    (sortStarkSettlementsForInclusion pending)
  let final ← (applyPendingActivations M hdr.number settled.progress.state).mapError fun _ => .activation hdr.number
  let sealedHeader := { hdr with
    gasUsed := draft.progress.cumulativeGas
    blobGasUsed := draft.blobGasUsed
    logsBloom := blockBloom settled.progress.receipts
    stateRoot := M.stateRoot final.world
    sigAggregateProof := sigCommitmentOf M node draft.included }
  pure ⟨⟨sealedHeader, draft.included, settled.systemTransactions, none⟩,
    ⟨final, settled.progress.receipts, settled.settled⟩⟩

/-- `produce_block` with pending settlements: the sealed block is committed and what it settles is recorded. -/
def produceSettlingBlock (M : Machine σ ρ) (sign : Bytes → PQSignature) (pubkey : Bytes) (node : ChainNode σ ρ)
    (timestamp maxTxs : Nat) (candidates : List SignedTransaction) (pending : List ProofAmendment) :
    Except NodeError (ChainNode σ ρ × Block) :=
  match node.config.proposerAddress with
  | none => .error .notProposer
  | some proposer => do
    ensure (checkedAdd node.head.number 1).isSome .numberOverflow
    let number := node.head.number + 1
    ensure (node.engine.proposerForBlock number = proposer) .notProposer
    ensureProductionParent node.head.number (node.head.hash M.toCtx) (node.canonical number).isSome
      node.finality.lastFinalizedNumber node.finality.lastFinalizedHash
    let assembled ← assembleSettlingBlock M node timestamp maxTxs proposer candidates pending
    let block := { assembled.block with proposerSeal := some (sign (assembled.block.hash M.toCtx).bytes) }
    let noted := { node with
      knownAuthorities := Function.update node.knownAuthorities block.header.proposer (some pubkey) }
    pure ((noted.commitCanonical M.toCtx block assembled.processed).recordSettledSources assembled.processed.settlements,
      block)

/-- `produce_block` without pending settlements. -/
def produceBlock (M : Machine σ ρ) (sign : Bytes → PQSignature) (pubkey : Bytes) (node : ChainNode σ ρ)
    (timestamp maxTxs : Nat) (candidates : List SignedTransaction) : Except NodeError (ChainNode σ ρ × Block) :=
  produceSettlingBlock M sign pubkey node timestamp maxTxs candidates []

end ShellChain
