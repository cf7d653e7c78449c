import ShellChain.Execution
import ShellChain.Votes

/-!
# The node and the checks of a block

The state of a node as far as blocks are concerned, the checks of a block's header, and the processing of its body on a
given state (`node/src/node/block_importer.rs`). Reads of the store do not fail here.
-/

namespace ShellChain

open Checks

variable {σ ρ : Type}

/-! ## The consensus engine -/

/-- What the import of a block reads of the engine: the active set, the proposer of a height in the current view, and the
first view in which an address may propose. -/
structure Engine where
  isActive : Address → Bool
  proposerForBlock : Nat → Address
  baseProposerForBlock : Nat → Address
  firstViewForProposer : Nat → Address → Option Nat
  validatorWeights : ValidatorWeights
  blockTimeSecs : Nat
  maxFutureSecs : Nat

/-- `VIEW_CHANGE_TIMEOUT_MS` in whole seconds. -/
def viewChangeTimeoutSecs : Nat :=
  10

namespace Engine

def verifyHeader (e : Engine) (hdr : BlockHeader) : Except BlockError Unit := do
  ensure (e.isActive hdr.proposer) (.unknownProposer hdr.proposer)
  ensure (hdr.proposer = e.proposerForBlock hdr.number) (.invalidProposer (e.proposerForBlock hdr.number) hdr.proposer)

/-- `WPoaEngine::verify_header_for_finalized_import`: a proposer of a later view must have waited for it. -/
def verifyHeaderForFinalizedImport (e : Engine) (hdr parent : BlockHeader) : Except BlockError Unit :=
  match e.firstViewForProposer hdr.number hdr.proposer with
  | none => .error (.unknownProposer hdr.proposer)
  | some view =>
    let timeout := max viewChangeTimeoutSecs e.blockTimeSecs
    ensure (view = 0 ∨ saturatingAdd parent.timestamp (min (timeout * view) u64Max) ≤ hdr.timestamp)
      (.invalidProposer (e.baseProposerForBlock hdr.number) hdr.proposer)

end Engine

/-! ## The node -/

/-- The configuration of a node. -/
structure NodeConfig where
  chainId : Nat
  chainConfig : ChainConfig
  /-- `max_tx_per_block` of the network. -/
  maxTxPerBlock : Nat
  proposerAddress : Option Address
  /-- `stark_aggregation`. -/
  starkAggregation : Bool

/-- What fork adoption reads of the fork choice: the preferred head, the number and the attested weight of a block, and the
paths between blocks. -/
structure ForkChoice where
  head : ShellHash
  score : ShellHash → Option (Nat × Nat)
  findCommonAncestor : ShellHash → ShellHash → Option ShellHash
  chainBetween : ShellHash → ShellHash → List ShellHash

/-- A node: the store, the live state, and what consensus and the prover keep in memory. -/
structure ChainNode (σ ρ : Type) where
  config : NodeConfig
  engine : Engine
  head : Block
  /-- The blocks by hash. -/
  blocks : ShellHash → Option Block
  /-- The canonical hash of a height. -/
  canonical : Nat → Option ShellHash
  receipts : ShellHash → Option (List TransactionReceipt)
  state : ExecState σ ρ
  /-- The world states that are stored, by root. -/
  worldAt : ShellHash → Option σ
  /-- The undo journal of a block: the metadata before it. -/
  metadataUndo : ShellHash → Option (KeyTable × ρ)
  /-- A commit certificate is stored for the block and verifies. -/
  certified : Nat → ShellHash → Bool
  knownAuthorities : KeyTable
  finality : FinalityState
  /-- The finalized number in the store. -/
  finalizedNumber : Option Nat
  forkChoice : ForkChoice
  settledSources : Finset (Nat × ShellHash)
  settledFrontiers : Nat → Option Nat
  /-- A proof artifact or a witness bundle is stored for the hash. -/
  storedArtifact : ShellHash → Bool

namespace ChainNode

/-- `get_block_by_number` as `BLOCKHASH` reads it. -/
def blockHashAt (Γ : Ctx) (node : ChainNode σ ρ) (number : Nat) : Option ShellHash :=
  ((node.canonical number).bind node.blocks).map (Block.hash Γ)

/-- The context in which a block of the header is processed on the live store. -/
def execContext (Γ : Ctx) (node : ChainNode σ ρ) (hdr : BlockHeader) : ExecContext where
  chainId := node.config.chainId
  config := node.config.chainConfig
  env := hdr.env
  headNumber := node.head.number
  blockHash := node.blockHashAt Γ

/-- What the settlement checks read of the live node. -/
def settlementView (M : Machine σ ρ) (node : ChainNode σ ρ) : SettlementView where
  headNumber := node.head.number
  canonicalHash := node.canonical
  settledSources := node.settledSources
  settledFrontiers := node.settledFrontiers
  storedSource h := node.storedArtifact h || (node.blocks h).isSome
  transactionCount h := (node.blocks h).map fun block => block.transactions.length
  sourceBinding := M.proofSourceBinding node.blocks

/-- `authority_pubkey`: a known authority, else a key of the live store. -/
def authorityPubkey (node : ChainNode σ ρ) (authority : Address) : Option Bytes :=
  (node.knownAuthorities authority).orElse fun _ => node.state.pubkeys authority

end ChainNode

/-! ## Checks of the header -/

/-- The checks of `verify_import_consensus` after the transaction count; the key that verified the seal is returned. -/
def consensusRules (M : Machine σ ρ) (node : ChainNode σ ρ) (now : Nat) (block parent : Block) (finalizedImport : Bool) :
    Except BlockError Bytes := do
  let hdr := block.header
  let e := node.engine
  match block.proposerSeal with
  | none => throw (.missingSeal block.number)
  | some proposerSeal =>
    if finalizedImport then e.verifyHeaderForFinalizedImport hdr parent.header else e.verifyHeader hdr
    ensure (hdr.timestamp ≤ saturatingAdd now e.maxFutureSecs)
      (.timestampAhead block.number hdr.timestamp e.maxFutureSecs)
    ensure (saturatingAdd parent.header.timestamp e.blockTimeSecs ≤ hdr.timestamp)
      (.timestampBehind block.number hdr.timestamp parent.header.timestamp e.blockTimeSecs)
    ensure (checkedAdd parent.number 1).isSome .numberOverflow
    ensure (block.number = parent.number + 1) (.numberMismatch block.number parent.number)
    ensure (hdr.parentHash = parent.hash M.toCtx) .parentHashMismatch
    match node.authorityPubkey hdr.proposer with
    | none => throw (.proposerKeyUnknown block.number hdr.proposer)
    | some pubkey =>
      ensure (verifySeal M.toCtx hdr proposerSeal pubkey) .invalidSeal
      pure pubkey

def verifyImportConsensus (M : Machine σ ρ) (node : ChainNode σ ρ) (now : Nat) (block parent : Block)
    (finalizedImport : Bool) : Except BlockError Bytes := do
  ensure (block.transactions.length ≤ node.config.maxTxPerBlock)
    (.tooManyTransactions block.number block.transactions.length node.config.maxTxPerBlock)
  consensusRules M node now block parent finalizedImport

/-- The blob gas of the transactions of a block, each of which pays the blob base fee. -/
def cumulativeBlobGas (number blobBaseFee : Nat) : Nat → Nat → List SignedTransaction → Except BlockError Nat
  | _, used, [] => .ok used
  | index, used, stx :: rest =>
    match checkedCumulativeBlobGas used stx.tx.blobGas with
    | none => .error (.blobGasExceeded number index)
    | some next => do
      ensure (paysBlobBaseFee stx blobBaseFee) (.blobFeeTooLow number index blobBaseFee)
      cumulativeBlobGas number blobBaseFee (index + 1) next rest

def verifyImportEconomics (block parent : Block) : Except BlockError Unit := do
  let hdr := block.header
  let baseFee := calculateBaseFee parent.header.gasUsed parent.header.gasLimit parent.header.baseFeePerGas
  ensure (hdr.baseFeePerGas = baseFee) (.invalidBaseFee baseFee hdr.baseFeePerGas)
  let excess := calcExcessBlobGas parent.header.excessBlobGas parent.header.blobGasUsed
  ensure (hdr.excessBlobGas = excess) (.invalidExcessBlobGas excess hdr.excessBlobGas)
  let used ← cumulativeBlobGas block.number (calcBlobGasPrice excess) 0 0 block.transactions
  ensure (hdr.blobGasUsed = used) (.blobGasUsedMismatch block.number used hdr.blobGasUsed)

/-- `verify_incoming_witness_root`: a header without a root is not checked. -/
def verifyIncomingWitnessRoot (Γ : Ctx) (block : Block) : Except BlockError Unit :=
  match block.header.witnessRoot with
  | none => .ok ()
  | some expected =>
    let computed := witnessRootOf Γ block.transactions
    ensure (computed = expected) (.witnessRootMismatch block.number expected computed)

/-- `verify_import_sig_aggregate_proof`: a commitment without a proof is accepted. -/
def verifyImportSigAggregateProof (M : Machine σ ρ) (block : Block) : Except BlockError Unit :=
  match block.header.sigAggregateProof with
  | none => .ok ()
  | some bytes =>
    match M.sigProofFromJson bytes with
    | none => .error (.aggregateProofInvalid block.number)
    | some proof => ensure (proof.proofBytes = [] ∨ M.verifySigBatch proof) (.aggregateProofInvalid block.number)

/-- The checks of a block's header that import and fork adoption share, in the order of the source. -/
def verifyHeaderChecks (M : Machine σ ρ) (node : ChainNode σ ρ) (now : Nat) (block parent : Block)
    (finalizedImport : Bool) : Except BlockError Bytes := do
  let pubkey ← verifyImportConsensus M node now block parent finalizedImport
  verifyImportEconomics block parent
  verifyIncomingWitnessRoot M.toCtx block
  verifyImportSigAggregateProof M block
  pure pubkey

end ShellChain
