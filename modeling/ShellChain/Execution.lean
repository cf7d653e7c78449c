import ShellChain.Fees
import ShellChain.Settlement
import ShellChain.Validation

/-!
# The execution of a block body

The body of a block is checked in three passes: the signatures against keys of the parent state, the policy of every
transaction against the parent state, and each transaction again in the state its predecessors left, where it is executed.
`import_block_inner` and `replay_fork_block_inner` (`node/src/node/block_importer.rs`) run the same three passes on different
stores.

The virtual machine, its world state and the records of account recovery are outside this model: a `Machine` gives what the
passes call of them.
-/

namespace ShellChain

open Checks

/-! ## States and contexts -/

/-- The fields of a header that validation and execution read. -/
structure BlockEnv where
  number : Nat
  timestamp : Nat
  gasLimit : Nat
  baseFeePerGas : Nat
  excessBlobGas : Nat
  proposer : Address
  deriving DecidableEq

/-- The fields of a header that validation and execution read. -/
def BlockHeader.env (hdr : BlockHeader) : BlockEnv :=
  ⟨hdr.number, hdr.timestamp, hdr.gasLimit, hdr.baseFeePerGas, hdr.excessBlobGas, hdr.proposer⟩

/-- What a transaction reads besides the state: the configuration, the block it is in, and what the chain store says about
the head and about earlier blocks (`BLOCKHASH`, the maturity of a recovery). -/
structure ExecContext where
  chainId : Nat
  config : ChainConfig
  env : BlockEnv
  headNumber : Nat
  blockHash : Nat → Option ShellHash

/-- A table of public keys by address. -/
abbrev KeyTable := Address → Option Bytes

def KeyTable.empty : KeyTable :=
  fun _ => none

/-- `entry(address).or_insert(pubkey)`. -/
def KeyTable.orInsert (t : KeyTable) (address : Address) (pubkey : Bytes) : KeyTable :=
  fun a => if a = address then some ((t a).getD pubkey) else t a

/-- The state of the chain at a block: the world state, the address-keyed metadata (public keys, and the guardians and
recoveries as one record), and the algorithm registry. -/
structure ExecState (σ ρ : Type) where
  world : σ
  pubkeys : KeyTable
  recovery : ρ
  registry : AlgorithmRegistry

/-- What the execution of a transaction returns. -/
structure ExecResult where
  gasUsed : Nat
  receipt : TransactionReceipt
  /-- `validate_system_contract_effects` accepts the effects; only the producer asks. -/
  effectsValid : Bool

/-- The functions outside the model that the processing of a block calls. -/
structure Machine (σ ρ : Type) extends Ctx where
  /-- `WorldState::get_nonce`. -/
  nonce : σ → Address → Nat
  /-- `WorldState::get_account`, as far as authentication reads it. -/
  account : σ → Address → Option AccountPolicy
  /-- `WorldState::get_validators`. -/
  validators : σ → List Address
  /-- `approved_algorithm_matured` at a height. -/
  algorithmMatured : Nat → σ → SignatureType → Bool
  /-- `validate_custom_contract`. -/
  customAccepts : ExecContext → ExecState σ ρ → SignedTransaction → ShellHash → Bytes → Bool
  /-- `call_paymaster_validate`. -/
  paymasterAccepts : ExecContext → ExecState σ ρ → SignedTransaction → Address → Bytes → Bool
  /-- `execute_tx` or `execute_aa_bundle` with the commit of the state, given the index of the transaction and the gas used
  before it. A failed execution may leave staged metadata behind. -/
  execute : ExecContext → ExecState σ ρ → SignedTransaction → Nat → Nat → ExecState σ ρ × Option ExecResult
  /-- `WorldState::add_balance`; none on overflow. -/
  addBalance : σ → Address → Nat → Option σ
  /-- `WorldState::get_registered_prover` is some. -/
  proverRegistered : σ → Address → Bool
  /-- `WorldState::record_prover_settlement`. -/
  recordProverSettlement : σ → Address → Nat → σ
  /-- `Node::apply_stark_mint`; none when the supply overflows. -/
  applyStarkMint : σ → SystemTransaction → Option σ
  /-- `process_pending_activations` at a height. -/
  processPendingActivations : Nat → σ → AlgorithmRegistry → Option (σ × AlgorithmRegistry)
  /-- `load_algorithm_registry`. -/
  loadAlgorithmRegistry : σ → Option AlgorithmRegistry
  /-- `WorldState::state_root`. -/
  stateRoot : σ → ShellHash
  /-- `SigBatchProof::to_json` and `from_json`. -/
  sigProofToJson : SigBatchProof → Option Bytes
  sigProofFromJson : Bytes → Option SigBatchProof
  /-- `verify_sig_batch`. -/
  verifySigBatch : SigBatchProof → Bool
  /-- `ProofAmendment::to_json` and `from_json`. -/
  amendmentToJson : ProofAmendment → Option Bytes
  amendmentFromJson : Bytes → Option ProofAmendment
  /-- `validate_stark_proof_source_binding`, from the stored blocks. -/
  proofSourceBinding : (ShellHash → Option Block) → ProofAmendment → Bool
  /-- The envelope of `decode_system_extra`. -/
  systemExtraFromJson : Bytes → Option (List ProofAmendment)

variable {σ ρ : Type}

/-- What validation sees of a state. -/
def Machine.view (M : Machine σ ρ) (ctx : ExecContext) (s : ExecState σ ρ) : ValidationView where
  config := ctx.config
  registry := s.registry
  blockNumber := ctx.env.number
  account := M.account s.world
  pubkey := s.pubkeys
  validators := M.validators s.world
  algorithmMatured := M.algorithmMatured ctx.env.number s.world
  customAccepts := M.customAccepts ctx s
  paymasterAccepts := M.paymasterAccepts ctx s

/-! ## Errors -/

/-- The reasons for which a block is refused, with the values that the messages show. -/
inductive BlockError
  | genesisImport
  | parentNotFound (parentHash : ShellHash) (number : Nat)
  | tooManyTransactions (number count limit : Nat)
  | missingSeal (number : Nat)
  | unknownProposer (proposer : Address)
  | invalidProposer (expected got : Address)
  | timestampAhead (number timestamp maxFuture : Nat)
  | timestampBehind (number timestamp parentTimestamp blockTime : Nat)
  | numberOverflow
  | numberMismatch (number parentNumber : Nat)
  | parentHashMismatch
  | proposerKeyUnknown (number : Nat) (proposer : Address)
  | invalidSeal
  | invalidBaseFee (expected got : Nat)
  | invalidExcessBlobGas (expected got : Nat)
  | blobGasExceeded (number index : Nat)
  | blobFeeTooLow (number index blobBaseFee : Nat)
  | blobGasUsedMismatch (number expected got : Nat)
  | witnessRootMismatch (number : Nat) (header computed : ShellHash)
  | aggregateProofInvalid (number : Nat)
  | systemExtraInvalid
  | deprecatedSystemExtra (number : Nat)
  | settlementPayloadMissing (number : Nat) (txHash : ShellHash)
  | settlementPayloadInvalid (number : Nat) (txHash : ShellHash)
  | settlementMetadataMismatch (number : Nat) (txHash : ShellHash)
  | settlementOrdering (error : SettlementError)
  | settlementAuthentication (error : ProverAuthError)
  | settlementSourceBinding (blockNumber : Nat)
  | settlementReward
  | proverNotRegistered
  | mintOverflow
  | emptySignature (number : Nat) (txHash : ShellHash)
  | rootKeyMismatch (number : Nat) (txHash : ShellHash) (sender : Address)
  | sessionSignatureMismatch (number : Nat) (txHash : ShellHash)
  | sessionRootInvalid (number : Nat) (txHash : ShellHash)
  | pubkeyUnavailable (number : Nat) (txHash : ShellHash) (sender : Address)
  | batchVerification (number : Nat)
  | txValidation (number : Nat) (error : TxValidationError)
  | nonceExhausted (number : Nat) (sender : Address)
  | exceedsBlockGas (number index : Nat)
  | sequentialValidation (number index : Nat) (error : TxValidationError)
  | execution (number index : Nat)
  | gasUsedMismatch (number expected got : Nat)
  | rewardOverflow
  | systemTransactionsMismatch (number : Nat)
  | activation (number : Nat)
  | logsBloomMismatch (number : Nat)
  | stateRootMismatch (number : Nat) (expected got : ShellHash)
  deriving DecidableEq

/-! ## The signatures of the block -/

/-- `batch_signing_pubkey`: the key the outer signature of a transaction is checked against. -/
def batchSigningPubkey (Γ : Ctx) (v : ValidationView) (stx : SignedTransaction) (rootPubkey : Bytes) :
    Except BlockError Bytes := do
  let number := v.blockNumber
  ensure (stx.signature.data ≠ []) (.emptySignature number (stx.hash Γ))
  match ValidationView.sessionOf stx with
  | none => pure rootPubkey
  | some (_, auth) =>
    let bound := addressBound Γ rootPubkey stx.sender
    let registeredUpgrade := v.sessionRootDeprecationEnabled stx.sender rootPubkey
    let registeredBinding := activeAt v.config.sessionRegisteredRootHeight number && !bound &&
      decide (v.pubkey stx.sender = some rootPubkey)
    ensure ((inferSignatureTypeFromAddress Γ v.registry rootPubkey stx.sender).isSome || (registeredUpgrade && bound) ||
      registeredBinding) (.rootKeyMismatch number (stx.hash Γ) stx.sender)
    ensure (stx.signature.sigType.asU8 = auth.sessionAlgo ∧ stx.signature.data = auth.sessionSignature)
      (.sessionSignatureMismatch number (stx.hash Γ))
    ensure (v.verifySessionRootAuthorization Γ Γ.verify stx auth rootPubkey) (.sessionRootInvalid number (stx.hash Γ))
    pure auth.sessionPubkey

/-- The keys seen while the signatures are collected: of the senders of the block, and of those the store does not know. -/
structure KeyStage where
  blockPubkeys : KeyTable
  newPubkeys : KeyTable

/-- The stage with the embedded key of a transaction. -/
def KeyStage.stage (k : KeyStage) (v : ValidationView) (sender : Address) (pubkey : Bytes) : KeyStage where
  blockPubkeys := k.blockPubkeys.orInsert sender pubkey
  newPubkeys := if (v.pubkey sender).isNone then k.newPubkeys.orInsert sender pubkey else k.newPubkeys

/-- The key that the signature of a transaction is checked against in the batch. A sender with a custom validator has none,
and neither it nor a governance fallback key is staged for registration. -/
def signingKey (Γ : Ctx) (v : ValidationView) (k : KeyStage) (stx : SignedTransaction) :
    Except BlockError (KeyStage × Option Bytes) :=
  if ((v.account stx.sender).bind AccountPolicy.validationCodeHash).isSome then .ok (k, none)
  else
    match v.governanceFallbackPubkey Γ stx with
    | some key => .ok (k, some key)
    | none =>
      match stx.pubkeyMode with
      | .embedded pubkey => do
        let key ← batchSigningPubkey Γ v stx pubkey
        pure (k.stage v stx.sender pubkey, some key)
      | .reference =>
        match (k.blockPubkeys stx.sender).orElse fun _ => v.pubkey stx.sender with
        | none => .error (.pubkeyUnavailable v.blockNumber (stx.hash Γ) stx.sender)
        | some pubkey => do
          let key ← batchSigningPubkey Γ v stx pubkey
          pure (k, some key)

/-- The stage after the transactions of a block, and the transactions with the keys of the batch. -/
def signingKeys (Γ : Ctx) (v : ValidationView) :
    KeyStage → List SignedTransaction → Except BlockError (KeyStage × List (SignedTransaction × Bytes))
  | k, [] => .ok (k, [])
  | k, stx :: rest => do
    let first ← signingKey Γ v k stx
    let others ← signingKeys Γ v first.1 rest
    pure (others.1, (first.2.toList.map fun key => (stx, key)) ++ others.2)

/-- `verify_batch_all`: every signature of the batch verifies. -/
def verifyBatchAll (Γ : Ctx) (items : List (SignedTransaction × Bytes)) : Bool :=
  items.all fun item => Γ.verify item.2 (item.1.senderSigningHash Γ).bytes item.1.signature = some true

/-! ## Validation against the parent state -/

/-- `tx_for_import_validation`: a reference to a key that only the block holds is resolved. -/
def txForImportValidation (v : ValidationView) (validationPubkeys : KeyTable) (stx : SignedTransaction) :
    SignedTransaction :=
  match stx.pubkeyMode with
  | .embedded _ => stx
  | .reference =>
    if (v.pubkey stx.sender).isSome then stx
    else
      match validationPubkeys stx.sender with
      | none => stx
      | some pubkey => { stx with pubkeyMode := .embedded pubkey }

/-- The table with the key a transaction embeds. -/
def KeyTable.withEmbedded (t : KeyTable) (stx : SignedTransaction) : KeyTable :=
  match stx.pubkeyMode with
  | .embedded pubkey => t.orInsert stx.sender pubkey
  | .reference => t

/-- The keys that the transactions of a block embed, the first of each sender. -/
def embeddedPubkeys (transactions : List SignedTransaction) : KeyTable :=
  transactions.foldl KeyTable.withEmbedded .empty

/-- The policy pass: every transaction is validated in the parent state, with the nonces counted up by sender. After the
batch the verifier takes every signature as verified. -/
def validateInParentState (M : Machine σ ρ) (verify : Verifier) (ctx : ExecContext) (s : ExecState σ ρ) :
    KeyTable → (Address → Option Nat) → List SignedTransaction → Except BlockError Unit
  | _, _, [] => .ok ()
  | keys, nonces, stx :: rest => do
    let v := M.view ctx s
    let expectedNonce := (nonces stx.sender).getD (M.nonce s.world stx.sender)
    (v.validateTxForImport M.toCtx ctx.chainId verify expectedNonce (txForImportValidation v keys stx)).mapError
      (.txValidation ctx.env.number)
    match checkedAdd expectedNonce 1 with
    | none => throw (.nonceExhausted ctx.env.number stx.sender)
    | some next =>
      validateInParentState M verify ctx s (keys.withEmbedded stx) (Function.update nonces stx.sender (some next)) rest

/-! ## Execution in order -/

/-- The largest 256-bit integer. -/
def u256Max : Nat :=
  2 ^ 256 - 1

/-- The fees with those of one more transaction, saturating. -/
def addFees (fees gasUsed price : Nat) : Nat :=
  min (fees + min (gasUsed * price) u256Max) u256Max

/-- What the execution of the transactions of a block has come to. -/
structure Progress (σ ρ : Type) where
  state : ExecState σ ρ
  cumulativeGas : Nat
  fees : Nat
  receipts : List TransactionReceipt

/-- The progress before the first transaction. -/
def Progress.start (s : ExecState σ ρ) : Progress σ ρ :=
  ⟨s, 0, 0, []⟩

/-- The progress with one more executed transaction. -/
def Progress.add (p : Progress σ ρ) (ctx : ExecContext) (stx : SignedTransaction) (state : ExecState σ ρ)
    (result : ExecResult) (cumulativeGas : Nat) : Progress σ ρ where
  state := state
  cumulativeGas := cumulativeGas
  fees := addFees p.fees result.gasUsed
    (effectiveGasPrice stx.tx.maxFeePerGas stx.tx.maxPriorityFeePerGas ctx.env.baseFeePerGas)
  receipts := p.receipts ++ [result.receipt]

/-- `validate_import_tx_in_current_state`. -/
def validateInCurrentState (M : Machine σ ρ) (ctx : ExecContext) (keys : KeyTable) (s : ExecState σ ρ)
    (stx : SignedTransaction) : Except TxValidationError Unit :=
  let v := M.view ctx s
  v.validateTxForImport M.toCtx ctx.chainId M.verify (M.nonce s.world stx.sender) (txForImportValidation v keys stx)

/-- One transaction of the import loop: it fits, is valid in the current state, executes, and its gas stays in the limit. -/
def executeTx (M : Machine σ ρ) (ctx : ExecContext) (keys : KeyTable) (index : Nat) (p : Progress σ ρ)
    (stx : SignedTransaction) : Except BlockError (Progress σ ρ) := do
  ensure (txFitsRemainingBlockGas stx p.cumulativeGas ctx.env.gasLimit) (.exceedsBlockGas ctx.env.number index)
  (validateInCurrentState M ctx keys p.state stx).mapError (.sequentialValidation ctx.env.number index)
  match M.execute ctx p.state stx index p.cumulativeGas with
  | (_, none) => throw (.execution ctx.env.number index)
  | (state, some result) =>
    match checkedCumulativeBlockGas p.cumulativeGas result.gasUsed ctx.env.gasLimit with
    | none => throw (.exceedsBlockGas ctx.env.number index)
    | some cumulativeGas => pure (p.add ctx stx state result cumulativeGas)

/-- The import loop over the transactions of a block. -/
def executeTxs (M : Machine σ ρ) (ctx : ExecContext) (keys : KeyTable) :
    Nat → Progress σ ρ → List SignedTransaction → Except BlockError (Progress σ ρ)
  | _, p, [] => .ok p
  | index, p, stx :: rest => do
    let next ← executeTx M ctx keys index p stx
    executeTxs M ctx keys (index + 1) next rest

end ShellChain
