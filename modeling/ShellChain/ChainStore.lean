import ShellChain.Validation

/-!
# Witness-separated storage of blocks

A block is stored in two parts (`core/src/block.rs`, `witness.rs`, `storage/src/chain_store.rs`): the stripped body keeps the
payloads, and the witness bundle keeps the signatures and the embedded keys. A block whose bundle is missing, or has the
wrong length, is read with stub signatures.

The parts are stored as RLP. The store of the model holds the encoded values themselves, and `reread` is what decoding makes
of an encoded value: the encoding does not tell an absent list or byte string from an empty one, and decoding refuses what
exceeds its limits. The header, the seal and the system transactions of a body are read as they were written.
-/

namespace ShellChain

open Checks

/-- The error of reading a stored block. -/
inductive BlockReadError
  | codec
  deriving DecidableEq

/-! ## Stripped blocks -/

/-- A transaction without its signature and key. -/
structure StrippedTransaction where
  sender : Address
  tx : Transaction
  aaBundle : Option AaBundle
  deriving DecidableEq

/-- The signature of a transaction and the key it embeds. -/
structure TxWitness where
  signature : PQSignature
  pubkey : Option Bytes
  deriving DecidableEq

/-- The witnesses of a block, one for each transaction. -/
structure WitnessBundle where
  witnesses : List TxWitness
  deriving DecidableEq

/-- `WitnessBundle::compute_root`: zero for no witnesses. -/
def WitnessBundle.computeRoot (Γ : Ctx) (bundle : WitnessBundle) : ShellHash :=
  (MerkleFold.root (witnessNode Γ)
    (bundle.witnesses.map fun w => Γ.keccak256 (encodeWitnessParts (w.signature, w.pubkey)))).getD .zero

/-- A block without its witnesses. -/
structure StrippedBlock where
  header : BlockHeader
  transactions : List StrippedTransaction
  systemTransactions : List SystemTransaction
  proposerSeal : Option PQSignature
  deriving DecidableEq

/-- The payload of a transaction. -/
def SignedTransaction.strip (stx : SignedTransaction) : StrippedTransaction :=
  ⟨stx.sender, stx.tx, stx.aaBundle⟩

/-- The witness of a transaction, as the bundle keeps it. -/
def SignedTransaction.txWitness (stx : SignedTransaction) : TxWitness :=
  ⟨stx.signature, stx.pubkeyMode.pubkeyBytes⟩

def StrippedTransaction.withWitness (st : StrippedTransaction) (w : TxWitness) : SignedTransaction :=
  ⟨st.sender, st.tx, w.signature, (w.pubkey.map PubkeyMode.embedded).getD .reference, st.aaBundle⟩

/-- The witness that stands for a missing one: an empty Dilithium3 signature. -/
def TxWitness.stub : TxWitness :=
  ⟨⟨.dilithium3, []⟩, none⟩

namespace StrippedBlock

def split (block : Block) : StrippedBlock × WitnessBundle :=
  (⟨block.header, block.transactions.map SignedTransaction.strip, block.systemTransactions, block.proposerSeal⟩,
    ⟨block.transactions.map SignedTransaction.txWitness⟩)

/-- The transactions of `into_block`: the bundle is used only if it has one witness for each transaction. -/
def intoTransactions (transactions : List StrippedTransaction) (bundle : Option WitnessBundle) : List SignedTransaction :=
  match bundle with
  | some b =>
    if b.witnesses.length ≠ transactions.length then transactions.map (·.withWitness .stub)
    else List.zipWith StrippedTransaction.withWitness transactions b.witnesses
  | none => transactions.map (·.withWitness .stub)

def intoBlock (stripped : StrippedBlock) (bundle : Option WitnessBundle) : Block :=
  ⟨stripped.header, intoTransactions stripped.transactions bundle, stripped.systemTransactions, stripped.proposerSeal⟩

end StrippedBlock

/-! ## What decoding makes of an encoded value -/

/-- An empty byte string or list is read as an absent one. -/
def absentIfEmpty {α : Type} (value : Option (List α)) : Option (List α) :=
  value.filter (· ≠ [])

/-- `Transaction::decode` of an encoded transaction. -/
def Transaction.reread (tx : Transaction) : Except BlockReadError Transaction := do
  let items := tx.accessList.getD []
  ensure (items.length ≤ maxAccessListEntries) .codec
  ensure (items.all fun item => item.storageKeys.length ≤ maxAccessListStorageKeys) .codec
  ensure ((tx.blobVersionedHashes.getD []).length ≤ maxBlobHashesPerTx) .codec
  pure { tx with
    accessList := absentIfEmpty tx.accessList
    blobVersionedHashes := absentIfEmpty tx.blobVersionedHashes }

/-- `AaBundle::decode` of an encoded bundle, with the limits of its inner calls and its session. -/
def AaBundle.reread (bundle : AaBundle) : Except BlockReadError AaBundle := do
  ensure (bundle.innerCalls.length ≤ maxInnerCalls) .codec
  ensure (bundle.innerCalls.all fun call => call.data.length ≤ maxInnerCalldata) .codec
  ensure ((bundle.paymasterSignature.getD []).length ≤ maxSignatureBytes) .codec
  ensure ((bundle.paymasterContext.getD []).length ≤ maxPaymasterContext) .codec
  ensure (bundle.sessionAuth.all fun sa => sa.sessionPubkey.length ≤ maxSessionPubkey ∧
    sa.rootSignature.length ≤ maxSignatureBytes ∧ sa.sessionSignature.length ≤ maxSignatureBytes) .codec
  pure { bundle with
    paymasterSignature := absentIfEmpty bundle.paymasterSignature
    paymasterContext := absentIfEmpty bundle.paymasterContext }

/-- `StrippedTransaction::decode` of an encoded payload; only a bundle transaction may carry a bundle. -/
def StrippedTransaction.reread (st : StrippedTransaction) : Except BlockReadError StrippedTransaction := do
  let tx ← st.tx.reread
  match st.aaBundle with
  | none => pure { st with tx := tx }
  | some bundle =>
    ensure (st.tx.txType = aaBundleTxType) .codec
    let bundle ← bundle.reread
    pure { st with tx := tx, aaBundle := some bundle }

def maxMlDsa65SigBytes : Nat :=
  4096

/-- `PQSignature::validate_size`. -/
def PQSignature.validSize (sig : PQSignature) : Bool :=
  match sig.sigType with
  | .dilithium3 => sig.data.length ≤ maxMlDsa65SigBytes
  | .mlDsa65 => sig.data.length ≤ maxMlDsa65SigBytes
  | .sphincsSha2256f => sig.data.length ≤ maxSignatureBytes

/-- `TxWitness::decode` of an encoded witness. -/
def TxWitness.reread (w : TxWitness) : Except BlockReadError TxWitness := do
  ensure w.signature.validSize .codec
  pure { w with pubkey := absentIfEmpty w.pubkey }

/-- `StrippedBlock::decode` of an encoded body. -/
def StrippedBlock.reread (stripped : StrippedBlock) : Except BlockReadError StrippedBlock := do
  let transactions ← stripped.transactions.mapM StrippedTransaction.reread
  pure { stripped with transactions := transactions }

/-- `decode_witness_bundle` of an encoded bundle. -/
def WitnessBundle.reread (bundle : WitnessBundle) : Except BlockReadError WitnessBundle := do
  let witnesses ← bundle.witnesses.mapM TxWitness.reread
  pure ⟨witnesses⟩

/-! ## The store -/

/-- The parts of the chain store that blocks are read from. -/
structure ChainStore where
  /-- `b/<hash>`. -/
  bodies : ShellHash → Option StrippedBlock
  /-- `w/<hash>`. -/
  witnesses : ShellHash → Option WitnessBundle
  /-- `n/<number>`. -/
  canonical : Nat → Option ShellHash

namespace ChainStore

/-- `put_block`: a block without transactions has no bundle. -/
def putBlock (Γ : Ctx) (s : ChainStore) (block : Block) : ChainStore :=
  let hash := block.hash Γ
  let parts := StrippedBlock.split block
  { s with
    bodies := Function.update s.bodies hash (some parts.1)
    witnesses := if block.transactions = [] then s.witnesses
      else Function.update s.witnesses hash (some parts.2) }

def setCanonical (s : ChainStore) (number : Nat) (hash : ShellHash) : ChainStore :=
  { s with canonical := Function.update s.canonical number (some hash) }

def deleteWitnessBundle (s : ChainStore) (hash : ShellHash) : ChainStore :=
  { s with witnesses := Function.update s.witnesses hash none }

/-- The store with another bundle at a hash. -/
def replaceWitnessBundle (s : ChainStore) (hash : ShellHash) (bundle : WitnessBundle) : ChainStore :=
  { s with witnesses := Function.update s.witnesses hash (some bundle) }

def getBlockByHash (s : ChainStore) (hash : ShellHash) : Except BlockReadError (Option Block) :=
  match s.bodies hash with
  | none => .ok none
  | some body => do
    let stripped ← body.reread
    match s.witnesses hash with
    | none => pure (some (stripped.intoBlock none))
    | some encoded =>
      let bundle ← encoded.reread
      pure (some (stripped.intoBlock (some bundle)))

def getBlockByNumber (s : ChainStore) (number : Nat) : Except BlockReadError (Option Block) :=
  match s.canonical number with
  | none => .ok none
  | some hash => s.getBlockByHash hash

end ChainStore

end ShellChain
