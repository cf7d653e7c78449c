import ShellChain.Transaction
import ShellChain.Lib.MerkleFold

/-!
# Blocks, receipts and system transactions

The block with its body, the receipts of its execution, and the commitments that are computed from them
(`core/src/block.rs`, `receipt.rs`, `reward.rs`, `witness.rs`).
-/

namespace ShellChain

open ByteCodec

/-- The bytes of an ASCII text. -/
def ascii (text : String) : Bytes :=
  text.toList.map fun c => UInt8.ofNat c.toNat

/-! ## System transactions -/

/-- The kinds of system transactions. -/
inductive SystemTxKind
  | blockGasReward
  | starkReward
  deriving DecidableEq, Repr

def SystemTxKind.asU8 : SystemTxKind → UInt8
  | .blockGasReward => 1
  | .starkReward => 2

/-- A transaction derived from consensus rules. -/
structure SystemTransaction where
  kind : SystemTxKind
  chainId : Nat
  blockNumber : Nat
  txIndex : Nat
  source : Address
  recipient : Address
  value : Nat
  sourceHash : ShellHash
  layer : Option Nat
  originalSize : Option Nat
  compressedSize : Option Nat
  proofPayload : Option Bytes
  deriving DecidableEq

namespace SystemTransaction

def blockGasReward (chainId blockNumber txIndex : Nat) (recipient : Address) (value : Nat) (parentHash : ShellHash) :
    SystemTransaction :=
  ⟨.blockGasReward, chainId, blockNumber, txIndex, .zero, recipient, value, parentHash, none, none, none, none⟩

def hash (Γ : Ctx) (tx : SystemTransaction) : ShellHash :=
  Γ.keccak256 (ascii "shell:system-tx:v1" ++ [tx.kind.asU8] ++ beBytes 8 tx.chainId ++ beBytes 8 tx.blockNumber ++
    beBytes 4 tx.txIndex ++ tx.source.bytes ++ tx.recipient.bytes ++ beBytes 32 tx.value ++ tx.sourceHash.bytes ++
    beBytes 4 (tx.layer.getD 0) ++ beBytes 8 (tx.originalSize.getD 0) ++ beBytes 8 (tx.compressedSize.getD 0) ++
    (tx.proofPayload.map fun payload => beBytes 8 payload.length ++ payload).getD [])

end SystemTransaction

/-! ## Receipts -/

/-- An event log. -/
structure Log where
  address : Address
  topics : List ShellHash
  data : Bytes
  deriving DecidableEq

/-- The receipt of a transaction. -/
structure TransactionReceipt where
  txHash : ShellHash
  blockNumber : Nat
  txIndex : Nat
  status : Nat
  gasUsed : Nat
  cumulativeGasUsed : Nat
  contractAddress : Option Address
  logsBloom : Bytes
  logs : List Log
  deriving DecidableEq

/-- The receipt of a system transaction. -/
def SystemTransaction.receipt (Γ : Ctx) (tx : SystemTransaction) (cumulativeGas : Nat) : TransactionReceipt :=
  ⟨tx.hash Γ, tx.blockNumber, tx.txIndex, 1, 0, cumulativeGas, none, [], []⟩

def bloomSize : Nat :=
  256

/-- The bytes of a bloom joined into another of fixed length. -/
def orInto : Bytes → Bytes → Bytes
  | r :: rs, b :: bs => (r ||| b) :: orInto rs bs
  | rs, _ => rs

/-- `bloom_union_bytes`. -/
def bloomUnion (blooms : List Bytes) : Bytes :=
  blooms.foldl orInto (List.replicate bloomSize 0)

def blockBloom (receipts : List TransactionReceipt) : Bytes :=
  bloomUnion (receipts.map TransactionReceipt.logsBloom)

/-! ## Blocks -/

/-- A block. The seal is outside the header. -/
structure Block where
  header : BlockHeader
  transactions : List SignedTransaction
  systemTransactions : List SystemTransaction
  proposerSeal : Option PQSignature
  deriving DecidableEq

/-- `Block::hash`: the hash of the header. -/
def Block.hash (Γ : Ctx) (block : Block) : ShellHash :=
  block.header.hash Γ

def Block.number (block : Block) : Nat :=
  block.header.number

/-! ## The witness root -/

/-- The embedded key of a transaction. -/
def PubkeyMode.pubkeyBytes : PubkeyMode → Option Bytes
  | .embedded pubkey => some pubkey
  | .reference => none

def PQSignature.encode (sig : PQSignature) : Bytes :=
  Rlp.list [Rlp.uint 1 sig.sigType.asU8.toNat, Rlp.string sig.data]

/-- The witness of a transaction: its signature and its embedded key. -/
def SignedTransaction.witness (stx : SignedTransaction) : PQSignature × Option Bytes :=
  (stx.signature, stx.pubkeyMode.pubkeyBytes)

/-- `TxWitness::encode_parts`: an absent key is encoded as an empty one. -/
def encodeWitnessParts (w : PQSignature × Option Bytes) : Bytes :=
  Rlp.list [w.1.encode, Rlp.string (w.2.getD [])]

/-- The combination of two nodes. -/
def witnessNode (Γ : Ctx) (left right : ShellHash) : ShellHash :=
  Γ.keccak256 (left.bytes ++ right.bytes)

/-- `WitnessBundle::compute_root_from_transactions`: zero for no transactions. -/
def witnessRootOf (Γ : Ctx) (transactions : List SignedTransaction) : ShellHash :=
  (MerkleFold.root (witnessNode Γ) (transactions.map fun stx => Γ.keccak256 (encodeWitnessParts stx.witness))).getD .zero

end ShellChain
