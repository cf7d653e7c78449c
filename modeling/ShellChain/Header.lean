import ShellChain.Crypto
import ShellChain.Lib.ByteCodec

/-!
# Block headers

The header of a block and the fixed-width encoding its hash is taken of (`core/src/block.rs`).
-/

namespace ShellChain

open ByteCodec

/-- A block header. -/
structure BlockHeader where
  parentHash : ShellHash
  stateRoot : ShellHash
  transactionsRoot : ShellHash
  receiptsRoot : ShellHash
  logsBloom : Bytes
  number : Nat
  gasLimit : Nat
  gasUsed : Nat
  timestamp : Nat
  extraData : Bytes
  proposer : Address
  sigAggregateProof : Option Bytes
  baseFeePerGas : Nat
  withdrawalsRoot : ShellHash
  parentBeaconBlockRoot : ShellHash
  blobGasUsed : Nat
  excessBlobGas : Nat
  witnessRoot : Option ShellHash
  deriving DecidableEq, Inhabited

/-- `BLOCK_HASH_DOMAIN`: the bytes of `SHELL_BLOCK_HDR` and a zero byte. -/
def blockHashDomain : Bytes :=
  [0x53, 0x48, 0x45, 0x4c, 0x4c, 0x5f, 0x42, 0x4c, 0x4f, 0x43, 0x4b, 0x5f, 0x48, 0x44, 0x52, 0x00]

namespace BlockHeader

/-- The digest of the aggregate proof, or zero when there is none. -/
def proofHash (Γ : Ctx) (hdr : BlockHeader) : ShellHash :=
  match hdr.sigAggregateProof with
  | some proof => Γ.blake3 proof
  | none => .zero

def canonicalEncode (Γ : Ctx) (hdr : BlockHeader) : Bytes :=
  blockHashDomain ++ hdr.parentHash.bytes ++ hdr.stateRoot.bytes ++ hdr.transactionsRoot.bytes ++ hdr.receiptsRoot.bytes ++
    (Γ.blake3 hdr.logsBloom).bytes ++ leBytes 8 hdr.number ++ leBytes 8 hdr.gasLimit ++ leBytes 8 hdr.gasUsed ++
    leBytes 8 hdr.timestamp ++ (Γ.blake3 hdr.extraData).bytes ++ hdr.proposer.bytes ++ (hdr.proofHash Γ).bytes ++
    leBytes 8 hdr.baseFeePerGas ++ hdr.withdrawalsRoot.bytes ++ hdr.parentBeaconBlockRoot.bytes ++
    leBytes 8 hdr.blobGasUsed ++ leBytes 8 hdr.excessBlobGas ++ (hdr.witnessRoot.getD .zero).bytes

def hash (Γ : Ctx) (hdr : BlockHeader) : ShellHash :=
  Γ.blake3 (hdr.canonicalEncode Γ)

end BlockHeader

end ShellChain
