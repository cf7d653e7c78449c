import ShellChain.Amendment
import ShellChain.Transaction

/-!
# Batches of signatures

The entries of a batch of transactions, the root that commits to them and the commitment that a producer puts into a header
(`node/src/node/stark_sources.rs`, `stark-prover/src/proof.rs` and `prover.rs`).
-/

namespace ShellChain

open ByteCodec

/-- The public values of one signature of a batch. -/
structure SigBatchEntry where
  msgHash : ShellHash
  pkHash : ShellHash
  deriving DecidableEq

/-- The first 32 bytes of a string, padded with zeros. -/
def first32 (bs : Bytes) : ShellHash :=
  ⟨bs.take 32 ++ List.replicate (32 - bs.length) 0, by simp; omega⟩

def txToSigBatchEntry (Γ : Ctx) (stx : SignedTransaction) : SigBatchEntry where
  msgHash := stx.senderSigningHash Γ
  pkHash :=
    match stx.pubkeyMode with
    | .embedded pubkey => first32 pubkey
    | .reference => first32 stx.sender.bytes

def entriesFromTxs (Γ : Ctx) (transactions : List SignedTransaction) : List SigBatchEntry :=
  transactions.map (txToSigBatchEntry Γ)

/-- The modulus of the field of the proofs. -/
def f128Modulus : Nat :=
  2 ^ 128 - 45 * 2 ^ 40 + 1

/-- The number of little-endian bytes. -/
def leNat (bs : Bytes) : Nat :=
  bs.foldr (fun b n => b.toNat + 256 * n) 0

/-- `to_field_elements`: the halves of the digest of an entry. -/
def SigBatchEntry.toFieldElements (Γ : Ctx) (e : SigBatchEntry) : Nat × Nat :=
  let leaf := (Γ.blake3 (e.msgHash.bytes ++ e.pkHash.bytes)).bytes
  (leNat (leaf.take 16) % f128Modulus, leNat (leaf.drop 16) % f128Modulus)

/-- `compute_batch_root`: two accumulators, each cubed before the next entry is added. -/
def computeBatchRoot (Γ : Ctx) (entries : List SigBatchEntry) : Bytes :=
  let acc := entries.foldl (fun (acc : Nat × Nat) e =>
    ((acc.1 ^ 3 + (e.toFieldElements Γ).1) % f128Modulus, (acc.2 ^ 3 + (e.toFieldElements Γ).2) % f128Modulus)) (0, 0)
  leBytes 16 acc.1 ++ leBytes 16 acc.2

@[simp]
theorem length_computeBatchRoot (Γ : Ctx) (entries : List SigBatchEntry) : (computeBatchRoot Γ entries).length = 32 := by
  simp [computeBatchRoot]

def sigBatchProofVersion : UInt8 :=
  2

def SigBatchProof.commitmentOnly (batchRootBytes : Bytes) (h : batchRootBytes.length = 32) (nSigs : Nat) : SigBatchProof :=
  ⟨sigBatchProofVersion, batchRootBytes, h, nSigs, []⟩

end ShellChain
