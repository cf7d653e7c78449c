import ShellChain.Crypto

/-!
# A concrete context

A context in which every external function is a small computable one. Concrete runs are evaluated in it. The digest of a
byte string is its first 32 bytes, padded with zeros, and the signature of a message under a key is the key followed by
the message.
-/

namespace ShellChain

/-- The first 32 bytes, padded with zeros. -/
def sampleDigest (bs : Bytes) : ShellHash :=
  ⟨(bs ++ List.replicate 32 0).take 32, by simp⟩

/-- The signature of a message under a key. -/
def sampleSign (pubkey message : Bytes) : Bytes :=
  pubkey ++ message

/-- The context of the concrete runs. -/
def sampleCtx : Ctx where
  blake3 := sampleDigest
  keccak256 := sampleDigest
  verify pubkey message sig := some (decide (sig.data = sampleSign pubkey message))

/-- The address of a key under ML-DSA-65. -/
def sampleAddress (pubkey : Bytes) : Address :=
  .fromPublicKey sampleCtx pubkey SignatureType.mlDsa65.asU8

end ShellChain
