import ShellChain.Crypto
import ShellChain.Lib.ByteCodec

/-!
# Proof amendments

A prover announces a proof for a range of blocks in an amendment. The amendment carries an envelope with the key and the
signature of the prover over the message of `signing_message` (`stark-prover/src/amendment.rs`).
-/

namespace ShellChain

open ByteCodec

/-- A proof of a batch of signatures. -/
structure SigBatchProof where
  version : UInt8
  batchRootBytes : Bytes
  batchRoot_length : batchRootBytes.length = 32
  nSigs : Nat
  proofBytes : Bytes

instance : DecidableEq SigBatchProof := fun p q =>
  decidable_of_iff (p.version = q.version ∧ p.batchRootBytes = q.batchRootBytes ∧ p.nSigs = q.nSigs ∧
    p.proofBytes = q.proofBytes) (by cases p; cases q; simp)

/-- A proof for the blocks of a range, and who proved it. -/
structure ProofAmendment where
  version : UInt8
  blockHash : ShellHash
  /-- The last block of the range. -/
  blockNumber : Nat
  startBlock : Option Nat
  proof : SigBatchProof
  prover : Address
  proverSignature : Bytes
  layer : Nat
  sourceHashes : List ShellHash
  originalSize : Option Nat
  compressedSize : Option Nat
  deriving DecidableEq

def proofAmendmentVersion : UInt8 :=
  1

def proverAuthVersion : UInt8 :=
  1

def maxProverPublicKeyBytes : Nat :=
  4096

def maxSignatureBytes : Nat :=
  51200

/-- The bytes of `shell-proof-amendment-auth-v1`. -/
def amendmentDomain : Bytes :=
  [0x73, 0x68, 0x65, 0x6c, 0x6c, 0x2d, 0x70, 0x72, 0x6f, 0x6f, 0x66, 0x2d, 0x61, 0x6d, 0x65, 0x6e, 0x64, 0x6d, 0x65, 0x6e,
    0x74, 0x2d, 0x61, 0x75, 0x74, 0x68, 0x2d, 0x76, 0x31]

/-- `push_optional_u64`. -/
def optionalU64 : Option Nat → Bytes
  | some value => 1 :: beBytes 8 value
  | none => [0]

def SignatureType.fromU8 (v : UInt8) : Option SignatureType :=
  if v = 0 then some .dilithium3
  else if v = 1 then some .mlDsa65
  else if v = 2 then some .sphincsSha2256f
  else none

/-- `verify_signature`: an algorithm that is not allowed is an error. -/
def verifySignature (Γ : Ctx) (r : AlgorithmRegistry) (sigType : SignatureType) (pubkey message signature : Bytes) :
    Option Bool :=
  if ¬ r.isAlgorithmAllowed sigType then none else Γ.verify pubkey message ⟨sigType, signature⟩

/-- What an authentication envelope holds. -/
structure ProverAuthentication where
  sigType : SignatureType
  publicKey : Bytes
  signature : Bytes
  deriving DecidableEq

/-- The errors of `verify_prover_authentication`. -/
inductive ProverAuthError
  | unsupportedVersion (version : UInt8)
  | missingEnvelope
  | unsupportedAuthVersion
  | unsupportedAlgorithm
  | invalidPublicKeyLength
  | missingSignature
  | signatureTooLong
  | compressedSizeMismatch (expected : Nat)
  | addressMismatch
  | invalidSignature
  | verificationError
  deriving DecidableEq

/-- The envelope taken apart: a version byte, an algorithm byte, the length of the key in two bytes, the key and the
signature. -/
def decodeProverAuthentication : Bytes → Except ProverAuthError ProverAuthentication
  | version :: algo :: lenHigh :: lenLow :: body =>
    if version ≠ proverAuthVersion then .error .unsupportedAuthVersion
    else
      match SignatureType.fromU8 algo with
      | none => .error .unsupportedAlgorithm
      | some sigType =>
        let publicKeyLen := lenHigh.toNat * 256 + lenLow.toNat
        if publicKeyLen = 0 ∨ maxProverPublicKeyBytes < publicKeyLen then .error .invalidPublicKeyLength
        else if body.length ≤ publicKeyLen then .error .missingSignature
        else if maxSignatureBytes < (body.drop publicKeyLen).length then .error .signatureTooLong
        else .ok ⟨sigType, body.take publicKeyLen, body.drop publicKeyLen⟩
  | _ => .error .missingEnvelope

namespace ProofAmendment

def signingMessage (Γ : Ctx) (a : ProofAmendment) : Bytes :=
  amendmentDomain ++ ([a.version] ++ a.blockHash.bytes ++ beBytes 8 a.blockNumber ++ optionalU64 a.startBlock ++
    [a.proof.version] ++ a.proof.batchRootBytes ++ beBytes 8 a.proof.nSigs ++ (Γ.blake3 a.proof.proofBytes).bytes ++
    a.prover.bytes ++ beBytes 4 a.layer ++ beBytes 8 a.sourceHashes.length ++
    (a.sourceHashes.map ShellHash.bytes).flatten ++ optionalU64 a.originalSize ++ optionalU64 a.compressedSize)

def estimatedWireSizeBytes (a : ProofAmendment) : Nat :=
  a.proof.proofBytes.length + 32 + 8 + 20 + a.proverSignature.length + min (a.sourceHashes.length * 32) u64Max + 32

def verifyProverAuthentication (Γ : Ctx) (r : AlgorithmRegistry) (a : ProofAmendment) : Except ProverAuthError Unit :=
  if a.version ≠ proofAmendmentVersion then .error (.unsupportedVersion a.version)
  else
    match decodeProverAuthentication a.proverSignature with
    | .error e => .error e
    | .ok auth =>
      if a.compressedSize ≠ some a.estimatedWireSizeBytes then .error (.compressedSizeMismatch a.estimatedWireSizeBytes)
      else if Address.fromPublicKey Γ auth.publicKey auth.sigType.asU8 ≠ a.prover then .error .addressMismatch
      else
        match verifySignature Γ r auth.sigType auth.publicKey (a.signingMessage Γ) auth.signature with
        | none => .error .verificationError
        | some false => .error .invalidSignature
        | some true => .ok ()

end ProofAmendment

end ShellChain
