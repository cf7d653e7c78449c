import ShellChain.Attestations

/-!
# Commit certificates

The votes that committed a block travel as a certificate: a JSON object from the text of an address to a signature
(`node/src/node/p2p_handlers.rs`). A node that did not see the votes accepts the block on the certificate alone. One address
can be written in several ways, so that several entries can name one signer; the entries are collected into a map from
addresses, in which the last one remains.

Texts are their UTF-8 bytes, and what the JSON parser makes of a byte string is arbitrary.
-/

namespace ShellChain

/-! ## Addresses as text -/

/-- The value of a hexadecimal digit. -/
def hexDigit (b : UInt8) : Option UInt8 :=
  if 0x30 ≤ b ∧ b ≤ 0x39 then some (b - 0x30)
  else if 0x61 ≤ b ∧ b ≤ 0x66 then some (b - 0x61 + 10)
  else if 0x41 ≤ b ∧ b ≤ 0x46 then some (b - 0x41 + 10)
  else none

/-- `hex::decode`: digits of either case, two for each byte. -/
def hexDecode : Bytes → Option Bytes
  | [] => some []
  | [_] => none
  | high :: low :: rest => do
    let high ← hexDigit high
    let low ← hexDigit low
    let bytes ← hexDecode rest
    pure ((high * 16 + low) :: bytes)

/-- `Address::from_str`: `0x` and 64 digits. -/
def Address.fromStr (s : Bytes) : Option Address := do
  let digits ← s.dropPrefix? [0x30, 0x78]
  let bytes ← if digits.length ≠ 64 then none else hexDecode digits
  if h : bytes.length = 32 then pure ⟨bytes, h⟩ else none

/-- The bytes of `Address(`. -/
def addressOpen : Bytes :=
  [0x41, 0x64, 0x64, 0x72, 0x65, 0x73, 0x73, 0x28]

/-- `parse_certificate_signer`: an address, or one in its debug form `Address(..)`. -/
def parseCertificateSigner (raw : Bytes) : Option Address :=
  match (raw.dropPrefix? addressOpen).bind fun s => s.dropSuffix? [0x29] with
  | some inner => Address.fromStr inner
  | none => Address.fromStr raw

/-! ## Decoding -/

/-- What the JSON parser makes of a byte string: an object of signatures, or an object of texts. -/
structure CertificateJson where
  signatures : Bytes → Option (HashMap Bytes PQSignature)
  texts : Bytes → Option (HashMap Bytes Bytes)

/-- The entries as a map, in which the last entry of a signer remains; nothing when an entry has no value. -/
def collectSigners (entries : List (Option (Address × PQSignature))) : Option (HashMap Address PQSignature) :=
  (entries.mapM id).map fun entries => entries.foldl (fun m e => m.insert e.1 e.2) ∅

/-- `decode_commit_certificate`: the entries of a legacy certificate are hexadecimal Dilithium3 signatures. -/
def decodeCommitCertificate (J : CertificateJson) (cert : Bytes) : Option (HashMap Address PQSignature) :=
  match J.signatures cert with
  | some raw => collectSigners (raw.entries.map fun e => (parseCertificateSigner e.1).map fun a => (a, e.2))
  | none => do
    let raw ← J.texts cert
    collectSigners (raw.entries.map fun e => do
      let address ← parseCertificateSigner e.1
      let data ← hexDecode e.2
      pure (address, ⟨.dilithium3, data⟩))

/-! ## Verification -/

/-- What the verification reads of the node. -/
structure CertificateEnv where
  registry : AlgorithmRegistry
  knownAuthorities : HashMap Address Bytes
  /-- The keys of the chain store; a failed read counts as no key. -/
  getPubkey : Address → Option Bytes
  validatorWeights : ValidatorWeights

/-- The key of a signer: of the known authorities, else of the store. -/
def CertificateEnv.signerPubkey (env : CertificateEnv) (signer : Address) : Option Bytes :=
  (env.knownAuthorities.lookup signer).or (env.getPubkey signer)

/-- The weight that the signature of a signer adds, when it is a validator's and verifies. -/
def certifiedWeight (Γ : Ctx) (env : CertificateEnv) (blockHash : ShellHash) (signer : Address) (sig : PQSignature) :
    Option Nat := do
  let weight ← env.validatorWeights.get signer
  let pubkey ← env.signerPubkey signer
  let sigType ← inferSignatureTypeFromAddress Γ env.registry pubkey signer
  if ¬ env.registry.isAlgorithmAllowed sigType then none
  else if sig.sigType ≠ sigType then none
  else if Γ.verify pubkey blockHash.bytes sig = some true then some weight
  else none

/-- The loop over the signatures: the sum of their weights, or nothing at the first one that fails. -/
def signedWeight (Γ : Ctx) (env : CertificateEnv) (blockHash : ShellHash) (signatures : HashMap Address PQSignature) :
    Option Nat :=
  signatures.entries.foldlM (fun signed e => (certifiedWeight Γ env blockHash e.1 e.2).map (saturatingAdd signed)) 0

def verifyCommitCertificate (Γ : Ctx) (J : CertificateJson) (env : CertificateEnv) (blockHash : ShellHash) (cert : Bytes) :
    Bool :=
  match decodeCommitCertificate J cert with
  | none => false
  | some signatures =>
    if env.validatorWeights.total = 0 then false
    else
      match signedWeight Γ env blockHash signatures with
      | none => false
      | some signed => FinalityState.strictQuorumWeight env.validatorWeights.total ≤ signed

end ShellChain
