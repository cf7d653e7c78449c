import ShellChain.Primitives

/-!
# Hashes, signatures and the algorithm registry

The hash functions and the signature verifier are outside the repository. A `Ctx` carries them, and every definition that
uses one takes the context as its first argument. What the repository itself decides about signatures is modelled: the
algorithms, the registry of their lifecycle, and how the algorithm of an address is found.
-/

namespace ShellChain

/-- The post-quantum signature algorithms. -/
inductive SignatureType
  | dilithium3
  | mlDsa65
  | sphincsSha2256f
  deriving DecidableEq, Repr

def SignatureType.asU8 : SignatureType → UInt8
  | .dilithium3 => 0
  | .mlDsa65 => 1
  | .sphincsSha2256f => 2

theorem SignatureType.asU8_inj {s t : SignatureType} (h : s.asU8 = t.asU8) : s = t := by
  cases s <;> cases t <;> first | rfl | exact absurd h (by decide)

/-- A signature with the algorithm it was made with. -/
structure PQSignature where
  sigType : SignatureType
  data : Bytes
  deriving DecidableEq, Repr

/-- The external functions: the two hash functions, and the check of a signature against a public key and a message, which
is `none` where the verifier reports an error. -/
structure Ctx where
  blake3 : Bytes → ShellHash
  keccak256 : Bytes → ShellHash
  verify : Bytes → Bytes → PQSignature → Option Bool

/-- `Address::from_public_key`: the digest of the algorithm byte and the key. -/
def Address.fromPublicKey (Γ : Ctx) (pubkey : Bytes) (algoId : UInt8) : Address :=
  let digest := Γ.blake3 (algoId :: pubkey)
  ⟨digest.bytes, digest.length_eq⟩

/-! ## The algorithm registry -/

/-- The lifecycle status of an algorithm. -/
inductive AlgorithmStatus
  | active
  | deprecated
  | pendingActivation
  deriving DecidableEq, Repr

def AlgorithmStatus.isAccepted : AlgorithmStatus → Bool
  | .active => true
  | .deprecated => false
  | .pendingActivation => false

/-- The parameters of an activation that governance agreed on. -/
structure AlgorithmSpec where
  verifierHash : ShellHash
  activationHeight : Nat
  deriving DecidableEq

/-- An entry of the registry: an algorithm, its status, and the parameters of its activation; an entry of the allow list has
none. The description is a function of the algorithm and is left out. -/
structure AlgorithmEntry where
  algo : SignatureType
  status : AlgorithmStatus
  spec : Option AlgorithmSpec
  deriving DecidableEq

/-- The registry: the first entry of an algorithm decides. -/
structure AlgorithmRegistry where
  entries : List AlgorithmEntry
  deriving DecidableEq

def allowedAlgorithms : List SignatureType :=
  [.dilithium3, .mlDsa65, .sphincsSha2256f]

/-- `AlgorithmRegistry::from_allowlist`: every algorithm of the allow list is active. -/
def AlgorithmRegistry.fromAllowlist : AlgorithmRegistry :=
  ⟨allowedAlgorithms.map fun algo => ⟨algo, .active, none⟩⟩

def AlgorithmRegistry.algorithmStatus (r : AlgorithmRegistry) (algo : SignatureType) : Option AlgorithmStatus :=
  (r.entries.find? fun e => e.algo = algo).map (·.status)

def AlgorithmRegistry.isAlgorithmAllowed (r : AlgorithmRegistry) (algo : SignatureType) : Bool :=
  (r.algorithmStatus algo).any AlgorithmStatus.isAccepted

/-- `infer_signature_type_from_address`: the first allowed algorithm under which the key derives the address. -/
def inferSignatureTypeFromAddress (Γ : Ctx) (r : AlgorithmRegistry) (pubkey : Bytes) (address : Address) :
    Option SignatureType :=
  [SignatureType.mlDsa65, .dilithium3, .sphincsSha2256f].find? fun t =>
    r.isAlgorithmAllowed t && decide (Address.fromPublicKey Γ pubkey t.asU8 = address)

/-- The inferred algorithm is allowed, and the key derives the address under it. -/
theorem inferSignatureTypeFromAddress_spec {Γ : Ctx} {r : AlgorithmRegistry} {pubkey : Bytes} {address : Address}
    {t : SignatureType} (h : inferSignatureTypeFromAddress Γ r pubkey address = some t) :
    r.isAlgorithmAllowed t = true ∧ Address.fromPublicKey Γ pubkey t.asU8 = address := by
  have := List.find?_some h
  simpa using this

end ShellChain
