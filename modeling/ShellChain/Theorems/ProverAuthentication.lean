import ShellChain.Settlement
import ShellChain.Theorems.Separation

/-!
# The authentication of a prover

A prover signs an amendment twice (`sign_prover_authentication` in `stark-prover/src/amendment.rs`): the envelope of the first
signature only gives the artifact its size, which is then signed with the rest. The message has fields of fixed width but for
the optional numbers and the source hashes, which are counted, so it determines every field but the envelope.
-/

namespace ShellChain

open ByteCodec List Checks

/-- A key that signs. `none` is an error of the signer. -/
structure ProverSigner where
  sigType : SignatureType
  publicKey : Bytes
  sign : Bytes → Option PQSignature

/-- The errors of `sign_prover_authentication`. -/
inductive ProverSignError
  | unsupportedVersion (version : UInt8)
  | publicKeyTooLong
  | invalidPublicKeyLength
  | signing
  | invalidSignature
  | signatureTooLong
  deriving DecidableEq

def encodeProverAuthentication (sigType : SignatureType) (publicKey : Bytes) (signature : PQSignature) :
    Except ProverSignError Bytes := do
  ensure (signature.sigType = sigType ∧ signature.data ≠ []) .invalidSignature
  ensure (signature.data.length ≤ maxSignatureBytes) .signatureTooLong
  pure ([proverAuthVersion, sigType.asU8] ++ beBytes 2 publicKey.length ++ publicKey ++ signature.data)

/-- A signature of the message as an envelope. -/
def ProverSigner.envelope (signer : ProverSigner) (message : Bytes) : Except ProverSignError Bytes :=
  match signer.sign message with
  | none => .error .signing
  | some signature => encodeProverAuthentication signer.sigType signer.publicKey signature

namespace ProofAmendment

def signProverAuthentication (Γ : Ctx) (signer : ProverSigner) (a : ProofAmendment) :
    Except ProverSignError ProofAmendment := do
  ensure (a.version = proofAmendmentVersion) (.unsupportedVersion a.version)
  ensure (signer.publicKey.length < 2 ^ 16) .publicKeyTooLong
  ensure (signer.publicKey ≠ [] ∧ signer.publicKey.length ≤ maxProverPublicKeyBytes) .invalidPublicKeyLength
  let named := { a with
    prover := Address.fromPublicKey Γ signer.publicKey signer.sigType.asU8
    compressedSize := none }
  let provisional ← signer.envelope (named.signingMessage Γ)
  let sized := { named with
    proverSignature := provisional
    compressedSize := some { named with proverSignature := provisional }.sizeBytes }
  let envelope ← signer.envelope (sized.signingMessage Γ)
  pure { sized with proverSignature := envelope }

/-- The integers fit their types. -/
structure InRange (a : ProofAmendment) : Prop where
  blockNumber : a.blockNumber < 256 ^ 8
  startBlock : ∀ n ∈ a.startBlock, n < 256 ^ 8
  nSigs : a.proof.nSigs < 256 ^ 8
  layer : a.layer < 256 ^ 4
  sources : a.sourceHashes.length < 256 ^ 8
  originalSize : ∀ n ∈ a.originalSize, n < 256 ^ 8
  compressedSize : ∀ n ∈ a.compressedSize, n < 256 ^ 8

end ProofAmendment

/-- Every message is signed, in one length, such that the signature verifies. -/
structure ProverSigner.FixedLength (Γ : Ctx) (signer : ProverSigner) (n : Nat) : Prop where
  key : signer.publicKey ≠ [] ∧ signer.publicKey.length ≤ maxProverPublicKeyBytes
  length : 0 < n ∧ n ≤ maxSignatureBytes
  signs : ∀ message, ∃ data, signer.sign message = some ⟨signer.sigType, data⟩ ∧ data.length = n ∧
    Γ.verify signer.publicKey message ⟨signer.sigType, data⟩ = some true

/-! ## Envelopes -/

variable {Γ : Ctx} {signer : ProverSigner} {n : Nat}

/-- An envelope of the signer has one length and is taken apart into the key and a signature that verifies. -/
theorem ProverSigner.FixedLength.envelope (h : signer.FixedLength Γ n) (message : Bytes) :
    ∃ envelope data, signer.envelope message = .ok envelope ∧ envelope.length = 4 + signer.publicKey.length + n ∧
      decodeProverAuthentication envelope = .ok ⟨signer.sigType, signer.publicKey, data⟩ ∧
      Γ.verify signer.publicKey message ⟨signer.sigType, data⟩ = some true := by
  obtain ⟨data, hsign, hlen, hverify⟩ := h.signs message
  obtain ⟨hkey, hmax⟩ := h.key
  obtain ⟨hpos, hle⟩ := h.length
  have hnil : data ≠ [] := ne_nil_of_length_pos (hlen ▸ hpos)
  refine ⟨[proverAuthVersion, signer.sigType.asU8] ++ beBytes 2 signer.publicKey.length ++ signer.publicKey ++ data, data,
    ?_, ?_, ?_, hverify⟩
  · simp only [ProverSigner.envelope, hsign, encodeProverAuthentication, bind_ok_iff, ensure_ok_iff, decide_eq_true_eq,
      pure_ok_iff, hlen]
    exact ⟨(), ⟨trivial, hnil⟩, (), hle, trivial⟩
  · simp only [length_append, length_beBytes, length_cons, length_nil, hlen]
  · obtain ⟨high, low, hwidth, hvalue⟩ : ∃ high low, beBytes 2 signer.publicKey.length = [high, low] ∧
        high.toNat * 256 + low.toNat = signer.publicKey.length := by
      refine ⟨_, _, rfl, ?_⟩
      simp only [UInt8.toNat_ofNat']
      unfold maxProverPublicKeyBytes at hmax
      omega
    have halgo : SignatureType.fromU8 signer.sigType.asU8 = some signer.sigType := by cases signer.sigType <;> rfl
    have hlong : ¬ (signer.publicKey ++ data).length ≤ signer.publicKey.length := by
      rw [length_append]
      omega
    rw [hwidth]
    simp only [cons_append, nil_append, decodeProverAuthentication, halgo, hvalue, ne_eq, not_true, if_false]
    rw [if_neg (by simpa [hkey] using hmax), if_neg hlong, drop_left, take_left, if_neg (by omega)]

/-- The second signature is over the size of the artifact with the envelope of the first, which has the same length. -/
theorem ProofAmendment.verify_signProverAuthentication {r : AlgorithmRegistry} {a : ProofAmendment}
    (h : signer.FixedLength Γ n) (halgo : r.isAlgorithmAllowed signer.sigType = true)
    (hversion : a.version = proofAmendmentVersion) :
    ∃ signed, a.signProverAuthentication Γ signer = .ok signed ∧ signed.verifyProverAuthentication Γ r = .ok () ∧
      signed.compressedSize = some signed.estimatedWireSizeBytes := by
  have hkey := h.key
  let named : ProofAmendment := { a with
    prover := Address.fromPublicKey Γ signer.publicKey signer.sigType.asU8
    compressedSize := none }
  obtain ⟨first, -, hfirst, hlen, -⟩ := h.envelope (named.signingMessage Γ)
  let sized : ProofAmendment := { named with
    proverSignature := first
    compressedSize := some { named with proverSignature := first }.sizeBytes }
  obtain ⟨second, data, hsecond, hlen', hdecode, hverify⟩ := h.envelope (sized.signingMessage Γ)
  have hsize : sized.compressedSize = some { sized with proverSignature := second }.estimatedWireSizeBytes := by
    simp only [sized, named, sizeBytes, estimatedWireSizeBytes, hlen, hlen', Option.getD_none]
  refine ⟨{ sized with proverSignature := second }, ?_, ?_, hsize⟩
  · simp only [signProverAuthentication, bind_ok_iff, ensure_ok_iff, decide_eq_true_eq, pure_ok_iff]
    exact ⟨(), hversion, (), by unfold maxProverPublicKeyBytes at hkey; omega, (), hkey, first, hfirst, second, hsecond, rfl⟩
  · have hsigned : verifySignature Γ r signer.sigType signer.publicKey
        (signingMessage Γ { sized with proverSignature := second }) data = some true := by
      rw [verifySignature, if_neg (not_not_intro halgo)]
      exact hverify
    simp only [verifyProverAuthentication, hdecode, hsigned]
    rw [if_neg (not_not_intro hversion), if_neg (not_not_intro hsize), if_neg (not_not_intro rfl)]

/-! ## The message -/

theorem optionalU64_inj {x y : Option Nat} {s t : Bytes} (hx : ∀ n ∈ x, n < 256 ^ 8) (hy : ∀ n ∈ y, n < 256 ^ 8)
    (h : optionalU64 x ++ s = optionalU64 y ++ t) : x = y ∧ s = t := by
  cases x <;> cases y <;> simp only [optionalU64, cons_append, nil_append, cons.injEq] at h
  · exact ⟨rfl, h.2⟩
  · cases h.1
  · cases h.1
  · obtain ⟨hn, hs⟩ := append_inj h.2 (by rw [length_beBytes, length_beBytes])
    exact ⟨congrArg some (beBytes_inj (hx _ rfl) (hy _ rfl) hn), hs⟩

/-- Every field but the envelope is signed. -/
theorem ProofAmendment.eq_of_signingMessage_eq {a b : ProofAmendment} (ha : a.InRange) (hb : b.InRange)
    (hfree : Γ.blake3 a.proof.proofBytes = Γ.blake3 b.proof.proofBytes → a.proof.proofBytes = b.proof.proofBytes)
    (h : a.signingMessage Γ = b.signingMessage Γ) : b = { a with proverSignature := b.proverSignature } := by
  simp only [signingMessage, append_assoc] at h
  obtain ⟨-, h⟩ := append_inj h rfl
  obtain ⟨hversion, h⟩ := append_inj h rfl
  obtain ⟨hhash, h⟩ := append_inj h (by rw [ShellHash.length_eq, ShellHash.length_eq])
  obtain ⟨hnumber, h⟩ := append_inj h (by rw [length_beBytes, length_beBytes])
  obtain ⟨hstart, h⟩ := optionalU64_inj ha.startBlock hb.startBlock h
  obtain ⟨hproof, h⟩ := append_inj h rfl
  obtain ⟨hroot, h⟩ := append_inj h (by rw [a.proof.batchRoot_length, b.proof.batchRoot_length])
  obtain ⟨hsigs, h⟩ := append_inj h (by rw [length_beBytes, length_beBytes])
  obtain ⟨hbytes, h⟩ := append_inj h (by rw [ShellHash.length_eq, ShellHash.length_eq])
  obtain ⟨hprover, h⟩ := append_inj h (by rw [Address.length_eq, Address.length_eq])
  obtain ⟨hlayer, h⟩ := append_inj h (by rw [length_beBytes, length_beBytes])
  obtain ⟨hcount, h⟩ := append_inj h (by rw [length_beBytes, length_beBytes])
  have hcount := beBytes_inj ha.sources hb.sources hcount
  have hwidths : (a.sourceHashes.map ShellHash.bytes).map length = (b.sourceHashes.map ShellHash.bytes).map length := by
    simp only [map_map, Function.comp_def, ShellHash.length_eq, map_const', hcount]
  obtain ⟨hsources, h⟩ := append_inj h (by rw [length_flatten, length_flatten, hwidths])
  obtain ⟨horiginal, h⟩ := optionalU64_inj ha.originalSize hb.originalSize h
  obtain ⟨hcompressed, -⟩ := optionalU64_inj (s := []) (t := []) ha.compressedSize hb.compressedSize (by simpa using h)
  have hsources := map_injective_iff.mpr (fun _ _ => ShellHash.ext) (eq_iff_flatten_eq.mpr ⟨hsources, hwidths⟩)
  have hproof : a.proof = b.proof := by
    have hbytes := hfree (ShellHash.ext hbytes)
    have hsigs := beBytes_inj ha.nSigs hb.nSigs hsigs
    revert hproof hroot hsigs hbytes
    cases a.proof
    cases b.proof
    simp
    tauto
  have hnumber := beBytes_inj ha.blockNumber hb.blockNumber hnumber
  have hlayer := beBytes_inj ha.layer hb.layer hlayer
  have hhash := ShellHash.ext hhash
  have hprover := Address.ext hprover
  clear ha hb hfree h
  cases a
  cases b
  simp_all

/-- The authentication of provers. Every amendment of the supported version that is signed with an allowed key of one
signature length then verifies, with the size of the artifact. A message determines every field of its amendment but the
envelope, so an amendment that differs from another elsewhere and verifies has a signature of another message by the key of
its prover. -/
theorem prover_authentication (Γ : Ctx) :
    (∀ (r : AlgorithmRegistry) (signer : ProverSigner) (n : Nat) (a : ProofAmendment), signer.FixedLength Γ n →
      r.isAlgorithmAllowed signer.sigType = true → a.version = proofAmendmentVersion →
      ∃ signed, a.signProverAuthentication Γ signer = .ok signed ∧ signed.verifyProverAuthentication Γ r = .ok () ∧
        signed.compressedSize = some signed.estimatedWireSizeBytes) ∧ ∀ a b : ProofAmendment, a.InRange → b.InRange →
      (Γ.blake3 a.proof.proofBytes = Γ.blake3 b.proof.proofBytes → a.proof.proofBytes = b.proof.proofBytes) →
      (a.signingMessage Γ = b.signingMessage Γ → b = { a with proverSignature := b.proverSignature }) ∧
      ∀ r auth, decodeProverAuthentication b.proverSignature = .ok auth → b.verifyProverAuthentication Γ r = .ok () →
        b ≠ { a with proverSignature := b.proverSignature } → b.signingMessage Γ ≠ a.signingMessage Γ ∧
          Address.fromPublicKey Γ auth.publicKey auth.sigType.asU8 = b.prover ∧
          Γ.verify auth.publicKey (b.signingMessage Γ) ⟨auth.sigType, auth.signature⟩ = some true := by
  refine ⟨fun r signer n a => ProofAmendment.verify_signProverAuthentication, fun a b ha hb hfree => ⟨?_, ?_⟩⟩
  · exact ProofAmendment.eq_of_signingMessage_eq ha hb hfree
  · intro r auth hdecode hverified hne
    refine ⟨fun heq => hne (ProofAmendment.eq_of_signingMessage_eq ha hb hfree heq.symm), ?_⟩
    exact SignedContent.verifyProverAuthentication_verify hdecode hverified

/-! ## Another version -/

namespace UnsupportedVersion

/-- Every signature is one byte. -/
def ctx : Ctx :=
  { sampleCtx with verify := fun _ _ sig => some (sig.data = [7]) }

def prover : ProverSigner :=
  ⟨.mlDsa65, [1], fun _ => some ⟨.mlDsa65, [7]⟩⟩

def amendment : ProofAmendment :=
  ⟨2, .zero, 0, none, ⟨2, replicate 32 0, rfl, 0, []⟩, .zero, [], 1, [], none, none⟩

/-- An amendment of another version is not signed. -/
theorem unsupported_version_refused : prover.FixedLength ctx 1 ∧
    amendment.signProverAuthentication ctx prover = .error (.unsupportedVersion 2) :=
  ⟨⟨by decide, by decide, fun _ => ⟨[7], rfl, rfl, rfl⟩⟩, rfl⟩

/-- The same amendment of version 1 for a layer, signed. -/
def signedFor (layer : Nat) : ProofAmendment :=
  (({ amendment with version := 1, layer := layer }).signProverAuthentication ctx prover).toOption.getD amendment

/-- An amendment of version 1 is signed and verifies. Its copy for another layer verifies only with a signature of another
message, which is that of the prover again. -/
theorem signed_for_each_layer :
    (∃ signed, ({ amendment with version := 1 }).signProverAuthentication ctx prover = .ok signed ∧
      signed.verifyProverAuthentication ctx .fromAllowlist = .ok () ∧
      signed.compressedSize = some signed.estimatedWireSizeBytes) ∧
    (signedFor 2).verifyProverAuthentication ctx .fromAllowlist = .ok () ∧
    (signedFor 2).signingMessage ctx ≠ (signedFor 1).signingMessage ctx ∧
      Address.fromPublicKey ctx prover.publicKey prover.sigType.asU8 = (signedFor 2).prover := by
  have hone : (signedFor 1).InRange := ⟨by decide, by decide, by decide, by decide, by decide, by decide, by decide⟩
  have htwo : (signedFor 2).InRange := ⟨by decide, by decide, by decide, by decide, by decide, by decide, by decide⟩
  obtain ⟨hsigned, hbinds⟩ := prover_authentication ctx
  have hdecode : decodeProverAuthentication (signedFor 2).proverSignature = .ok ⟨.mlDsa65, [1], [7]⟩ := by decide +kernel
  have hverified : (signedFor 2).verifyProverAuthentication ctx .fromAllowlist = .ok () := by decide +kernel
  obtain ⟨hmessage, hprover, -⟩ := (hbinds _ _ hone htwo fun _ => rfl).2 _ _ hdecode hverified (by decide +kernel)
  exact ⟨hsigned .fromAllowlist prover 1 _ ⟨by decide, by decide, fun _ => ⟨[7], rfl, rfl, rfl⟩⟩ (by decide) rfl, hverified,
    hmessage, hprover⟩

end UnsupportedVersion

end ShellChain
