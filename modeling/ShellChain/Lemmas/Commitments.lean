import ShellChain.Execution

/-!
# What the commitments of a header determine

The hash of a header determines its fields, as far as the hash function does not collide on the encodings that are compared,
and the witness root determines the signatures and embedded keys of as many transactions.
-/

namespace ShellChain

open ByteCodec

/-! ## The header hash -/

namespace BlockHeader

/-- The integers of a header are in the range of their type. -/
structure InRange (hdr : BlockHeader) : Prop where
  number : hdr.number < 256 ^ 8
  gasLimit : hdr.gasLimit < 256 ^ 8
  gasUsed : hdr.gasUsed < 256 ^ 8
  timestamp : hdr.timestamp < 256 ^ 8
  baseFeePerGas : hdr.baseFeePerGas < 256 ^ 8
  blobGasUsed : hdr.blobGasUsed < 256 ^ 8
  excessBlobGas : hdr.excessBlobGas < 256 ^ 8

instance (hdr : BlockHeader) : Decidable hdr.InRange :=
  decidable_of_iff (hdr.number < 256 ^ 8 ∧ hdr.gasLimit < 256 ^ 8 ∧ hdr.gasUsed < 256 ^ 8 ∧ hdr.timestamp < 256 ^ 8 ∧
      hdr.baseFeePerGas < 256 ^ 8 ∧ hdr.blobGasUsed < 256 ^ 8 ∧ hdr.excessBlobGas < 256 ^ 8)
    ⟨fun ⟨h1, h2, h3, h4, h5, h6, h7⟩ => ⟨h1, h2, h3, h4, h5, h6, h7⟩,
      fun ⟨h1, h2, h3, h4, h5, h6, h7⟩ => ⟨h1, h2, h3, h4, h5, h6, h7⟩⟩

/-- BLAKE3 does not collide on what the hashes of two headers are taken of: the encodings, and the three fields that enter
them as digests. -/
structure Separated (Γ : Ctx) (a b : BlockHeader) : Prop where
  encoding : Γ.blake3 (a.canonicalEncode Γ) = Γ.blake3 (b.canonicalEncode Γ) → a.canonicalEncode Γ = b.canonicalEncode Γ
  logsBloom : Γ.blake3 a.logsBloom = Γ.blake3 b.logsBloom → a.logsBloom = b.logsBloom
  extraData : Γ.blake3 a.extraData = Γ.blake3 b.extraData → a.extraData = b.extraData
  /-- An absent proof counts as the zero digest. -/
  aggregateProof : a.proofHash Γ = b.proofHash Γ → a.sigAggregateProof = b.sigAggregateProof

/-- Two headers agree, where an absent witness root counts as the zero hash. -/
def Agrees (a b : BlockHeader) : Prop :=
  { a with witnessRoot := none } = { b with witnessRoot := none } ∧
    a.witnessRoot.getD .zero = b.witnessRoot.getD .zero

variable {a b : BlockHeader} {Γ : Ctx}

theorem Agrees.env (h : a.Agrees b) : a.env = b.env := by
  obtain ⟨-, -, -, -, -, hnumber, hlimit, -, htime, -, hproposer, -, hfee, -, -, -, hexcess, -⟩ := mk.inj h.1
  rw [BlockHeader.env, BlockHeader.env, hnumber, hlimit, htime, hproposer, hfee, hexcess]

/-- The parts of the encoding. -/
def fields (Γ : Ctx) (hdr : BlockHeader) : List Bytes :=
  [blockHashDomain, hdr.parentHash.bytes, hdr.stateRoot.bytes, hdr.transactionsRoot.bytes, hdr.receiptsRoot.bytes,
    (Γ.blake3 hdr.logsBloom).bytes, leBytes 8 hdr.number, leBytes 8 hdr.gasLimit, leBytes 8 hdr.gasUsed,
    leBytes 8 hdr.timestamp, (Γ.blake3 hdr.extraData).bytes, hdr.proposer.bytes, (hdr.proofHash Γ).bytes,
    leBytes 8 hdr.baseFeePerGas, hdr.withdrawalsRoot.bytes, hdr.parentBeaconBlockRoot.bytes, leBytes 8 hdr.blobGasUsed,
    leBytes 8 hdr.excessBlobGas, (hdr.witnessRoot.getD .zero).bytes]

/-- The parts have fixed widths, so that the encoding determines them. -/
theorem fields_inj (h : a.canonicalEncode Γ = b.canonicalEncode Γ) : a.fields Γ = b.fields Γ := by
  refine List.eq_iff_flatten_eq.mpr ⟨?_, ?_⟩
  · simpa only [fields, canonicalEncode, List.flatten_cons, List.flatten_nil, List.append_nil, List.append_assoc] using h
  · simp only [fields, List.map_cons, List.map_nil, ShellHash.length_eq, Address.length_eq, length_leBytes]

theorem agrees_of_hash_eq (ha : a.InRange) (hb : b.InRange) (hsep : Separated Γ a b) (h : a.hash Γ = b.hash Γ) :
    a.Agrees b := by
  have hfields := fields_inj (hsep.encoding h)
  simp only [fields, List.cons.injEq, ← ShellHash.ext_iff, ← Address.ext_iff, true_and, and_true] at hfields
  obtain ⟨hparent, hstate, htxs, hreceipts, hbloom, hnumber, hlimit, hused, htime, hextra, hproposer, hproof, hfee,
    hwithdrawals, hbeacon, hblob, hexcess, hwitness⟩ := hfields
  refine ⟨?_, hwitness⟩
  have hnumber := leBytes_inj ha.number hb.number hnumber
  have hlimit := leBytes_inj ha.gasLimit hb.gasLimit hlimit
  have hused := leBytes_inj ha.gasUsed hb.gasUsed hused
  have htime := leBytes_inj ha.timestamp hb.timestamp htime
  have hfee := leBytes_inj ha.baseFeePerGas hb.baseFeePerGas hfee
  have hblob := leBytes_inj ha.blobGasUsed hb.blobGasUsed hblob
  have hexcess := leBytes_inj ha.excessBlobGas hb.excessBlobGas hexcess
  have hbloom := hsep.logsBloom hbloom
  have hextra := hsep.extraData hextra
  have hproof := hsep.aggregateProof hproof
  cases a
  cases b
  simp_all

end BlockHeader

/-! ## The witness root -/

/-- The parts of a witness that its encoding determines: the signature, and the key, where an absent key counts as empty. -/
def witnessContent (stx : SignedTransaction) : PQSignature × Bytes :=
  (stx.signature, stx.pubkeyMode.pubkeyBytes.getD [])

def witnessItem (w : PQSignature × Option Bytes) : Rlp.Item :=
  .list [.list [.string (Rlp.trimmed 1 w.1.sigType.asU8.toNat), .string w.1.data], .string (w.2.getD [])]

/-- The encoding of a witness determines the signature, and the key, where an absent key counts as empty. -/
theorem encodeWitnessParts_inj {v w : PQSignature × Option Bytes} (hv : (encodeWitnessParts v).length < 256 ^ 8)
    (hw : (encodeWitnessParts w).length < 256 ^ 8) (h : encodeWitnessParts v = encodeWitnessParts w) :
    v.1 = w.1 ∧ v.2.getD [] = w.2.getD [] := by
  have hitem : ∀ u, encodeWitnessParts u = (witnessItem u).encode := by
    intro u
    simp [witnessItem, encodeWitnessParts, PQSignature.encode, Rlp.uint]
  have hbyte : ∀ r : SignatureType, r.asU8.toNat < 256 ^ 1 := fun r => by cases r <;> decide
  rw [hitem] at hv hw h
  rw [hitem w] at h
  have hsame := Rlp.Item.encode_inj hv hw h
  simp only [witnessItem, Rlp.Item.list.injEq, Rlp.Item.string.injEq, List.cons.injEq, and_true] at hsame
  obtain ⟨⟨htype, hdata⟩, hkey⟩ := hsame
  have hsig := SignatureType.asU8_inj (UInt8.toNat_inj.mp (Rlp.trimmed_inj (hbyte _) (hbyte _) htype))
  exact ⟨by cases hv : v.1; cases hw : w.1; simp_all, hkey⟩

/-- The leaves of the witness root of a list of transactions. -/
def witnessLeaves (Γ : Ctx) (transactions : List SignedTransaction) : List ShellHash :=
  transactions.map fun stx => Γ.keccak256 (encodeWitnessParts stx.witness)

/-- Keccak-256 does not collide on what the witness roots of two lists of transactions are taken of. -/
structure WitnessSeparated (Γ : Ctx) (as bs : List SignedTransaction) : Prop where
  leaves : ∀ s ∈ as, ∀ t ∈ bs, Γ.keccak256 (encodeWitnessParts s.witness) = Γ.keccak256 (encodeWitnessParts t.witness) →
    encodeWitnessParts s.witness = encodeWitnessParts t.witness
  nodes : MerkleFold.Separates (witnessNode Γ) as.length (witnessLeaves Γ as) (witnessLeaves Γ bs)
  /-- The witnesses are byte strings that fit in memory. -/
  sizes : ∀ s ∈ as ++ bs, (encodeWitnessParts s.witness).length < 256 ^ 8

end ShellChain
