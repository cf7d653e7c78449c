import ShellChain.ChainStore
import ShellChain.Lemmas.Commitments
import ShellChain.Lib.MerkleShape
import ShellChain.SampleChain

/-!
# What the header hash and the witness root bind

The encoding a header hash is taken of writes zero for an absent witness root, so that the hash binds every field up to the
difference between an absent root and a root of zero. The witness root repeats a last node without a neighbour and encodes an
absent key as an empty one, so that it binds no more than the sequence of witnesses its fold reads.
-/

namespace ShellChain

open MerkleFold TxWitness

/-! ## The header hash -/

namespace BlockHeader

/-- BLAKE3 does not collide on what the hashes of two headers are taken of, and no proof has the digest that stands for an
absent one. -/
structure CollisionFree (Γ : Ctx) (a b : BlockHeader) : Prop where
  encoding : Γ.blake3 (a.canonicalEncode Γ) = Γ.blake3 (b.canonicalEncode Γ) → a.canonicalEncode Γ = b.canonicalEncode Γ
  logsBloom : Γ.blake3 a.logsBloom = Γ.blake3 b.logsBloom → a.logsBloom = b.logsBloom
  extraData : Γ.blake3 a.extraData = Γ.blake3 b.extraData → a.extraData = b.extraData
  proofs : ∀ p ∈ a.sigAggregateProof, ∀ q ∈ b.sigAggregateProof, Γ.blake3 p = Γ.blake3 q → p = q
  proofLeft : ∀ p ∈ a.sigAggregateProof, Γ.blake3 p ≠ .zero
  proofRight : ∀ q ∈ b.sigAggregateProof, Γ.blake3 q ≠ .zero

variable {Γ : Ctx} {a b : BlockHeader}

theorem CollisionFree.separated (h : CollisionFree Γ a b) : Separated Γ a b := by
  refine ⟨h.encoding, h.logsBloom, h.extraData, fun heq => ?_⟩
  unfold proofHash at heq
  cases ha : a.sigAggregateProof with
  | none =>
    cases hb : b.sigAggregateProof with
    | none => rfl
    | some q =>
      simp only [ha, hb] at heq
      exact absurd heq.symm (h.proofRight q hb)
  | some p =>
    cases hb : b.sigAggregateProof with
    | none =>
      simp only [ha, hb] at heq
      exact absurd heq (h.proofLeft p ha)
    | some q =>
      simp only [ha, hb] at heq
      rw [h.proofs p ha q hb heq]

/-- Headers that agree have one encoding. -/
theorem Agrees.hash_eq (Γ : Ctx) (h : a.Agrees b) : a.hash Γ = b.hash Γ := by
  obtain ⟨hfields, hwitness⟩ := h
  have hencode : a.canonicalEncode Γ = b.canonicalEncode Γ := by
    cases a
    cases b
    simp_all [canonicalEncode, proofHash]
  rw [hash, hash, hencode]

/-- Headers that agree and have no witness root of zero are equal. -/
theorem Agrees.eq (h : a.Agrees b) (ha : a.witnessRoot ≠ some .zero) (hb : b.witnessRoot ≠ some .zero) : a = b := by
  obtain ⟨hfields, hwitness⟩ := h
  have hroot : a.witnessRoot = b.witnessRoot := by
    cases hra : a.witnessRoot <;> cases hrb : b.witnessRoot <;> simp_all
  cases a
  cases b
  simp_all

/-- Two headers have one hash exactly when they agree in every field, where an absent witness root counts as zero. -/
theorem hash_eq_iff_agrees (Γ : Ctx) (a b : BlockHeader) (ha : a.InRange) (hb : b.InRange) (hfree : CollisionFree Γ a b) :
    (a.hash Γ = b.hash Γ ↔ a.Agrees b) ∧
      (a.witnessRoot ≠ some .zero → b.witnessRoot ≠ some .zero → a.hash Γ = b.hash Γ → a = b) :=
  ⟨⟨agrees_of_hash_eq ha hb hfree.separated, Agrees.hash_eq Γ⟩,
    fun hra hrb h => (agrees_of_hash_eq ha hb hfree.separated h).eq hra hrb⟩

end BlockHeader

namespace AbsentWitnessRoot

/-- A header without a witness root. -/
def absent : BlockHeader :=
  default

/-- The same header with a witness root of zero. -/
def zeroRoot : BlockHeader :=
  { absent with witnessRoot := some .zero }

theorem zeroRoot_hashes_as_absent :
    absent.InRange ∧ zeroRoot.InRange ∧ BlockHeader.CollisionFree chainCtx absent zeroRoot ∧
      absent.hash chainCtx = zeroRoot.hash chainCtx ∧ absent ≠ zeroRoot ∧ absent.witnessRoot = none ∧
      zeroRoot.witnessRoot = some .zero := by
  refine ⟨by decide, by decide, ⟨fun _ => rfl, fun _ => rfl, fun _ => rfl, ?_, ?_, ?_⟩, rfl, by decide, rfl, rfl⟩
  · intro p hp
    nomatch hp
  · intro p hp
    nomatch hp
  · intro q hq
    nomatch hq

/-- A header with a witness root and an aggregate proof. -/
def full : BlockHeader :=
  { absent with witnessRoot := some (.repeatByte 1), sigAggregateProof := some [1] }

theorem full_not_hashed_as_absent : full.hash chainCtx ≠ absent.hash chainCtx := by
  have hfree : BlockHeader.CollisionFree chainCtx full absent :=
    ⟨by decide +kernel, by decide +kernel, by decide +kernel, by decide +kernel, by decide +kernel, by decide +kernel⟩
  intro h
  exact absurd ((BlockHeader.hash_eq_iff_agrees chainCtx full absent (by decide) (by decide) hfree).2 (by decide) (by decide) h)
    (by decide)

end AbsentWitnessRoot

/-! ## The witness root -/

/-- What the encoding of a witness determines: the signature, and the key, where an absent key counts as empty. -/
def TxWitness.content (w : TxWitness) : PQSignature × Bytes :=
  (w.signature, w.pubkey.getD [])

def TxWitness.leaf (Γ : Ctx) (w : TxWitness) : ShellHash :=
  Γ.keccak256 (encodeWitnessParts (w.signature, w.pubkey))

namespace WitnessBundle

/-- The contents of the witnesses in the order in which the fold of the bundle reads them, the repeated ones included. -/
def reads (bundle : WitnessBundle) : List (PQSignature × Bytes) :=
  MerkleFold.reads (bundle.witnesses.map TxWitness.content)

/-- Keccak-256 does not collide on what the roots of two bundles are taken of, keeps the encodings of witnesses and the pairs
of digests apart, and gives no bundle the root that stands for an empty one. -/
structure CollisionFree (Γ : Ctx) (a b : WitnessBundle) : Prop where
  leaves : ∀ v ∈ a.witnesses, ∀ w ∈ b.witnesses, v.leaf Γ = w.leaf Γ →
    encodeWitnessParts (v.signature, v.pubkey) = encodeWitnessParts (w.signature, w.pubkey)
  nodes : MerkleFold.Apart (witnessNode Γ) a.witnesses.length b.witnesses.length (a.witnesses.map (TxWitness.leaf Γ))
    (b.witnesses.map (TxWitness.leaf Γ))
  rootLeft : a.witnesses ≠ [] → a.computeRoot Γ ≠ .zero
  rootRight : b.witnesses ≠ [] → b.computeRoot Γ ≠ .zero
  /-- The witnesses are byte strings that fit in memory. -/
  sizes : ∀ w ∈ a.witnesses ++ b.witnesses, (encodeWitnessParts (w.signature, w.pubkey)).length < 256 ^ 8

variable {Γ : Ctx} {a b : WitnessBundle}

theorem CollisionFree.leaf_eq_iff (h : CollisionFree Γ a b) {v w : TxWitness} (hv : v ∈ a.witnesses) (hw : w ∈ b.witnesses) :
    v.leaf Γ = w.leaf Γ ↔ v.content = w.content := by
  refine ⟨fun heq => ?_, fun heq => ?_⟩
  · obtain ⟨hsig, hkey⟩ := encodeWitnessParts_inj (h.sizes v (List.mem_append_left _ hv))
      (h.sizes w (List.mem_append_right _ hw)) (h.leaves v hv w hw heq)
    exact Prod.ext hsig hkey
  · obtain ⟨hsig, hkey⟩ := Prod.ext_iff.mp heq
    unfold leaf encodeWitnessParts
    exact congrArg Γ.keccak256 (congrArg₂ (fun s k => Rlp.list [PQSignature.encode s, Rlp.string k]) hsig hkey)

theorem reads_eq_nil_iff : a.reads = [] ↔ a.witnesses = [] := by
  rw [reads, MerkleFold.reads_eq_nil_iff, List.map_eq_nil_iff]

/-- Two bundles have one root exactly when their folds read the same contents. -/
theorem computeRoot_eq_iff (h : CollisionFree Γ a b) : a.computeRoot Γ = b.computeRoot Γ ↔ a.reads = b.reads := by
  by_cases ha : a.witnesses = []
  · have hza : a.computeRoot Γ = .zero := by simp [computeRoot, ha, root, fold]
    rw [reads_eq_nil_iff.mpr ha, hza, eq_comm, eq_comm (a := []), reads_eq_nil_iff]
    refine ⟨fun hzb => Classical.byContradiction fun hb => h.rootRight hb hzb, fun hb => ?_⟩
    simp [computeRoot, hb, root, fold]
  · by_cases hb : b.witnesses = []
    · have hzb : b.computeRoot Γ = .zero := by simp [computeRoot, hb, root, fold]
      rw [reads_eq_nil_iff.mpr hb, hzb, reads_eq_nil_iff]
      exact iff_of_false (h.rootLeft ha) ha
    · have hroot := root_eq_iff_reads_eq ha hb (fun v hv w hw => h.leaf_eq_iff hv hw) h.nodes
      rw [reads, reads, ← hroot]
      obtain ⟨x, hx⟩ := root_isSome (witnessNode Γ) (f := leaf Γ) ha
      obtain ⟨y, hy⟩ := root_isSome (witnessNode Γ) (f := leaf Γ) hb
      have hxa : a.computeRoot Γ = x := congrArg (fun o => o.getD ShellHash.zero) hx
      have hyb : b.computeRoot Γ = y := congrArg (fun o => o.getD ShellHash.zero) hy
      rw [hxa, hyb, hx, hy, Option.some.injEq]

/-- Present keys are not empty, as in every decoded bundle. -/
def KeysPresent (bundle : WitnessBundle) : Prop :=
  ∀ w ∈ bundle.witnesses, w.pubkey ≠ some []

instance (bundle : WitnessBundle) : Decidable bundle.KeysPresent :=
  inferInstanceAs (Decidable (∀ w ∈ bundle.witnesses, w.pubkey ≠ some []))

/-- Bundles of one length that are read alike are equal, where present keys are not empty. -/
theorem eq_of_reads_eq (hlen : a.witnesses.length = b.witnesses.length) (ha : a.KeysPresent) (hb : b.KeysPresent)
    (h : a.reads = b.reads) : a = b := by
  have hcontents := reads_inj (by rw [List.length_map, List.length_map, hlen]) h
  have hwitnesses := map_eq_of_map_eq (g := id) (fun v hv w hw heq => ?_) hcontents
  · rw [List.map_id, List.map_id] at hwitnesses
    cases a
    cases b
    exact congrArg mk hwitnesses
  · have hkv := ha v hv
    have hkw := hb w hw
    obtain ⟨hsig, hkey⟩ := Prod.ext_iff.mp heq
    obtain ⟨vs, vk⟩ := v
    obtain ⟨ws, wk⟩ := w
    simp only [content] at hsig hkey
    cases vk <;> cases wk <;> simp_all

/-- The root tells two bundles apart exactly when their folds do not read the same contents; for bundles of one length whose
present keys are not empty, it always does. -/
theorem computeRoot_binds_iff (Γ : Ctx) (a b : WitnessBundle) (hfree : CollisionFree Γ a b) :
    ((a.computeRoot Γ = b.computeRoot Γ → a = b) ↔ (a.reads = b.reads → a = b)) ∧
      (a.witnesses.length = b.witnesses.length → a.KeysPresent → b.KeysPresent → a.reads = b.reads → a = b) := by
  rw [computeRoot_eq_iff hfree]
  exact ⟨Iff.rfl, eq_of_reads_eq⟩

end WitnessBundle

namespace RepeatedWitness

/-- A witness with the signature of one byte. -/
def witness (b : UInt8) : TxWitness :=
  ⟨⟨.mlDsa65, [b]⟩, none⟩

def three : WitnessBundle :=
  ⟨[witness 1, witness 2, witness 3]⟩

/-- The same with the last one repeated. -/
def four : WitnessBundle :=
  ⟨[witness 1, witness 2, witness 3, witness 3]⟩

theorem repeated_shares_root :
    WitnessBundle.CollisionFree chainCtx three four ∧ three.computeRoot chainCtx = four.computeRoot chainCtx ∧
      three ≠ four ∧ three.witnesses.length ≠ four.witnesses.length := by
  have hnodes : MerkleFold.Apart (witnessNode chainCtx) 3 4 (three.witnesses.map (TxWitness.leaf chainCtx))
      (four.witnesses.map (TxWitness.leaf chainCtx)) :=
    ⟨by decide +kernel, by decide +kernel, by decide +kernel⟩
  exact ⟨⟨by decide +kernel, hnodes, fun _ => by decide +kernel, fun _ => by decide +kernel, by decide +kernel⟩,
    by decide +kernel, by decide, by decide⟩

/-- Three witnesses in another order. -/
def swapped : WitnessBundle :=
  ⟨[witness 2, witness 1, witness 3]⟩

theorem swapped_root_ne : three.computeRoot chainCtx ≠ swapped.computeRoot chainCtx := by
  have hnodes : MerkleFold.Apart (witnessNode chainCtx) 3 3 (three.witnesses.map (TxWitness.leaf chainCtx))
      (swapped.witnesses.map (TxWitness.leaf chainCtx)) :=
    ⟨by decide +kernel, by decide +kernel, by decide +kernel⟩
  have hfree : WitnessBundle.CollisionFree chainCtx three swapped :=
    ⟨by decide +kernel, hnodes, fun _ => by decide +kernel, fun _ => by decide +kernel, by decide +kernel⟩
  have hbinds := WitnessBundle.computeRoot_binds_iff chainCtx three swapped hfree
  exact fun heq => absurd (hbinds.1.mpr (hbinds.2 rfl (by decide) (by decide)) heq) (by decide)

end RepeatedWitness

end ShellChain
