import ShellChain.ChainStore
import ShellChain.SampleChain

/-!
# Transaction identifiers and witness pruning

The identifier of a transaction is a digest of its sender and of the hash that the sender signed, and that hash covers the
algorithm of the signature. A block without its witness bundle is read with stub signatures of one fixed algorithm, so its
transactions keep their identifiers exactly where they were signed with that algorithm.
-/

namespace ShellChain

open Checks StrippedBlock

/-! ## Reading a payload back -/

@[simp] theorem absentIfEmpty_getD {α : Type} (value : Option (List α)) :
    (absentIfEmpty value).getD [] = value.getD [] := by
  rcases value with _ | l
  · rfl
  · by_cases hl : l = []
    · simp [absentIfEmpty, Option.filter, hl]
    · simp [absentIfEmpty, Option.filter, hl]

/-- A transaction that is read back has the same signing preimage. -/
theorem Transaction.signingPreimage_reread {tx read : Transaction} (h : tx.reread = .ok read) (t : UInt8) :
    read.signingPreimage t = tx.signingPreimage t ∧ read.txType = tx.txType := by
  simp only [reread, bind_ok_iff, pure_ok_iff] at h
  obtain ⟨_, -, _, -, _, -, rfl⟩ := h
  simp only [signingPreimage, encodeAccessList_eq, blobSigningFields, absentIfEmpty_getD, and_self]

/-- A bundle that is read back is encoded for signing as before. -/
theorem AaBundle.encodeForSigning_reread {bundle read : AaBundle} (h : bundle.reread = .ok read) :
    read.encodeForSigning = bundle.encodeForSigning := by
  simp only [reread, bind_ok_iff, pure_ok_iff] at h
  obtain ⟨_, -, _, -, _, -, _, -, _, -, rfl⟩ := h
  simp only [encodeForSigning, absentIfEmpty_getD]

/-! ## The identifier of a payload with a witness -/

namespace SignedTransaction

def idPreimage (Γ : Ctx) (stx : SignedTransaction) : Bytes :=
  pqtxIdDomain ++ (stx.sender.bytes ++ (stx.senderSigningHash Γ).bytes)

theorem strip_withWitness (stx : SignedTransaction) : stx.strip.withWitness stx.txWitness = stx := by
  rcases stx with ⟨sender, tx, signature, mode, bundle⟩
  cases mode <;> rfl

end SignedTransaction

namespace StrippedTransaction

variable {Γ : Ctx} {st read : StrippedTransaction} {w w' : TxWitness}

/-- The identifier of a payload depends on the witness through the algorithm of the signature only. -/
theorem hash_withWitness_congr (h : w.signature.sigType = w'.signature.sigType) :
    (st.withWitness w).hash Γ = (st.withWitness w').hash Γ := by
  simp only [SignedTransaction.hash, SignedTransaction.senderSigningHash, SignedTransaction.batchSigningHash,
    SignedTransaction.batchPreimage, SignedTransaction.legacyHash, withWitness, h]
  rfl

/-- A payload that is read back has the same identifier with every witness. -/
theorem hash_withWitness_reread (h : st.reread = .ok read) : (read.withWitness w).hash Γ = (st.withWitness w).hash Γ := by
  simp only [reread, bind_ok_iff] at h
  obtain ⟨tx, htx, h⟩ := h
  have hpre := fun t => (Transaction.signingPreimage_reread htx t).1
  have htype := (Transaction.signingPreimage_reread htx 0).2
  split at h
  · rename_i hnone
    obtain rfl := pure_ok_iff.mp h
    simp only [SignedTransaction.hash, SignedTransaction.senderSigningHash, SignedTransaction.batchSigningHash, withWitness,
      hnone, Transaction.signingHash, hpre]
  · rename_i bundle hsome
    simp only [bind_ok_iff, pure_ok_iff] at h
    obtain ⟨_, -, bundle', hbundle, rfl⟩ := h
    simp only [SignedTransaction.hash, SignedTransaction.senderSigningHash, SignedTransaction.batchSigningHash,
      SignedTransaction.batchPreimage, SignedTransaction.legacyHash, withWitness, hsome, Transaction.signingHash, hpre,
      htype, AaBundle.encodeForSigning_reread hbundle]

/-- BLAKE3 does not collide on what the identifiers of a payload with two witnesses are taken of. -/
structure IdSeparated (Γ : Ctx) (st : StrippedTransaction) (w w' : TxWitness) : Prop where
  identity : Γ.blake3 ((st.withWitness w).idPreimage Γ) = Γ.blake3 ((st.withWitness w').idPreimage Γ) →
    (st.withWitness w).idPreimage Γ = (st.withWitness w').idPreimage Γ
  bundle : ∀ bundle, st.aaBundle = some bundle →
    Γ.blake3 ((st.withWitness w).batchPreimage Γ bundle) = Γ.blake3 ((st.withWitness w').batchPreimage Γ bundle) →
      (st.withWitness w).batchPreimage Γ bundle = (st.withWitness w').batchPreimage Γ bundle
  signing : st.tx.signingHash Γ w.signature.sigType.asU8 = st.tx.signingHash Γ w'.signature.sigType.asU8 →
    st.tx.signingPreimage w.signature.sigType.asU8 = st.tx.signingPreimage w'.signature.sigType.asU8

theorem sigType_eq_of_signingPreimage {tx : Transaction} {a b : UInt8} (h : tx.signingPreimage a = tx.signingPreimage b) :
    a = b := by
  have h := List.append_cancel_left (List.append_cancel_left (List.append_cancel_left h))
  have htail := List.append_cancel_left (List.append_cancel_right h)
  exact (List.cons.inj htail).1

/-- Two witnesses that give a payload one identifier have one algorithm. -/
theorem sigType_eq_of_hash_eq (hsep : IdSeparated Γ st w w') (h : (st.withWitness w).hash Γ = (st.withWitness w').hash Γ) :
    w.signature.sigType = w'.signature.sigType := by
  -- from the identifier to the hash that was signed
  have hid := List.append_cancel_left (List.append_cancel_left (hsep.identity h))
  have hsigned := ShellHash.ext hid
  suffices hlegacy : st.tx.signingHash Γ w.signature.sigType.asU8 = st.tx.signingHash Γ w'.signature.sigType.asU8 from
    SignatureType.asU8_inj (sigType_eq_of_signingPreimage (hsep.signing hlegacy))
  rcases hbundle : st.aaBundle with _ | bundle
  · simpa [SignedTransaction.senderSigningHash, SignedTransaction.batchSigningHash, withWitness, hbundle] using hsigned
  · by_cases htype : st.tx.txType = aaBundleTxType
    · -- from the hash of the bundle to the hash of the envelope
      have hbatch : Γ.blake3 ((st.withWitness w).batchPreimage Γ bundle) =
          Γ.blake3 ((st.withWitness w').batchPreimage Γ bundle) := by
        simpa [SignedTransaction.senderSigningHash, SignedTransaction.batchSigningHash, withWitness, hbundle, htype]
          using hsigned
      have hhash := List.append_cancel_right (List.append_cancel_left (hsep.bundle bundle hbundle hbatch))
      exact ShellHash.ext hhash
    · simpa [SignedTransaction.senderSigningHash, SignedTransaction.batchSigningHash, withWitness, hbundle, htype]
        using hsigned

end StrippedTransaction

/-! ## Blocks that are read back -/

/-- What becomes of the witness bundle of a stored block. -/
inductive WitnessFate
  | kept
  | deleted
  | replaced (bundle : WitnessBundle)

/-- A replacement has another length than the block. -/
def WitnessFate.Admissible (block : Block) : WitnessFate → Prop
  | .replaced bundle => bundle.witnesses.length ≠ block.transactions.length
  | _ => True

/-- The store after a block was put and its bundle met its fate. -/
def ChainStore.afterFate (Γ : Ctx) (s : ChainStore) (block : Block) (fate : WitnessFate) : ChainStore :=
  let stored := s.putBlock Γ block
  match fate with
  | .kept => stored
  | .deleted => stored.deleteWitnessBundle (block.hash Γ)
  | .replaced bundle => stored.replaceWitnessBundle (block.hash Γ) bundle

namespace ChainStore

variable {Γ : Ctx} {s : ChainStore} {block read : Block} {fate : WitnessFate}

theorem bodies_afterFate : (s.afterFate Γ block fate).bodies (block.hash Γ) = some (split block).1 := by
  cases fate <;> simp [afterFate, putBlock, deleteWitnessBundle, replaceWitnessBundle]

variable {i : Nat} {st : StrippedTransaction} {stripped : StrippedBlock}

/-- A payload without its witness is read with the stub. -/
theorem getElem?_intoBlock_stub {bundle : Option WitnessBundle} (hst : stripped.transactions[i]? = some st)
    (hbundle : ∀ b, bundle = some b → b.witnesses.length ≠ stripped.transactions.length) :
    (stripped.intoBlock bundle).transactions[i]? = some (st.withWitness .stub) := by
  simp only [intoBlock, intoTransactions]
  split
  · rename_i b
    rw [if_pos (hbundle b rfl), List.getElem?_map, hst]
    rfl
  · rw [List.getElem?_map, hst]
    rfl

/-- A transaction of a block that is read back: the stub or the stored witness, by the fate of the bundle. -/
theorem hash_of_read (hfate : fate.Admissible block) {stx : SignedTransaction} (hstx : block.transactions[i]? = some stx)
    (hread : (s.afterFate Γ block fate).getBlockByHash (block.hash Γ) = .ok (some read)) :
    ∃ stx', read.transactions[i]? = some stx' ∧
      stx'.hash Γ = (stx.strip.withWitness (if fate matches .kept then stx.txWitness else .stub)).hash Γ := by
  have hne : block.transactions ≠ [] := by
    rintro hnil
    rw [hnil] at hstx
    cases hstx
  simp only [getBlockByHash, bodies_afterFate, reread, bind_ok_iff, pure_ok_iff] at hread
  obtain ⟨stripped, ⟨payloads, hpayloads, rfl⟩, hread⟩ := hread
  have hstrip : (split block).1.transactions[i]? = some stx.strip := by
    simp [split, hstx]
  obtain ⟨st, hst, hreread⟩ := getElem?_of_mapM_ok hpayloads hstrip
  have hlength : payloads.length = block.transactions.length := by
    rw [length_of_mapM_ok hpayloads]
    simp [split]
  cases fate with
  | kept =>
    have hwitness : (s.afterFate Γ block .kept).witnesses (block.hash Γ) = some (split block).2 := by
      simp [afterFate, putBlock, hne]
    simp only [hwitness, WitnessBundle.reread, bind_ok_iff, pure_ok_iff, Option.some.injEq] at hread
    obtain ⟨bundle, ⟨witnesses, hwitnesses, rfl⟩, rfl⟩ := hread
    have hw : (split block).2.witnesses[i]? = some stx.txWitness := by simp [split, hstx]
    obtain ⟨w, hw, hwread⟩ := getElem?_of_mapM_ok hwitnesses hw
    have hwitnesses : witnesses.length = payloads.length := by
      rw [hlength, length_of_mapM_ok hwitnesses]
      simp [split]
    refine ⟨st.withWitness w, ?_, ?_⟩
    · simp only [intoBlock, intoTransactions, hwitnesses, ne_eq, not_true, if_false]
      rw [List.getElem?_zipWith, hst, hw]
    · rw [StrippedTransaction.hash_withWitness_reread hreread]
      simp only [TxWitness.reread, bind_ok_iff, pure_ok_iff] at hwread
      obtain ⟨_, -, rfl⟩ := hwread
      exact StrippedTransaction.hash_withWitness_congr rfl
  | deleted =>
    have hwitness : (s.afterFate Γ block .deleted).witnesses (block.hash Γ) = none := by
      simp [afterFate, deleteWitnessBundle]
    simp only [hwitness, pure_ok_iff, Option.some.injEq] at hread
    subst hread
    refine ⟨st.withWitness .stub, getElem?_intoBlock_stub hst ?_, StrippedTransaction.hash_withWitness_reread hreread⟩
    rintro b hb
    cases hb
  | replaced bundle =>
    have hwitness : (s.afterFate Γ block (.replaced bundle)).witnesses (block.hash Γ) = some bundle := by
      simp [afterFate, replaceWitnessBundle]
    simp only [hwitness, WitnessBundle.reread, bind_ok_iff, pure_ok_iff, Option.some.injEq] at hread
    obtain ⟨reread, ⟨witnesses, hwitnesses, rfl⟩, rfl⟩ := hread
    refine ⟨st.withWitness .stub, getElem?_intoBlock_stub hst ?_, StrippedTransaction.hash_withWitness_reread hreread⟩
    rintro b hb
    obtain rfl := Option.some.inj hb
    rw [hlength, length_of_mapM_ok hwitnesses]
    exact hfate

/-- A transaction of a stored block that is read back, by hash or by number, has the identifier it was stored with exactly
if the witness bundle was kept or the transaction is signed with Dilithium3. BLAKE3 must not collide on the preimages of
the identifiers under the two witnesses. -/
theorem hash_read_eq_iff (Γ : Ctx) (s : ChainStore) (block read : Block) (fate : WitnessFate) (number i : Nat)
    (stx : SignedTransaction) (hfate : fate.Admissible block) (hstx : block.transactions[i]? = some stx)
    (hsep : StrippedTransaction.IdSeparated Γ stx.strip .stub stx.txWitness)
    (hread : (s.afterFate Γ block fate).getBlockByHash (block.hash Γ) = .ok (some read) ∨
      ((s.afterFate Γ block fate).setCanonical number (block.hash Γ)).getBlockByNumber number = .ok (some read)) :
    read.transactions[i]?.map (SignedTransaction.hash Γ) = some (stx.hash Γ) ↔
      fate = .kept ∨ stx.signature.sigType = .dilithium3 := by
  have hread : (s.afterFate Γ block fate).getBlockByHash (block.hash Γ) = .ok (some read) := by
    rcases hread with hread | hread
    · exact hread
    · simpa [getBlockByNumber, setCanonical, getBlockByHash] using hread
  obtain ⟨stx', hstx', hhash⟩ := hash_of_read hfate hstx hread
  rw [hstx', Option.map_some, Option.some.injEq, hhash]
  have hstub : (stx.strip.withWitness .stub).hash Γ = stx.hash Γ ↔ stx.signature.sigType = .dilithium3 := by
    conv_lhs => rw [← stx.strip_withWitness]
    constructor
    · intro h
      exact (StrippedTransaction.sigType_eq_of_hash_eq hsep h).symm
    · intro h
      exact StrippedTransaction.hash_withWitness_congr h.symm
  cases fate with
  | kept => simp [SignedTransaction.strip_withWitness]
  | deleted | replaced => simpa using hstub

end ChainStore

/-! ## A pruned block -/

namespace PrunedBlockCex

/-- A transfer that is signed with ML-DSA-65. -/
def transfer : SignedTransaction :=
  sampleTransfer [5] 0 (.repeatByte 0xcc) 7 21000 1 .reference

def block : Block :=
  ⟨default, [transfer], [], none⟩

def emptyStore : ChainStore :=
  ⟨fun _ => none, fun _ => none, fun _ => none⟩

/-- The block as it is read after its bundle was deleted. -/
def stubbed : Block :=
  ⟨default, [transfer.strip.withWitness .stub], [], none⟩

theorem getBlockByHash_stubbed :
    (emptyStore.afterFate chainCtx block .deleted).getBlockByHash (block.hash chainCtx) = .ok (some stubbed) := by
  decide +kernel

/-- The identifier of the transfer is lost with its witness. -/
theorem hash_changes_when_deleted :
    (emptyStore.afterFate chainCtx block .deleted).getBlockByHash (block.hash chainCtx) = .ok (some stubbed) ∧
      stubbed.transactions.map (SignedTransaction.hash chainCtx) ≠ block.transactions.map (SignedTransaction.hash chainCtx) :=
  ⟨getBlockByHash_stubbed, by decide +kernel⟩

/-- The identifier of the transfer is not kept, since it is neither signed with Dilithium3 nor is its witness there. -/
theorem hash_stubbed_ne :
    stubbed.transactions[0]?.map (SignedTransaction.hash chainCtx) ≠ some (transfer.hash chainCtx) := by
  have hsep : StrippedTransaction.IdSeparated chainCtx transfer.strip .stub transfer.txWitness := by
    refine ⟨?_, ?_, ?_⟩
    · intro h
      exact absurd h (by decide +kernel)
    · intro bundle hbundle
      exact absurd hbundle (by simp [transfer, sampleTransfer, SignedTransaction.strip])
    · intro h
      exact absurd h (by decide +kernel)
  have hiff := ChainStore.hash_read_eq_iff chainCtx emptyStore block stubbed .deleted 0 0 transfer trivial rfl hsep
    (.inl getBlockByHash_stubbed)
  intro h
  rcases hiff.mp h with hkept | halgo
  · cases hkept
  · exact absurd halgo (by decide)

end PrunedBlockCex

end ShellChain
