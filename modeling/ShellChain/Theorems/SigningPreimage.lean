import ShellChain.SampleChain

/-!
# The signing preimage of a transaction

The preimage is a string of fields of which two have no fixed width: the data, whose length is not written, and the access
list, whose encoding says where it ends. It does not hold whether the recipient is absent or zero, and the blob fields only
of blob transactions.
-/

namespace ShellChain

open ByteCodec List AccessListItem Rlp.Item

/-! ## Access lists -/

/-- An entry of an access list as an RLP item. -/
def AccessListItem.item (entry : AccessListItem) : Rlp.Item :=
  .list [.string entry.address.bytes, .list (entry.storageKeys.map fun k => .string k.bytes)]

theorem AccessListItem.encode_item (entry : AccessListItem) : entry.item.encode = entry.encode := by
  simp [item, encode, Function.comp_def]

theorem AccessListItem.item_injective : Function.Injective item := by
  intro a b h
  have hkeys : Function.Injective fun k : ShellHash => string k.bytes := by
    intro k l hkl
    exact ShellHash.ext (string.inj hkl)
  simp only [item, list.injEq, string.injEq, cons.injEq, and_true,
    (map_injective_iff.mpr hkeys).eq_iff, ← Address.ext_iff] at h
  cases a
  cases b
  simp_all

namespace Transaction

variable {a b : Transaction} {s s' : UInt8}

/-- An access list is read off the front of a string of bytes. -/
theorem encodeAccessList_append_inj {x y : Bytes} (ha : a.encodeAccessList.length < 256 ^ 8)
    (hb : b.encodeAccessList.length < 256 ^ 8) (h : a.encodeAccessList ++ x = b.encodeAccessList ++ y) :
    a.accessList.getD [] = b.accessList.getD [] ∧ x = y := by
  have hitem : ∀ tx : Transaction,
      tx.encodeAccessList = encode (.list ((tx.accessList.getD []).map item)) := by
    intro tx
    rw [encodeAccessList_eq, encode_list, map_map]
    exact congrArg Rlp.list (map_congr_left fun entry _ => entry.encode_item.symm)
  rw [hitem] at ha hb h
  rw [hitem b] at h
  obtain ⟨hlist, hxy⟩ := encode_append_inj _ _ x y ha hb h
  exact ⟨map_injective_iff.mpr item_injective (list.inj hlist), hxy⟩

/-! ## Signed fields -/

/-- The integers of a transaction and the length of its encoded access list are in the range of their types. -/
structure InRange (tx : Transaction) : Prop where
  chainId : tx.chainId < 256 ^ 8
  nonce : tx.nonce < 256 ^ 8
  value : tx.value < 256 ^ 32
  gasLimit : tx.gasLimit < 256 ^ 8
  maxFeePerGas : tx.maxFeePerGas < 256 ^ 8
  maxPriorityFeePerGas : tx.maxPriorityFeePerGas < 256 ^ 8
  accessList : tx.encodeAccessList.length < 256 ^ 8
  maxFeePerBlobGas : tx.maxFeePerBlobGas.getD 0 < 256 ^ 8

/-- A blob transaction states its blob fee, and any other has no blob fields. -/
def BlobFieldsFit (tx : Transaction) : Prop :=
  (tx.txType = 3 ∧ tx.maxFeePerBlobGas ≠ none) ∨
    (tx.txType ≠ 3 ∧ tx.maxFeePerBlobGas = none ∧ tx.blobVersionedHashes.getD [] = [])

/-- Two transactions agree in every field, where an absent list counts as empty. -/
structure Agrees (a b : Transaction) : Prop where
  chainId : a.chainId = b.chainId
  nonce : a.nonce = b.nonce
  recipient : a.recipient = b.recipient
  value : a.value = b.value
  data : a.data = b.data
  gasLimit : a.gasLimit = b.gasLimit
  maxFeePerGas : a.maxFeePerGas = b.maxFeePerGas
  maxPriorityFeePerGas : a.maxPriorityFeePerGas = b.maxPriorityFeePerGas
  accessList : a.accessList.getD [] = b.accessList.getD []
  txType : a.txType = b.txType
  maxFeePerBlobGas : a.maxFeePerBlobGas = b.maxFeePerBlobGas
  blobVersionedHashes : a.blobVersionedHashes.getD [] = b.blobVersionedHashes.getD []

theorem signingPreimage_of_agrees (h : a.Agrees b) : a.signingPreimage s = b.signingPreimage s := by
  unfold signingPreimage blobSigningFields
  rw [encodeAccessList_eq, encodeAccessList_eq, h.chainId, h.nonce, h.recipient, h.value, h.data, h.gasLimit,
    h.maxFeePerGas, h.maxPriorityFeePerGas, h.accessList, h.txType, h.maxFeePerBlobGas, h.blobVersionedHashes]

theorem blobHashes_inj {l m : List ShellHash} (h : (l.map ShellHash.bytes).flatten = (m.map ShellHash.bytes).flatten) :
    l = m := by
  refine Rlp.flatten_map_inj (fun _ => True) ?_ ?_ (fun _ _ => trivial) (fun _ _ => trivial) h
  · intro k hnil
    have := k.length_eq
    rw [hnil] at this
    cases this
  · intro k l x y _ _ h
    obtain ⟨hk, hxy⟩ := append_inj h (by rw [k.length_eq, l.length_eq])
    exact ⟨ShellHash.ext hk, hxy⟩

/-- The blob fields are determined by what is signed of them. -/
theorem blobFields_eq (ha : a.InRange) (hb : b.InRange) (hfit : a.BlobFieldsFit) (hfit' : b.BlobFieldsFit)
    (htype : a.txType = b.txType) (h : a.blobSigningFields = b.blobSigningFields) :
    a.maxFeePerBlobGas = b.maxFeePerBlobGas ∧ a.blobVersionedHashes.getD [] = b.blobVersionedHashes.getD [] := by
  rcases hfit with ⟨hblob, hsome⟩ | ⟨hplain, hnone, hempty⟩
  · have hsome' : b.maxFeePerBlobGas ≠ none := (hfit'.resolve_right fun hplain => hplain.1 (htype ▸ hblob)).2
    rw [blobSigningFields, blobSigningFields, if_pos hblob, if_pos (htype ▸ hblob)] at h
    obtain ⟨hfee, hhashes⟩ := append_inj h (by simp)
    refine ⟨?_, blobHashes_inj hhashes⟩
    obtain ⟨fee, hfeeA⟩ := Option.ne_none_iff_exists'.mp hsome
    obtain ⟨fee', hfeeB⟩ := Option.ne_none_iff_exists'.mp hsome'
    have heq := beBytes_inj ha.maxFeePerBlobGas hb.maxFeePerBlobGas hfee
    rw [hfeeA, hfeeB] at heq ⊢
    exact congrArg some heq
  · obtain ⟨-, hnone', hempty'⟩ := hfit'.resolve_left fun hblob => hplain (htype ▸ hblob.1)
    exact ⟨by rw [hnone, hnone'], by rw [hempty, hempty']⟩

/-- The preimage of transactions with data of one length determines the signature type and every field. -/
theorem agrees_of_signingPreimage (ha : a.InRange) (hb : b.InRange) (hlength : a.data.length = b.data.length)
    (hcreate : a.recipient = none ↔ b.recipient = none) (hfit : a.BlobFieldsFit) (hfit' : b.BlobFieldsFit)
    (h : a.signingPreimage s = b.signingPreimage s') : a.Agrees b ∧ s = s' := by
  have h := append_cancel_left h
  simp only [append_assoc] at h
  obtain ⟨hchain, h⟩ := append_inj h (by simp)
  obtain ⟨hnonce, h⟩ := append_inj h (by simp)
  obtain ⟨hto, h⟩ := append_inj h (by simp [Address.length_eq])
  obtain ⟨hvalue, h⟩ := append_inj h (by simp)
  obtain ⟨hdata, h⟩ := append_inj h hlength
  obtain ⟨hgas, h⟩ := append_inj h (by simp)
  obtain ⟨hfee, h⟩ := append_inj h (by simp)
  obtain ⟨hpriority, h⟩ := append_inj h (by simp)
  -- the access list says where it ends
  obtain ⟨haccess, h⟩ := encodeAccessList_append_inj ha.accessList hb.accessList h
  obtain ⟨htypes, hblob⟩ := append_inj h (by simp)
  obtain ⟨hsig, htype⟩ : s = s' ∧ a.txType = b.txType := by simpa using htypes
  obtain ⟨hblobFee, hhashes⟩ := blobFields_eq ha hb hfit hfit' htype hblob
  have hrecipient : a.recipient = b.recipient := by
    cases hra : a.recipient with
    | none => exact (hcreate.mp hra).symm
    | some x =>
      cases hrb : b.recipient with
      | none => exact absurd (hcreate.mpr hrb) (by rw [hra]; simp)
      | some y =>
        rw [hra, hrb] at hto
        exact congrArg some (Address.ext hto)
  exact ⟨⟨beBytes_inj ha.chainId hb.chainId hchain, beBytes_inj ha.nonce hb.nonce hnonce, hrecipient,
    beBytes_inj ha.value hb.value hvalue, hdata, beBytes_inj ha.gasLimit hb.gasLimit hgas,
    beBytes_inj ha.maxFeePerGas hb.maxFeePerGas hfee,
    beBytes_inj ha.maxPriorityFeePerGas hb.maxPriorityFeePerGas hpriority, haccess, htype, hblobFee, hhashes⟩, hsig⟩

end Transaction

/-- Where BLAKE3 does not collide on the two preimages: two transactions whose data has one length, that both create a
contract or both do not, and whose blob fields fit their types have one signing hash exactly when they agree in every field
and are signed under one signature type. -/
theorem signingHash_eq_iff_agrees {Γ : Ctx} {a b : Transaction} {s s' : UInt8} (ha : a.InRange) (hb : b.InRange)
    (hsep : Γ.blake3 (a.signingPreimage s) = Γ.blake3 (b.signingPreimage s') → a.signingPreimage s = b.signingPreimage s')
    (hlength : a.data.length = b.data.length) (hcreate : a.recipient = none ↔ b.recipient = none)
    (hfit : a.BlobFieldsFit) (hfit' : b.BlobFieldsFit) :
    a.signingHash Γ s = b.signingHash Γ s' ↔ a.Agrees b ∧ s = s' := by
  constructor
  · intro h
    exact Transaction.agrees_of_signingPreimage ha hb hlength hcreate hfit hfit' (hsep h)
  · rintro ⟨hagrees, rfl⟩
    rw [Transaction.signingHash, Transaction.signingHash, Transaction.signingPreimage_of_agrees hagrees]

namespace SigningWitness

/-- A blob transaction with an access list. -/
def blobTx : Transaction :=
  ⟨1337, 4, some (.repeatByte 9), 5, [1, 2, 3], 21000, 2000, 1, some [⟨.repeatByte 7, [⟨List.replicate 32 1, by simp⟩]⟩], 3,
    some 10, some [⟨List.replicate 32 2, by simp⟩]⟩

/-- The same with other data. -/
def otherTx : Transaction :=
  { blobTx with data := [1, 2, 4] }

theorem inRange_blobTx : blobTx.InRange := by
  constructor <;> decide +kernel

theorem inRange_otherTx : otherTx.InRange := by
  constructor <;> decide +kernel

/-- Two transactions that differ in one byte of their data have different signing hashes. -/
theorem signingHash_ne : blobTx.signingHash chainCtx 1 ≠ otherTx.signingHash chainCtx 1 := by
  have hsep : chainCtx.blake3 (blobTx.signingPreimage 1) ≠ chainCtx.blake3 (otherTx.signingPreimage 1) := by
    decide +kernel
  intro h
  have hagrees := (signingHash_eq_iff_agrees inRange_blobTx inRange_otherTx (fun heq => absurd heq hsep) rfl
    (by decide) (.inl (by decide)) (.inl (by decide))).mp h
  exact absurd hagrees.1.data (by decide)

end SigningWitness

namespace SharedPreimageCex

def creation : Transaction :=
  ⟨1337, 0, none, 0, [0x60], 50000, 2000, 1, none, 2, none, none⟩

def zeroCall : Transaction :=
  { creation with recipient := some .zero }

/-- An address whose bytes end in a gas limit and two fees. -/
def listed : Address :=
  ⟨List.replicate 8 0xee ++ beBytes 8 21000 ++ beBytes 8 2000 ++ beBytes 8 1, by simp⟩

/-- A transfer without data that lists an address. -/
def listing : Transaction :=
  ⟨1337, 0, some (.repeatByte 9), 5, [], 50000, 3000, 2, some [⟨listed, []⟩], 2, none, none⟩

/-- A call whose data holds the gas limit, the fees and the start of the access list of the other. -/
def calling : Transaction :=
  { listing with
    data := beBytes 8 50000 ++ beBytes 8 3000 ++ beBytes 8 2 ++ [0xe3, 0xe2, 0xa0] ++ List.replicate 8 0xee
    gasLimit := 21000
    maxFeePerGas := 2000
    maxPriorityFeePerGas := 1
    accessList := none }

/-- A transaction without blobs that states a blob fee. -/
def strayFee : Transaction :=
  { creation with maxFeePerBlobGas := some 5 }

/-- Different transactions with one preimage, under any hash function. -/
theorem preimages_shared :
    (creation.signingPreimage 1 = zeroCall.signingPreimage 1 ∧ creation.recipient ≠ zeroCall.recipient) ∧
      (listing.signingPreimage 1 = calling.signingPreimage 1 ∧ listing.data ≠ calling.data ∧
        listing.gasLimit ≠ calling.gasLimit ∧ listing.accessList.getD [] ≠ calling.accessList.getD []) ∧
      (creation.signingPreimage 1 = strayFee.signingPreimage 1 ∧ creation.maxFeePerBlobGas ≠ strayFee.maxFeePerBlobGas) := by
  decide +kernel

end SharedPreimageCex

end ShellChain
