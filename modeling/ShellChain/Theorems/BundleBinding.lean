import ShellChain.Lemmas.Roles
import ShellChain.Lemmas.Session
import ShellChain.Sample

/-!
# What the signatures of a bundle bind

The signed form of a bundle is a list whose items say where they end, with the session authorisation last if there is one. So
it determines the calls, the paymaster with its context and the scope of the session. The sender signs the hash of the form
behind the signing hash of the outer transaction, the paymaster the hash of that behind the sender.
-/

namespace ShellChain

open ByteCodec SignedContent Rlp.Item

/-! ## The signed form -/

def addressItem (address : Option Address) : Rlp.Item :=
  .string (address.elim [] Address.bytes)

@[simp] theorem encode_addressItem (address : Option Address) :
    (addressItem address).encode = encodeOptionalAddress address := by
  cases address <;> rfl

theorem addressItem_inj {a b : Option Address} : addressItem a = addressItem b ↔ a = b := by
  constructor
  · intro h
    have hbytes := string.inj h
    have hlength := congrArg List.length hbytes
    cases a <;> cases b <;> simp [Address.length_eq] at hlength hbytes ⊢
    exact Address.ext hbytes
  · exact congrArg addressItem

namespace InnerCall

/-- The integers of an inner call are in the range of their types. -/
structure InRange (call : InnerCall) : Prop where
  value : call.value < 256 ^ 32
  gasLimit : call.gasLimit < 256 ^ 8

/-- An inner call as an RLP item. -/
def item (call : InnerCall) : Rlp.Item :=
  .list [addressItem call.recipient, .string (Rlp.trimmed 32 call.value), .string call.data,
    .string (Rlp.trimmed 8 call.gasLimit)]

theorem item_inj {a b : InnerCall} (ha : a.InRange) (hb : b.InRange) (h : a.item = b.item) : a = b := by
  simp only [item, list.injEq, string.injEq, List.cons.injEq, addressItem_inj, and_true] at h
  obtain ⟨hto, hvalue, hdata, hgas⟩ := h
  have hvalue := Rlp.trimmed_inj ha.value hb.value hvalue
  have hgas := Rlp.trimmed_inj ha.gasLimit hb.gasLimit hgas
  cases a
  cases b
  simp_all

end InnerCall

namespace SessionAuth

/-- The signed form of an authorisation as an RLP item. -/
def item (auth : SessionAuth) : Rlp.Item :=
  .list [.string auth.sessionPubkey, .string (Rlp.trimmed 8 auth.sessionAlgo.toNat), addressItem auth.target,
    .string auth.trimmedValueCap, .string (Rlp.trimmed 8 auth.expiryBlock)]

/-- The value cap is padded back from its signed bytes, of which zero keeps one. -/
theorem beBytes_valueCap (auth : SessionAuth) :
    beBytes 32 auth.valueCap = List.replicate (32 - auth.trimmedValueCap.length) 0 ++ auth.trimmedValueCap := by
  unfold trimmedValueCap
  split
  · rename_i hzero
    rw [hzero]
    decide
  · exact Rlp.beBytes_eq_append 32 auth.valueCap

theorem scope_of_item {a b : SessionAuth} (ha : a.InRange) (hb : b.InRange) (h : a.item = b.item) : a.scope = b.scope := by
  have halgo : ∀ c : SessionAuth, c.sessionAlgo.toNat < 256 ^ 8 := fun c => c.sessionAlgo.toNat_lt.trans (by decide)
  simp only [item, list.injEq, string.injEq, List.cons.injEq, addressItem_inj, and_true] at h
  obtain ⟨hkey, halgos, htarget, hcap, hexpiry⟩ := h
  have hvalue : a.valueCap = b.valueCap :=
    beBytes_inj ha.valueCap hb.valueCap (by rw [beBytes_valueCap a, beBytes_valueCap b, hcap])
  simp only [scope, hkey, UInt8.toNat_inj.mp (Rlp.trimmed_inj (halgo a) (halgo b) halgos), htarget, hvalue,
    Rlp.trimmed_inj ha.expiryBlock hb.expiryBlock hexpiry]

end SessionAuth

namespace AaBundle

/-- The integers of a bundle and the length of its signed form are in the range of their types. -/
structure InRange (bundle : AaBundle) : Prop where
  calls : ∀ call ∈ bundle.innerCalls, call.InRange
  session : ∀ auth ∈ bundle.sessionAuth, auth.InRange
  length : bundle.encodeForSigning.length < 256 ^ 8

/-- Two bundles agree in everything but their signatures, where an absent context counts as empty. -/
structure Agrees (a b : AaBundle) : Prop where
  innerCalls : a.innerCalls = b.innerCalls
  paymaster : a.paymaster = b.paymaster
  paymasterContext : a.paymasterContext.getD [] = b.paymasterContext.getD []
  sessionAuth : a.sessionAuth.map SessionAuth.scope = b.sessionAuth.map SessionAuth.scope

/-- The signed form of a bundle as an RLP item. -/
def item (bundle : AaBundle) : Rlp.Item :=
  .list (.list (bundle.innerCalls.map InnerCall.item) :: addressItem bundle.paymaster ::
    .string (bundle.paymasterContext.getD []) :: (bundle.sessionAuth.map SessionAuth.item).toList)

theorem encode_item (bundle : AaBundle) : bundle.item.encode = bundle.encodeForSigning := by
  have hcall : InnerCall.encode = fun call => call.item.encode := by
    funext call
    simp [InnerCall.item, InnerCall.encode, Rlp.uint]
  have hauth : SessionAuth.encodeForSigning = fun auth => auth.item.encode := by
    funext auth
    simp [SessionAuth.item, SessionAuth.encodeForSigning, Rlp.uint]
  rw [encodeForSigning, hcall, hauth]
  cases hsession : bundle.sessionAuth <;> simp [item, hsession, Function.comp_def]

/-- The signed form determines the bundle up to its signatures. -/
theorem agrees_of_encodeForSigning {a b : AaBundle} (ha : a.InRange) (hb : b.InRange)
    (h : a.encodeForSigning = b.encodeForSigning) : a.Agrees b := by
  have hla := ha.length
  have hlb := hb.length
  rw [← encode_item] at hla hlb h
  rw [← encode_item b] at h
  have hsame := encode_inj hla hlb h
  simp only [item, list.injEq, string.injEq, List.cons.injEq, addressItem_inj] at hsame
  obtain ⟨hcalls, hpaymaster, hcontext, hsession⟩ := hsame
  refine ⟨?_, hpaymaster, hcontext, ?_⟩
  · have hids := MerkleFold.map_eq_of_map_eq (g := id)
      (fun x hx y hy => InnerCall.item_inj (ha.calls x hx) (hb.calls y hy)) hcalls
    rwa [List.map_id, List.map_id] at hids
  · cases hsa : a.sessionAuth <;> cases hsb : b.sessionAuth <;> simp [hsa, hsb] at hsession ⊢
    exact SessionAuth.scope_of_item (ha.session _ hsa) (hb.session _ hsb) hsession

end AaBundle

/-! ## The signed hashes -/

namespace SignedTransaction

def BundleInRange (stx : SignedTransaction) : Prop :=
  ∀ bundle ∈ stx.aaBundle, bundle.InRange

/-- What equal hashes of two senders say of their transactions. -/
structure SameSigned (Γ : Ctx) (a b : SignedTransaction) : Prop where
  isAaBundle : a.isAaBundle = b.isAaBundle
  outer : a.tx.signingHash Γ a.signature.sigType.asU8 = b.tx.signingHash Γ b.signature.sigType.asU8
  bundle : a.isAaBundle = true → Option.Rel AaBundle.Agrees a.aaBundle b.aaBundle

variable {Γ : Ctx} {a b : SignedTransaction}

/-- A sender signs the batch hash of a bundle, or the signing hash of a transaction that is none. -/
theorem sender_cases (Γ : Ctx) (stx : SignedTransaction) : (stx.isAaBundle = true ∧ ∃ bundle, stx.aaBundle = some bundle ∧
      (SignedContent.sender stx).preimage Γ = some (stx.batchPreimage Γ bundle)) ∨ (stx.isAaBundle = false ∧
      (SignedContent.sender stx).preimage Γ = some (stx.tx.signingPreimage stx.signature.sigType.asU8)) := by
  cases hbundle : stx.aaBundle with
  | none => simp [isAaBundle, preimage, hbundle]
  | some bundle => by_cases htype : stx.tx.txType = aaBundleTxType <;> simp [isAaBundle, preimage, hbundle, htype]

theorem sameSigned_of_senderSigningHash (ha : a.BundleInRange) (hb : b.BundleInRange)
    (hcoll : NoCollision Γ (.sender a) (.sender b)) (h : a.senderSigningHash Γ = b.senderSigningHash Γ) :
    a.SameSigned Γ b := by
  have hdigest : ∀ {stx : SignedTransaction} {pre : Bytes}, (SignedContent.sender stx).preimage Γ = some pre →
      stx.senderSigningHash Γ = Γ.blake3 pre := by
    intro stx pre hpre
    exact ShellHash.ext (Option.some.inj (message_of_preimage hpre))
  have hdomains : ∀ x y : Bytes, pqtxBundleDomain ++ x ≠ pqtxSigningDomain ++ y := by
    intro x y hxy
    exact absurd (List.append_inj hxy rfl).1 (by decide)
  rcases sender_cases Γ a with ⟨hbundle, x, hx, hpreA⟩ | ⟨hplain, hpreA⟩ <;>
    rcases sender_cases Γ b with ⟨hbundle', y, hy, hpreB⟩ | ⟨hplain', hpreB⟩ <;>
    have hpre := hcoll _ _ hpreA hpreB (by rw [← hdigest hpreA, ← hdigest hpreB, h])
  · have hrest := List.append_cancel_left hpre
    obtain ⟨houter, hform⟩ := List.append_inj hrest (by rw [ShellHash.length_eq, ShellHash.length_eq])
    refine ⟨hbundle.trans hbundle'.symm, ShellHash.ext houter, fun _ => ?_⟩
    rw [hx, hy]
    exact .some (AaBundle.agrees_of_encodeForSigning (ha x hx) (hb y hy) hform)
  · exact absurd hpre (hdomains _ _)
  · exact absurd hpre.symm (hdomains _ _)
  · refine ⟨hplain.trans hplain'.symm, congrArg Γ.blake3 hpre, fun hbundle => ?_⟩
    rw [hplain] at hbundle
    cases hbundle

/-- A paymaster signs the sender and the hash that the sender signs. -/
theorem paymaster_cases {digest : ShellHash} (h : a.paymasterSigningHash Γ = some digest) :
    (SignedContent.paymaster a).preimage Γ = some (a.paymasterPreimage (a.senderSigningHash Γ)) ∧
      digest = Γ.blake3 (a.paymasterPreimage (a.senderSigningHash Γ)) := by
  unfold paymasterSigningHash at h
  cases hbundle : a.aaBundle with
  | none => simp [hbundle] at h
  | some bundle =>
    cases hpaymaster : bundle.paymaster with
    | none => simp [hbundle, hpaymaster] at h
    | some paymaster =>
      simp only [hbundle, hpaymaster] at h
      obtain ⟨batchHash, hbatch, rfl⟩ := Option.map_eq_some_iff.mp h
      simp [preimage, hbundle, hpaymaster, hbatch, senderSigningHash]

end SignedTransaction

/-- Where BLAKE3 does not collide on the preimages: equal hashes of two senders are both or neither of a bundle, have one
signing hash of the outer transactions and bundles that agree up to their signatures. Equal hashes of two paymasters say the
same and have one sender. Equal authorisation hashes have one session key, scope and chain. -/
theorem bundle_signatures_bind (Γ : Ctx) :
    (∀ a b : SignedTransaction, a.BundleInRange → b.BundleInRange → NoCollision Γ (.sender a) (.sender b) →
      a.senderSigningHash Γ = b.senderSigningHash Γ → a.SameSigned Γ b) ∧
    (∀ (a b : SignedTransaction) (digest : ShellHash), a.BundleInRange → b.BundleInRange →
      NoCollision Γ (.sender a) (.sender b) → NoCollision Γ (.paymaster a) (.paymaster b) →
      a.paymasterSigningHash Γ = some digest → b.paymasterSigningHash Γ = some digest →
      a.sender = b.sender ∧ a.SameSigned Γ b) ∧
    (∀ (a b : SessionAuth) (m n : Nat), a.InRange → b.InRange → m < 256 ^ 8 → n < 256 ^ 8 →
      NoCollision Γ (.session a m) (.session b n) → a.authHash Γ m = b.authHash Γ n → a.scope = b.scope ∧ m = n) := by
  refine ⟨?_, ?_, ?_⟩
  · intro a b ha hb hcoll h
    exact SignedTransaction.sameSigned_of_senderSigningHash ha hb hcoll h
  · intro a b digest ha hb hcoll hcoll' h h'
    obtain ⟨hpre, hdigest⟩ := SignedTransaction.paymaster_cases h
    obtain ⟨hpre', hdigest'⟩ := SignedTransaction.paymaster_cases h'
    have hsame := List.append_cancel_left (hcoll' _ _ hpre hpre' (hdigest.symm.trans hdigest'))
    obtain ⟨hsender, hhash⟩ := List.append_inj hsame (by rw [Address.length_eq, Address.length_eq])
    exact ⟨Address.ext hsender, SignedTransaction.sameSigned_of_senderSigningHash ha hb hcoll (ShellHash.ext hhash)⟩
  · intro a b m n ha hb hm hn hcoll h
    exact SessionAuth.authPreimage_inj ha hb hm hn (hcoll _ _ rfl rfl h)

/-! ## A bundle that is signed again -/

namespace ResignedBundle

/-- A session with its two signatures. -/
def session (signature : Bytes) : SessionAuth :=
  ⟨[4], 1, none, 100, 50, signature, signature⟩

/-- The payload with one call, a paymaster and the session. -/
def payload (signature : Bytes) : AaBundle :=
  ⟨[⟨some (.repeatByte 2), 5, [], 21000⟩], some (.repeatByte 3), some signature, some [9], some (session signature)⟩

/-- The transaction with one signature in every place. -/
def transaction (signature : Bytes) : SignedTransaction :=
  ⟨.repeatByte 1, ⟨1337, 0, none, 5, [], 100000, 1, 0, none, aaBundleTxType, none, none⟩, ⟨.mlDsa65, signature⟩,
    .reference, some (payload signature)⟩

theorem inRange_session (signature : Bytes) : (session signature).InRange :=
  ⟨show 100 < _ by decide, show 50 < _ by decide⟩

theorem bundleInRange_transaction (signature : Bytes) : (transaction signature).BundleInRange := by
  intro bundle hbundle
  obtain rfl := Option.some.inj hbundle
  have hlength : (payload []).encodeForSigning.length < 256 ^ 8 := by decide +kernel
  refine ⟨fun call hcall => ?_, fun auth hauth => ?_, hlength⟩
  · rw [List.mem_singleton.mp hcall]
    exact ⟨show 5 < _ by decide, show 21000 < _ by decide⟩
  · obtain rfl := Option.some.inj hauth
    exact inRange_session signature

/-- Two signatures of one bundle are for the same content, and so are those of its session. -/
theorem sameSigned_transaction :
    (transaction [1]).SameSigned sampleCtx (transaction [2]) ∧ (session [1]).scope = (session [2]).scope := by
  obtain ⟨-, hpaymaster, hsession⟩ := bundle_signatures_bind sampleCtx
  have hsame : ∀ {c₁ c₂ : SignedContent}, c₁.preimage sampleCtx = c₂.preimage sampleCtx → NoCollision sampleCtx c₁ c₂ :=
    fun heq _ _ h₁ h₂ _ => Option.some.inj (h₁.symm.trans (heq.trans h₂))
  exact ⟨(hpaymaster (transaction [1]) (transaction [2]) _ (bundleInRange_transaction _) (bundleInRange_transaction _)
      (hsame rfl) (hsame rfl) rfl rfl).2,
    (hsession (session [1]) (session [2]) 1337 1337 (inRange_session _) (inRange_session _) (by decide) (by decide)
      (hsame rfl) rfl).1⟩

end ResignedBundle

end ShellChain
