import ShellChain.Validation

/-!
# What an accepted session has passed

A bundle with a session authorisation is accepted on the built-in path: its calls are in the scope of the authorisation, the
root key of the sender has signed the authorisation, and the session key has signed the bundle.
-/

namespace ShellChain

open ByteCodec Checks

/-! ## What the authorisation hash covers -/

namespace SessionAuth

/-- The integers of an authorisation are in the range of their types. -/
structure InRange (auth : SessionAuth) : Prop where
  valueCap : auth.valueCap < 256 ^ 32
  expiryBlock : auth.expiryBlock < 256 ^ 8

/-- An authorisation without its two signatures: the session key and its scope. -/
def scope (auth : SessionAuth) : SessionAuth :=
  { auth with rootSignature := [], sessionSignature := [] }

/-- The preimage determines the session key, its scope and the chain. -/
theorem authPreimage_inj {a b : SessionAuth} {m n : Nat} (ha : a.InRange) (hb : b.InRange) (hm : m < 256 ^ 8)
    (hn : n < 256 ^ 8) (h : a.authPreimage m = b.authPreimage n) : a.scope = b.scope ∧ m = n := by
  -- only the session key has no fixed width, so the fields are split off from the right
  have h := List.append_cancel_left h
  obtain ⟨h, hchain⟩ := List.append_inj' h (by simp)
  obtain ⟨h, hexpiry⟩ := List.append_inj' h (by simp)
  obtain ⟨h, hcap⟩ := List.append_inj' h (by simp)
  obtain ⟨h, htarget⟩ := List.append_inj' h (by simp [Address.length_eq])
  obtain ⟨h, hflag⟩ := List.append_inj' h (by simp)
  obtain ⟨hkey, halgo⟩ := List.append_inj' h (by simp)
  refine ⟨?_, beBytes_inj hm hn hchain⟩
  have hsome : a.target = b.target := by
    cases hta : a.target <;> cases htb : b.target
    · rfl
    · simp [hta, htb] at hflag
    · simp [hta, htb] at hflag
    · simp only [hta, htb, Option.getD_some] at htarget
      exact congrArg some (Address.ext htarget)
  simp only [scope, mk.injEq, and_true]
  exact ⟨hkey, List.singleton_inj.mp halgo, hsome, beBytes_inj ha.valueCap hb.valueCap hcap,
    beBytes_inj ha.expiryBlock hb.expiryBlock hexpiry⟩

end SessionAuth

namespace ValidationView

variable {Γ : Ctx} {v : ValidationView} {verify : Verifier} {stx : SignedTransaction}
  {auth : SessionAuth}

/-! ## The root key -/

/-- The root key of an account: the registered key, or before there is one a key that derives the address. -/
def IsRootKey (Γ : Ctx) (v : ValidationView) (a : Address) (root : Bytes) : Prop :=
  v.pubkey a = some root ∨ (v.pubkey a = none ∧ ∃ t : SignatureType, Address.fromPublicKey Γ root t.asU8 = a)

/-- The account has no validator of its own. -/
def BuiltIn (v : ValidationView) (a : Address) : Prop :=
  (v.account a).bind AccountPolicy.validationCodeHash = none

instance (v : ValidationView) (a : Address) : Decidable (v.BuiltIn a) :=
  inferInstanceAs (Decidable (_ = _))

/-- A key that passes the binding is the registered one, or there is none and the key derives the address. -/
theorem checkSenderBinding_ok {key : Bytes}
    (hkey : (stx.pubkeyMode.pubkeyBytes.orElse fun _ => v.pubkey stx.sender) = some key)
    (h : v.checkSenderBinding Γ stx key = .ok ()) : v.pubkey stx.sender = some key ∨ v.pubkey stx.sender = none ∧
      (if (sessionOf stx).isSome then (inferSignatureTypeFromAddress Γ v.registry key stx.sender).isSome
        else decide (stx.sender = Address.fromPublicKey Γ key stx.signature.sigType.asU8)) = true := by
  unfold checkSenderBinding at h
  cases hregistered : v.pubkey stx.sender with
  | none =>
    simp only [hregistered, bind_ok_iff, ensure_ok_iff] at h
    obtain ⟨_, hderived, -⟩ := h
    exact .inr ⟨rfl, hderived⟩
  | some registered =>
    simp only [hregistered, bind_ok_iff, ensure_ok_iff, decide_eq_true_eq] at h
    obtain ⟨_, hmode, -⟩ := h
    left
    rcases hmode with hmode | hsame
    · rw [hmode, PubkeyMode.pubkeyBytes, Option.orElse_none, hregistered] at hkey
      exact hkey
    · rw [hsame]

/-! ## The session -/

/-- What the acceptance of a session rests on. -/
structure SessionAccepted (Γ : Ctx) (v : ValidationView) (verify : Verifier) (stx : SignedTransaction)
    (calls : List InnerCall) (auth : SessionAuth) (root : Bytes) : Prop where
  rootKey : v.IsRootKey Γ stx.sender root
  live : v.blockNumber < auth.expiryBlock
  withinCap : (calls.map InnerCall.value).sum ≤ auth.valueCap
  onTarget : ∀ call ∈ calls, ∀ target, auth.target = some target → call.recipient = some target
  authorised : ∃ algorithm,
    verify root (auth.authHash Γ stx.tx.chainId).bytes ⟨algorithm, auth.rootSignature⟩ = some true
  signed : verify auth.sessionPubkey (stx.senderSigningHash Γ).bytes stx.signature = some true

theorem governanceFallbackPubkey_session (h : (sessionOf stx).isSome = true) : v.governanceFallbackPubkey Γ stx = none := by
  unfold sessionOf at h
  cases hbundle : stx.aaBundle with
  | none => simp [hbundle] at h
  | some bundle =>
    have hauth : bundle.sessionAuth.isNone = false := by
      cases hs : bundle.sessionAuth <;> simp_all
    have hscope : governanceScoped Γ stx = false := by simp [governanceScoped, hbundle, hauth]
    unfold governanceFallbackPubkey
    simp [hscope]

/-- What `validate_aa_tx` has checked of a session of an account without a validator of its own. -/
theorem sessionAccepted_of_validateAaTx (hsession : sessionOf stx = some (calls, auth)) (hbuiltIn : v.BuiltIn stx.sender)
    (h : v.validateAaTx Γ verify stx = .ok ()) : ∃ root, v.SessionAccepted Γ verify stx calls auth root := by
  have hsome : (sessionOf stx).isSome = true := by rw [hsession]; rfl
  unfold BuiltIn at hbuiltIn
  simp only [validateAaTx, hbuiltIn, governanceFallbackPubkey_session hsome, validateBuiltIn, bind_ok_iff] at h
  obtain ⟨_, -, h⟩ := h
  split at h
  · exact absurd h throw_ne_ok
  · rename_i root hkey
    simp only [hsession, validateSessionAuth, bind_ok_iff, ensure_ok_iff, decide_eq_true_eq, List.all_eq_true,
      Option.all_eq_true] at h
    obtain ⟨_, hbinding, _, ⟨_, hlive, _, hcap, _, htarget, _, hroot, hsig⟩, -⟩ := h
    refine ⟨root, ?_, hlive, hcap.2, fun call hcall target ht => htarget call hcall target ht, ?_, ?_⟩
    · refine (checkSenderBinding_ok hkey hbinding).imp_right fun ⟨hnone, hinfer⟩ => ?_
      rw [hsome, if_pos rfl] at hinfer
      obtain ⟨t, ht⟩ := Option.isSome_iff_exists.mp hinfer
      exact ⟨hnone, t, (inferSignatureTypeFromAddress_spec ht).2⟩
    · unfold verifySessionRootAuthorization at hroot
      split at hroot
      · rename_i algorithm _
        simp only [Bool.and_eq_true, decide_eq_true_eq] at hroot
        exact ⟨algorithm, hroot.2⟩
      · simp only [verifySessionRootSignature, List.any_eq_true, decide_eq_true_eq] at hroot
        obtain ⟨algorithm, -, hverify⟩ := hroot
        exact ⟨algorithm, hverify⟩
    · split at hsig
      · exact absurd hsig throw_ne_ok
      · simp only [bind_ok_iff, ensure_ok_iff, decide_eq_true_eq] at hsig
        obtain ⟨_, -, _, -, hverify⟩ := hsig
        exact hverify

end ValidationView

end ShellChain
