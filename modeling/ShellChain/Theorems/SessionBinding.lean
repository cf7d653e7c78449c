import ShellChain.Lemmas.Roles
import ShellChain.Lemmas.Session
import ShellChain.SampleChain

/-!
# Sessions are bound to the root key

The hash that authorises a session names the session key, its scope and the chain, and no account. A session is therefore
bound to the key that signed it: every account with that root key can be used with the session, and no other account can.
-/

namespace ShellChain

/-- The keys sign honestly for the purposes of an authorisation: a signature verifies only for a content that the owner of
the key signed, the owner votes only for blocks of headers, BLAKE3 does not collide on such a content and the authorisation,
and integers are in range. -/
structure HonestKeys (Γ : Ctx) (signed : Bytes → Set SignedContent) (auth : SessionAuth) (chainId : Nat) : Prop where
  unforgeable : ∀ pubkey m sig, Γ.verify pubkey m sig = some true → ∃ c ∈ signed pubkey, c.message Γ = some m
  noCollision : ∀ pubkey, ∀ c ∈ signed pubkey, SignedContent.NoCollision Γ c (.session auth chainId)
  votes : ∀ pubkey blockHash, SignedContent.vote blockHash ∈ signed pubkey → ∃ hdr : BlockHeader, blockHash = hdr.hash Γ ∧
    SignedContent.NoCollision Γ (.proposerSeal hdr) (.session auth chainId)
  inRange : ∀ pubkey granted n, SignedContent.session granted n ∈ signed pubkey → granted.InRange ∧ n < 256 ^ 8
  auth_inRange : auth.InRange
  chainId_lt : chainId < 256 ^ 8

/-- A bundle with a session is accepted for an account without a validator of its own only if the owner of the root key of
that account signed, for this chain, an authorisation of the same session key with the same scope. The root key is the
registered key of the account, or before there is one a key that derives its address. -/
theorem rootKey_authorised_session (Γ : Ctx) (v : ValidationView) (signed : Bytes → Set SignedContent)
    (stx : SignedTransaction) (calls : List InnerCall) (auth : SessionAuth)
    (hkeys : HonestKeys Γ signed auth stx.tx.chainId) (hsession : ValidationView.sessionOf stx = some (calls, auth))
    (hbuiltIn : v.BuiltIn stx.sender) (h : v.validateAaTx Γ Γ.verify stx = .ok ()) :
    ∃ root granted, v.IsRootKey Γ stx.sender root ∧ SignedContent.session granted stx.tx.chainId ∈ signed root ∧
      granted.scope = auth.scope := by
  obtain ⟨root, haccepted⟩ := ValidationView.sessionAccepted_of_validateAaTx hsession hbuiltIn h
  obtain ⟨algorithm, hverify⟩ := haccepted.authorised
  obtain ⟨c, hc, hmessage⟩ := hkeys.unforgeable root _ _ hverify
  have hcoll := hkeys.noCollision root c hc
  have hrole : c.role = .session := by
    by_contra hrole
    rcases SignedContent.voteOn_of_message_eq hrole hcoll hmessage rfl with ⟨pre, rfl, hpre⟩ | ⟨pre, hsession, -⟩
    · -- a vote for the block of a header has the message of its seal, which is no authorisation
      obtain ⟨hdr, hhash, hseal⟩ := hkeys.votes root _ hc
      have hmessage' : (SignedContent.proposerSeal hdr).message Γ = some (auth.authHash Γ stx.tx.chainId).bytes := by
        rw [← hmessage, hhash]
        rfl
      rcases SignedContent.voteOn_of_message_eq (by simp [SignedContent.role]) hseal hmessage' rfl with
        ⟨_, hvote, -⟩ | ⟨_, hvote, -⟩
      · cases hvote
      · cases hvote
    · cases hsession
  obtain ⟨granted, n, rfl⟩ : ∃ granted n, c = .session granted n := by
    cases c <;> first | exact ⟨_, _, rfl⟩ | cases hrole
  have hpre := hcoll _ _ rfl rfl (ShellHash.ext (Option.some.inj hmessage))
  obtain ⟨hgranted, hn⟩ := hkeys.inRange root granted n hc
  obtain ⟨hscope, rfl⟩ := SessionAuth.authPreimage_inj hgranted hkeys.auth_inRange hn hkeys.chainId_lt hpre
  exact ⟨root, granted, haccepted.rootKey, hc, hscope⟩

/-! ## One authorisation, two accounts -/

namespace SessionCex

/-- The root key that both accounts are registered with. -/
def rootKey : Bytes :=
  [7]

def sessionKey : Bytes :=
  [9]

/-- The account whose owner grants the session. -/
def alice : Address :=
  .repeatByte 0xaa

/-- Another account, which was rotated to the same key. -/
def bob : Address :=
  .repeatByte 0xbb

/-- The session key may move five units anywhere until block 100. -/
def grant : SessionAuth :=
  ⟨sessionKey, SignatureType.mlDsa65.asU8, none, 5, 100, [1], [2]⟩

/-- One transfer of five units. -/
def bundle : AaBundle :=
  ⟨[⟨some (.repeatByte 0xcc), 5, [], 21000⟩], none, none, none, some grant⟩

/-- The bundle, sent from an account. -/
def bundleFrom (sender : Address) : SignedTransaction :=
  ⟨sender, ⟨1337, 0, none, 5, [], 100000, 1, 0, none, aaBundleTxType, none, none⟩, ⟨.mlDsa65, grant.sessionSignature⟩,
    .reference, some bundle⟩

/-- What the owners of the keys signed: the grant under the root key, and the bundle under the session key. -/
def signed (pubkey : Bytes) : Set SignedContent :=
  { c | (pubkey = rootKey ∧ c = .session grant 1337) ∨ (pubkey = sessionKey ∧ c = .sender (bundleFrom alice)) }

/-- The verifier knows these two signatures only. -/
def ctx : Ctx :=
  { chainCtx with
    verify := fun pubkey m sig => some (decide (
      (pubkey = rootKey ∧ m = (grant.authHash chainCtx 1337).bytes ∧ sig.data = grant.rootSignature) ∨
      (pubkey = sessionKey ∧ m = ((bundleFrom alice).senderSigningHash chainCtx).bytes ∧
        sig.data = grant.sessionSignature))) }

/-- Both accounts have the root key registered. -/
def view : ValidationView where
  config := sampleChainConfig
  registry := .fromAllowlist
  blockNumber := 1
  account a := if a = alice ∨ a = bob then some ⟨chainDigest rootKey, none⟩ else none
  pubkey a := if a = alice ∨ a = bob then some rootKey else none
  validators := []
  algorithmMatured _ := false
  customAccepts _ _ _ := false
  paymasterAccepts _ _ _ := false

theorem unforgeable (pubkey m : Bytes) (sig : PQSignature) (h : ctx.verify pubkey m sig = some true) :
    ∃ c ∈ signed pubkey, c.message ctx = some m := by
  rcases of_decide_eq_true (Option.some.inj h) with ⟨hkey, hm, -⟩ | ⟨hkey, hm, -⟩
  · exact ⟨_, .inl ⟨hkey, rfl⟩, by rw [hm]; rfl⟩
  · exact ⟨_, .inr ⟨hkey, rfl⟩, by rw [hm]; rfl⟩

theorem honestKeys : HonestKeys ctx signed grant 1337 where
  unforgeable := unforgeable
  noCollision := by
    rintro pubkey c (⟨-, rfl⟩ | ⟨-, rfl⟩) pre₁ pre₂ h₁ h₂ heq
    · exact Option.some.inj (h₁.symm.trans h₂)
    · obtain rfl := Option.some.inj h₁
      obtain rfl := Option.some.inj h₂
      exact absurd heq (by decide +kernel)
  votes := by
    rintro pubkey blockHash (⟨-, heq⟩ | ⟨-, heq⟩)
    · cases heq
    · cases heq
  inRange := by
    rintro pubkey granted n (⟨-, heq⟩ | ⟨-, heq⟩)
    · obtain ⟨rfl, rfl⟩ := SignedContent.session.inj heq
      exact ⟨⟨by decide, by decide⟩, by decide⟩
    · cases heq
  auth_inRange := ⟨by decide, by decide⟩
  chainId_lt := by decide

/-- The owner of the root key signed the grant. -/
theorem rootKey_authorised_alice :
    ∃ root granted, view.IsRootKey ctx alice root ∧ SignedContent.session granted 1337 ∈ signed root ∧
      granted.scope = grant.scope :=
  rootKey_authorised_session ctx view signed (bundleFrom alice) bundle.innerCalls grant honestKeys rfl (by decide)
    (by decide +kernel)

/-- The owner of the root key signs one message, the grant for the first account, and the session is accepted from the
second account too. -/
theorem session_accepted_from_other_account :
    alice ≠ bob ∧ (∀ c ∈ signed rootKey, c = .session grant 1337) ∧
      view.validateAaTx ctx ctx.verify (bundleFrom alice) = .ok () ∧
      view.validateAaTx ctx ctx.verify (bundleFrom bob) = .ok () := by
  refine ⟨by decide, ?_, by decide +kernel, by decide +kernel⟩
  rintro c (⟨-, hc⟩ | ⟨hkey, -⟩)
  · exact hc
  · exact absurd hkey (by decide)

end SessionCex

end ShellChain
