import ShellChain.Lemmas.Session
import ShellChain.SampleChain

/-!
# Accepted transactions are authentic

`validate_aa_tx` (`pqvm/src/aa_validation.rs`) accepts a transaction on one of four grounds: the contract of the account
approves it, a validator signs a governance call with its fallback key, the key of the sender signs it, or a session key
signs it that the key of the sender has authorised. On each of them a paymaster other than the sender has agreed to pay.
-/

namespace ShellChain

open Checks List

namespace ValidationView

variable {Γ : Ctx} {v : ValidationView} {verify : Verifier} {stx : SignedTransaction}

/-! ## The four grounds -/

/-- The calls of a transaction with their recipients, values and data. -/
def callsOf (stx : SignedTransaction) : List (Option Address × Nat × Bytes) :=
  match stx.aaBundle with
  | some bundle => bundle.innerCalls.map fun call => (call.recipient, call.value, call.data)
  | none => [(stx.tx.recipient, stx.tx.value, stx.tx.data)]

/-- The selectors of the four mutations of the algorithm registry. -/
def governanceSelectors (Γ : Ctx) : List Bytes :=
  [selector Γ "submitAlgorithmProposal(uint8,bytes32,uint32,uint32,uint64,uint64,bytes32,uint64)",
    selector Γ "voteAlgorithmProposal(uint8,bytes32)", selector Γ "deprecateAlgorithm(uint8)",
    selector Γ "proposeAlgorithmActivation(uint8,uint64,bytes32)"]

/-- The key of the sender for a signature of an algorithm: the registered key, or before there is one a key that derives
the address under that algorithm. -/
def IsSenderKey (Γ : Ctx) (v : ValidationView) (sender : Address) (algorithm : SignatureType) (key : Bytes) : Prop :=
  v.pubkey sender = some key ∨ (v.pubkey sender = none ∧ Address.fromPublicKey Γ key algorithm.asU8 = sender)

/-- The grounds on which a transaction is authentic. -/
inductive Authenticated (Γ : Ctx) (v : ValidationView) (verify : Verifier) (stx : SignedTransaction) : Prop
  /-- The account has a validation contract, which approves the transaction. -/
  | custom (codeHash : ShellHash) (pubkey : Bytes)
      (account : (v.account stx.sender).bind AccountPolicy.validationCodeHash = some codeHash)
      (approved : v.customAccepts stx codeHash pubkey = true)
  /-- A validator calls the algorithm registry with its fallback key while emergency governance is active. -/
  | governance (key : Bytes) (active : activeAt v.config.emergencyGovernanceHeight v.blockNumber = true)
      (calls : ∀ call ∈ callsOf stx, call.1 = some validatorRegistryAddr ∧ call.2.1 = 0 ∧
        call.2.2.take 4 ∈ governanceSelectors Γ)
      (validator : stx.sender ∈ v.validators) (fallback : v.config.governanceFallbackKeys.lookup stx.sender = some key)
      (signed : verify key (stx.senderSigningHash Γ).bytes stx.signature = some true)
  /-- The key of the sender signs the transaction. -/
  | direct (key : Bytes) (noSession : sessionOf stx = none)
      (senderKey : v.IsSenderKey Γ stx.sender stx.signature.sigType key)
      (signed : verify key (stx.senderSigningHash Γ).bytes stx.signature = some true)
  /-- The root key of the sender authorises a session key, which signs the transaction. -/
  | session (calls : List InnerCall) (auth : SessionAuth) (root : Bytes) (algorithm : SignatureType)
      (hasSession : sessionOf stx = some (calls, auth)) (rootKey : v.IsRootKey Γ stx.sender root)
      (authorised : verify root (auth.authHash Γ stx.tx.chainId).bytes ⟨algorithm, auth.rootSignature⟩ = some true)
      (signed : verify auth.sessionPubkey (stx.senderSigningHash Γ).bytes stx.signature = some true)

/-- A paymaster other than the sender agrees: its contract approves, or its registered key signs the paymaster hash. -/
def PaymasterAgrees (Γ : Ctx) (v : ValidationView) (verify : Verifier) (stx : SignedTransaction) : Prop :=
  ∀ bundle paymaster, stx.aaBundle = some bundle → bundle.paymaster = some paymaster → paymaster ≠ stx.sender →
    (∃ context, bundle.paymasterContext = some context ∧ v.paymasterAccepts stx paymaster context = true) ∨
      ∃ key digest signature algorithm, v.pubkey paymaster = some key ∧ stx.paymasterSigningHash Γ = some digest ∧
        bundle.paymasterSignature = some signature ∧ verify key digest.bytes ⟨algorithm, signature⟩ = some true

/-! ## Paymasters -/

theorem verifies_of_verifyPaymasterSignature {paymaster : Address} {signature pubkey : Bytes}
    (h : v.verifyPaymasterSignature Γ verify stx paymaster signature pubkey = .ok ()) :
    ∃ digest algorithm, stx.paymasterSigningHash Γ = some digest ∧
      verify pubkey digest.bytes ⟨algorithm, signature⟩ = some true := by
  unfold verifyPaymasterSignature at h
  split at h
  · cases h
  rename_i digest hdigest
  refine ⟨digest, ?_⟩
  simp only at h
  split at h
  · -- the algorithm that the account is bound to
    rename_i algorithm _
    simp only [bind_ok_iff, ensure_ok_iff, Bool.and_eq_true, decide_eq_true_eq] at h
    obtain ⟨_, -, -, hverify⟩ := h
    exact ⟨algorithm, hdigest, hverify⟩
  · split at h
    · -- a rotated key is tried under every allowed algorithm
      simp only [bind_ok_iff, ensure_ok_iff, any_eq_true, decide_eq_true_eq] at h
      obtain ⟨_, -, algorithm, -, hverify⟩ := h
      exact ⟨algorithm, hdigest, hverify⟩
    · split at h
      · cases h
      · rename_i algorithm _
        simp only [ensure_ok_iff, decide_eq_true_eq] at h
        exact ⟨algorithm, hdigest, h⟩

theorem paymasterAgrees_of_validate (h : v.validatePaymasterAuthorization Γ verify stx = .ok ()) :
    v.PaymasterAgrees Γ verify stx := by
  intro bundle paymaster hbundle hpaymaster hne
  simp only [validatePaymasterAuthorization, hbundle, hpaymaster, if_neg hne] at h
  split at h
  · rename_i context hcontext
    exact .inl ⟨context, hcontext, (ensure_ok_iff ..).mp h⟩
  · split at h
    · cases h
    · cases h
    · rename_i signature pubkey hsignature hpubkey
      obtain ⟨digest, algorithm, hdigest, hverify⟩ := verifies_of_verifyPaymasterSignature h
      exact .inr ⟨pubkey, digest, signature, algorithm, hpubkey, hdigest, hsignature, hverify⟩

/-! ## Governance calls -/

theorem call_of_allowedGovernanceCall {recipient : Option Address} {value : Nat} {data : Bytes}
    (h : allowedGovernanceCall Γ recipient value data = true) :
    recipient = some validatorRegistryAddr ∧ value = 0 ∧ data.take 4 ∈ governanceSelectors Γ := by
  simp only [allowedGovernanceCall, decide_eq_true_eq] at h
  obtain ⟨hrecipient, hvalue, hdata⟩ := h
  refine ⟨hrecipient, hvalue, ?_⟩
  unfold governanceSelectors
  rcases hdata with ⟨-, hdata⟩ | ⟨-, hdata⟩ | ⟨-, hdata⟩ | ⟨-, hdata⟩
  · rw [hdata]
    exact mem_cons_self
  · rw [hdata]
    exact mem_cons_of_mem _ mem_cons_self
  · rw [hdata]
    exact mem_cons_of_mem _ (mem_cons_of_mem _ mem_cons_self)
  · rw [hdata]
    exact mem_cons_of_mem _ (mem_cons_of_mem _ (mem_cons_of_mem _ mem_cons_self))

theorem calls_of_governanceScoped (h : governanceScoped Γ stx = true) :
    ∀ call ∈ callsOf stx, call.1 = some validatorRegistryAddr ∧ call.2.1 = 0 ∧ call.2.2.take 4 ∈ governanceSelectors Γ := by
  intro call hcall
  unfold governanceScoped at h
  unfold callsOf at hcall
  split at h
  · rename_i bundle hbundle
    simp only [hbundle, mem_map] at hcall
    obtain ⟨inner, hinner, rfl⟩ := hcall
    simp only [Bool.and_eq_true, all_eq_true] at h
    exact call_of_allowedGovernanceCall (h.2 inner hinner)
  · rename_i hnone
    simp only [hnone, mem_singleton] at hcall
    subst hcall
    exact call_of_allowedGovernanceCall h

/-- The built-in path accepts what the sender or its session key has signed. -/
theorem authenticated_of_validateBuiltIn (hbuiltIn : v.BuiltIn stx.sender)
    (hfallback : v.governanceFallbackPubkey Γ stx = none) (h : v.validateBuiltIn Γ verify stx = .ok ()) :
    v.Authenticated Γ verify stx := by
  cases hsession : sessionOf stx with
  | some session =>
    have haccepted : v.validateAaTx Γ verify stx = .ok () := by
      unfold BuiltIn at hbuiltIn
      rw [validateAaTx, hbuiltIn, hfallback]
      exact h
    obtain ⟨root, hroot⟩ := sessionAccepted_of_validateAaTx hsession hbuiltIn haccepted
    obtain ⟨algorithm, hauthorised⟩ := hroot.authorised
    exact .session session.1 session.2 root algorithm hsession hroot.rootKey hauthorised hroot.signed
  | none =>
    simp only [validateBuiltIn, bind_ok_iff] at h
    obtain ⟨_, -, h⟩ := h
    split at h
    · exact absurd h throw_ne_ok
    rename_i key hkey
    simp only [hsession, bind_ok_iff, ensure_ok_iff, decide_eq_true_eq] at h
    obtain ⟨_, hbinding, _, hverify, -⟩ := h
    have hsender : v.IsSenderKey Γ stx.sender stx.signature.sigType key := by
      refine (checkSenderBinding_ok hkey hbinding).imp_right fun hderived => ⟨hderived.1, ?_⟩
      simpa [hsession, eq_comm] using hderived.2
    exact .direct key hsession hsender hverify

theorem paymasterAgrees_of_validateBuiltIn (h : v.validateBuiltIn Γ verify stx = .ok ()) :
    v.PaymasterAgrees Γ verify stx := by
  simp only [validateBuiltIn, bind_ok_iff] at h
  obtain ⟨_, -, h⟩ := h
  split at h
  · exact absurd h throw_ne_ok
  cases hsession : sessionOf stx with
  | none | some =>
    simp only [hsession, bind_ok_iff] at h
    obtain ⟨_, -, _, -, hpaymaster⟩ := h
    exact paymasterAgrees_of_validate hpaymaster

end ValidationView

open ValidationView

/-- A transaction that `validate_aa_tx` accepts is authentic, and its paymaster agrees. -/
theorem authenticated_of_validateAaTx (Γ : Ctx) (v : ValidationView) (verify : Verifier) (stx : SignedTransaction)
    (h : v.validateAaTx Γ verify stx = .ok ()) :
    v.Authenticated Γ verify stx ∧ v.PaymasterAgrees Γ verify stx := by
  unfold validateAaTx at h
  split at h
  · rename_i codeHash haccount
    simp only [bind_ok_iff, ensure_ok_iff] at h
    obtain ⟨_, happroved, hpaymaster⟩ := h
    exact ⟨.custom codeHash _ haccount happroved, paymasterAgrees_of_validate hpaymaster⟩
  · rename_i hbuiltIn
    split at h
    · rename_i key hfallback
      simp only [bind_ok_iff, ensure_ok_iff, decide_eq_true_eq] at h
      obtain ⟨_, -, _, hverify, _, hpaymaster, -⟩ := h
      unfold governanceFallbackPubkey at hfallback
      split_ifs at hfallback with hactive _ hscoped
      simp only [not_or, not_not] at hactive hscoped
      exact ⟨.governance key hactive.1 (calls_of_governanceScoped hscoped.1) hscoped.2
        (Option.filter_eq_some_iff.mp hfallback).1 hverify, paymasterAgrees_of_validate hpaymaster⟩
    · rename_i hfallback
      exact ⟨authenticated_of_validateBuiltIn hbuiltIn hfallback h, paymasterAgrees_of_validateBuiltIn h⟩

/-! ## A sponsored bundle -/

namespace SponsoredBundle

def paymasterKey : Bytes :=
  [8]

/-- One transfer of five units, paid by another account. -/
def bundle : AaBundle :=
  ⟨[⟨some (.repeatByte 0xcc), 5, [], 21000⟩], some (chainAddress paymasterKey), some [3], none, none⟩

/-- The signed bundle. -/
def sponsored : SignedTransaction :=
  ⟨chainAddress senderKey, ⟨1337, 0, none, 5, [], 100000, 1, 0, none, aaBundleTxType, none, none⟩, ⟨.mlDsa65, [2]⟩,
    .reference, some bundle⟩

/-- The verifier knows the signatures of the sender and of the paymaster. -/
def ctx : Ctx :=
  { chainCtx with
    verify := fun pubkey m sig => some (decide (
      (pubkey = senderKey ∧ m = (sponsored.senderSigningHash chainCtx).bytes ∧ sig.data = [2]) ∨
      (pubkey = paymasterKey ∧ some m = (sponsored.paymasterSigningHash chainCtx).map ShellHash.bytes ∧
        sig.data = [3]))) }

/-- Both keys are registered. -/
def view : ValidationView where
  config := sampleChainConfig
  registry := .fromAllowlist
  blockNumber := 1
  account _ := none
  pubkey a := if a = chainAddress senderKey then some senderKey
    else if a = chainAddress paymasterKey then some paymasterKey else none
  validators := []
  algorithmMatured _ := false
  customAccepts _ _ _ := false
  paymasterAccepts _ _ _ := false

theorem authenticated_sponsored :
    view.validateAaTx ctx ctx.verify sponsored = .ok () ∧ view.Authenticated ctx ctx.verify sponsored ∧
      view.PaymasterAgrees ctx ctx.verify sponsored := by
  have haccepted : view.validateAaTx ctx ctx.verify sponsored = .ok () := by
    decide +kernel
  exact ⟨haccepted, authenticated_of_validateAaTx ctx view ctx.verify sponsored haccepted⟩

end SponsoredBundle

end ShellChain
