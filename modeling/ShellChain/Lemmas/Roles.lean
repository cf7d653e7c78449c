import ShellChain.Roles

/-!
# The messages of the roles

What the message of a content determines: a digest role is told by the domain of its preimage, and a raw message by its
length. A vote has the length of a digest and no domain.
-/

namespace ShellChain

open ByteCodec Option

/-! ## Domains of the digest roles -/

/-- The domains of the preimages of a role. -/
def Role.domains : Role → List Bytes
  | .sender => [pqtxSigningDomain, pqtxBundleDomain]
  | .session => [pqtxSessionDomain]
  | .paymaster => [pqtxPaymasterDomain]
  | .proposerSeal => [blockHashDomain]
  | _ => []

/-- Different roles share no domain. -/
theorem Role.eq_of_mem_domains {r₁ r₂ : Role} {d : Bytes} (h₁ : d ∈ r₁.domains) (h₂ : d ∈ r₂.domains) : r₁ = r₂ := by
  have hall : ∀ r₁ r₂ : Role, (∃ d ∈ r₁.domains, d ∈ r₂.domains) → r₁ = r₂ := by
    intro r₁ r₂
    cases r₁ <;> cases r₂ <;> decide
  exact hall r₁ r₂ ⟨d, h₁, h₂⟩

namespace SignedContent

variable {c : SignedContent} {pre m : Bytes} {Γ : Ctx}

/-- A preimage starts with a domain of its role. -/
theorem take_preimage_mem (h : c.preimage Γ = some pre) : pre.take 16 ∈ c.role.domains := by
  cases c with
  | sender stx =>
    simp only [preimage] at h
    split at h
    · split at h <;> obtain rfl := some.inj h
      · exact List.mem_cons_self
      · exact List.mem_cons_of_mem _ List.mem_cons_self
    · obtain rfl := some.inj h
      exact List.mem_cons_self
  | session auth chainId =>
    obtain rfl := some.inj h
    exact List.mem_cons_self
  | paymaster stx =>
    simp only [preimage] at h
    split at h
    · obtain ⟨batchHash, -, rfl⟩ := map_eq_some_iff.mp h
      exact List.mem_cons_self
    · cases h
  | proposerSeal =>
    obtain rfl := some.inj h
    simp [role, Role.domains, BlockHeader.canonicalEncode, blockHashDomain]
  | vote | attestation | viewChange | amendment => cases h

/-! ## Lengths of the messages -/

/-- A message of a digest role is the digest of its preimage. -/
theorem message_of_preimage (h : c.preimage Γ = some pre) : c.message Γ = some (Γ.blake3 pre).bytes := by
  cases c with
  | sender stx =>
    simp only [preimage] at h
    simp only [message, SignedTransaction.senderSigningHash, SignedTransaction.batchSigningHash]
    split at h
    · rename_i bundle hb
      split at h <;> obtain rfl := some.inj h <;> rename_i ht <;> simp [hb, ht, Transaction.signingHash]
    · rename_i hb
      obtain rfl := some.inj h
      simp [hb, Transaction.signingHash]
  | session | proposerSeal =>
    obtain rfl := some.inj h
    rfl
  | paymaster stx =>
    simp only [preimage] at h
    split at h
    · rename_i hp
      obtain ⟨batchHash, hb, rfl⟩ := map_eq_some_iff.mp h
      obtain ⟨paymaster, hp⟩ := isSome_iff_exists.mp hp
      obtain ⟨bundle, hbundle, hp⟩ := bind_eq_some_iff.mp hp
      simp [message, SignedTransaction.paymasterSigningHash, hbundle, hp, hb]
    · cases h
  | vote | attestation | viewChange | amendment => cases h

/-- Every message is the digest of a preimage, the block hash of a vote, or one of the three raw messages, which differ in
length. -/
theorem message_cases (h : c.message Γ = some m) :
    (∃ pre, c.preimage Γ = some pre ∧ m = (Γ.blake3 pre).bytes) ∨ (∃ blockHash, c = .vote blockHash ∧ m = blockHash.bytes) ∨
      (c.role = .attestation ∧ m.length = 112) ∨ (c.role = .viewChange ∧ m.length = 72) ∨
      (c.role = .amendment ∧ 112 < m.length) := by
  have hpre : ∀ pre, c.preimage Γ = some pre → m = (Γ.blake3 pre).bytes := fun pre hp =>
    Option.some.inj (h.symm.trans (message_of_preimage hp))
  cases c with
  | sender stx =>
    obtain ⟨pre, hp⟩ : ∃ pre, (SignedContent.sender stx).preimage Γ = some pre := by
      simp only [preimage]
      split
      · split <;> exact ⟨_, rfl⟩
      · exact ⟨_, rfl⟩
    exact .inl ⟨pre, hp, hpre pre hp⟩
  | session | proposerSeal => exact .inl ⟨_, rfl, hpre _ rfl⟩
  | vote blockHash => exact .inr (.inl ⟨blockHash, rfl, (some.inj h).symm⟩)
  | paymaster stx =>
    obtain ⟨digest, hd, rfl⟩ := map_eq_some_iff.mp h
    unfold SignedTransaction.paymasterSigningHash at hd
    split at hd
    · cases hd
    · rename_i bundle hbundle
      split at hd
      · cases hd
      · rename_i paymaster hpay
        obtain ⟨batchHash, hb, rfl⟩ := map_eq_some_iff.mp hd
        exact .inl ⟨_, by simp [preimage, hbundle, hpay, hb], rfl⟩
  | attestation a =>
    obtain rfl := Option.some.inj h
    have hdomain : attestDomain.length = 16 := rfl
    refine .inr (.inr (.inl ⟨rfl, ?_⟩))
    simp only [Attestation.ownSigningMessage, Attestation.signingMessage, List.length_append, hdomain,
      ShellHash.length_eq, length_beBytes]
  | viewChange msg =>
    obtain rfl := Option.some.inj h
    have hdomain : viewchgDomain.length = 16 := rfl
    refine .inr (.inr (.inr (.inl ⟨rfl, ?_⟩)))
    simp only [ViewChangeMessage.ownSigningMessage, List.length_append, hdomain, ShellHash.length_eq, length_beBytes]
  | amendment a =>
    obtain rfl := Option.some.inj h
    -- longer than any other message, whatever its source range
    have hdomain : amendmentDomain.length = 29 := rfl
    refine .inr (.inr (.inr (.inr ⟨rfl, ?_⟩)))
    simp only [ProofAmendment.signingMessage, List.length_append, hdomain, ShellHash.length_eq, Address.length_eq,
      length_beBytes, a.proof.batchRoot_length, List.length_singleton]
    omega

/-! ## One message for two contents -/

/-- BLAKE3 does not collide on the preimages of two contents. -/
def NoCollision (Γ : Ctx) (c₁ c₂ : SignedContent) : Prop :=
  ∀ pre₁ pre₂, c₁.preimage Γ = some pre₁ → c₂.preimage Γ = some pre₂ → Γ.blake3 pre₁ = Γ.blake3 pre₂ → pre₁ = pre₂

/-- The first content is the vote for the block hash that is the digest the second signs. -/
def VoteOn (Γ : Ctx) (c₁ c₂ : SignedContent) : Prop :=
  ∃ pre, c₁ = .vote (Γ.blake3 pre) ∧ c₂.preimage Γ = some pre

/-- Contents of different roles with one message are a vote and what it votes on. -/
theorem voteOn_of_message_eq {c₁ c₂ : SignedContent} (hrole : c₁.role ≠ c₂.role) (hcoll : NoCollision Γ c₁ c₂)
    (h₁ : c₁.message Γ = some m) (h₂ : c₂.message Γ = some m) : VoteOn Γ c₁ c₂ ∨ VoteOn Γ c₂ c₁ := by
  have hdigest : ∀ pre, (Γ.blake3 pre).bytes.length = 32 := fun pre => (Γ.blake3 pre).length_eq
  have hlength : ∀ blockHash : ShellHash, blockHash.bytes.length = 32 := fun blockHash => blockHash.length_eq
  rcases message_cases h₁ with ⟨pre₁, hp₁, rfl⟩ | ⟨blockHash₁, rfl, rfl⟩ | hraw₁
  · rcases message_cases h₂ with ⟨pre₂, hp₂, hm₂⟩ | ⟨blockHash₂, rfl, hm₂⟩ | hraw₂
    · -- one preimage has one domain, and with it one role
      obtain rfl := hcoll pre₁ pre₂ hp₁ hp₂ (ShellHash.ext hm₂)
      exact absurd (Role.eq_of_mem_domains (take_preimage_mem hp₁) (take_preimage_mem hp₂)) hrole
    · obtain rfl := ShellHash.ext hm₂
      exact .inr ⟨pre₁, rfl, hp₁⟩
    · have := hdigest pre₁
      omega
  · rcases message_cases h₂ with ⟨pre₂, hp₂, hm₂⟩ | ⟨blockHash₂, rfl, -⟩ | hraw₂
    · obtain rfl := ShellHash.ext hm₂
      exact .inl ⟨pre₂, rfl, hp₂⟩
    · exact absurd rfl hrole
    · have := hlength blockHash₁
      omega
  · rcases message_cases h₂ with ⟨pre₂, hp₂, rfl⟩ | ⟨blockHash₂, rfl, rfl⟩ | hraw₂
    · have := hdigest pre₂
      omega
    · have := hlength blockHash₂
      omega
    · rcases hraw₁ with ⟨r₁, l₁⟩ | ⟨r₁, l₁⟩ | ⟨r₁, l₁⟩ <;> rcases hraw₂ with ⟨r₂, l₂⟩ | ⟨r₂, l₂⟩ | ⟨r₂, l₂⟩ <;>
        first | omega | exact absurd (r₁.trans r₂.symm) hrole

end SignedContent

end ShellChain
