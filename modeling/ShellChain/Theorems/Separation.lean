import ShellChain.Lemmas.Roles
import ShellChain.Sample

/-!
# Separation of the signed messages

No byte string is the signed message of two roles, with one exception: a vote signs the block hash it names as it is, so that
the digest signed in another role is also the message of the vote that names it. A round that votes on the block of a header
takes such a signature for a vote only if it is the seal of that header. The roles that sign a digest are told apart by the
domain of the preimage, all others by the length of the message.
-/

namespace ShellChain

namespace SignedContent

/-! ## Acceptance -/

/-- The signature bytes verify under the key for no message but the one they were made for. -/
def SignedFor (Γ : Ctx) (pubkey sig m : Bytes) : Prop :=
  ∀ t m', Γ.verify pubkey m' ⟨t, sig⟩ = some true → m' = m

variable {env : AttestationEnv} {pubkey : Bytes} {sig : PQSignature} {Γ : Ctx}

theorem verifyVoteSignature_verify {voter : Address} {h : ShellHash}
    (hv : verifyVoteSignature Γ env voter pubkey h sig = true) : ∃ t, Γ.verify pubkey h.bytes ⟨t, sig.data⟩ = some true := by
  unfold verifyVoteSignature at hv
  split at hv
  · cases hv
  · rename_i t _
    simp only [Bool.and_eq_true, decide_eq_true_eq] at hv
    exact ⟨t, hv.2⟩

/-- The envelope of a verified amendment holds the key of the prover and its signature of the message. -/
theorem verifyProverAuthentication_verify {r : AlgorithmRegistry} {a : ProofAmendment} {auth : ProverAuthentication}
    (hd : decodeProverAuthentication a.proverSignature = .ok auth) (hv : a.verifyProverAuthentication Γ r = .ok ()) :
    Address.fromPublicKey Γ auth.publicKey auth.sigType.asU8 = a.prover ∧
      Γ.verify auth.publicKey (a.signingMessage Γ) ⟨auth.sigType, auth.signature⟩ = some true := by
  simp only [ProofAmendment.verifyProverAuthentication, hd, verifySignature] at hv
  split at hv
  · cases hv
  · split at hv
    · cases hv
    · split at hv
      · cases hv
      · rename_i hprover
        split at hv
        · cases hv
        · cases hv
        · rename_i hok
          split at hok
          · cases hok
          · exact ⟨not_not.mp hprover, hok⟩

/-- A verifier accepts a signature only for the message of its content. -/
theorem Accepts.verify {c : SignedContent} (h : c.Accepts Γ env pubkey sig) :
    ∃ m t, c.message Γ = some m ∧ Γ.verify pubkey m ⟨t, sig.data⟩ = some true := by
  cases c with
  | sender | session => exact ⟨_, sig.sigType, rfl, h⟩
  | paymaster stx =>
    obtain ⟨digest, hd, hv⟩ := (Option.any_eq_true _ _).mp h
    exact ⟨digest.bytes, sig.sigType, by simp [message, hd], by simpa using hv⟩
  | proposerSeal hdr => exact ⟨_, sig.sigType, rfl, by simpa [Accepts, verifySeal] using h⟩
  | vote hdr =>
    obtain ⟨voter, hv⟩ := h
    obtain ⟨t, ht⟩ := verifyVoteSignature_verify hv
    exact ⟨_, t, rfl, ht⟩
  | attestation | viewChange =>
    simp only [Accepts, verifyAttestationSignature, verifyViewChangeSignature] at h
    split at h
    · cases h
    · rename_i t _
      split at h
      · cases h
      · split at h
        · cases h
        · cases h
        · rename_i hok
          exact ⟨_, t, rfl, hok⟩
  | amendment a =>
    obtain ⟨envelope, auth, hd, hkey, hsig, hv⟩ := h
    obtain ⟨-, hok⟩ := verifyProverAuthentication_verify hd hv
    rw [hkey, hsig] at hok
    exact ⟨_, auth.sigType, rfl, hok⟩

/-- A round changes only with a vote on its block that verifies under the key of the voter. -/
theorem verify_of_receiveWpoaVote {finality : FinalityState} {r : WPoaRound} {voter : Address} {blockHash expected : ShellHash}
    {number weight : Nat} {votes : HashMap Address PQSignature} (hkey : env.knownAuthorities.lookup voter = some pubkey)
    (hphase : r.phase = .voting expected votes weight)
    (h : (receiveWpoaVote Γ env finality r voter blockHash number sig).1 ≠ r) :
    blockHash = expected ∧ ∃ t, Γ.verify pubkey blockHash.bytes ⟨t, sig.data⟩ = some true := by
  unfold receiveWpoaVote at h
  split at h
  · exact absurd rfl h
  · rename_i hadmit
    refine ⟨?_, ?_⟩
    · by_contra hne
      split at h
      · exact h rfl
      · simp only [WPoaRound.onVote, hphase, hne, ne_eq, not_false_eq_true, if_true] at h
        split at h
        · exact h rfl
        · exact h rfl
    · simp only [admitWpoaVote, hkey, Bool.not_eq_true, Bool.not_eq_false] at hadmit
      split at hadmit
      · cases hadmit
      · exact verifyVoteSignature_verify hadmit

/-- Take contents of two different roles on whose preimages BLAKE3 does not collide. If they have one signed message, or
if a signature made for the first is accepted by the verifier of the second, then one is the vote that names the digest which
the other signs. A round that votes on the block of a header is moved by a signature made for the first content, as a vote,
only if that content is the seal of a header with the same encoding. -/
theorem vote_of_cross_role (Γ : Ctx) (env : AttestationEnv) (pubkey : Bytes) (c₁ c₂ : SignedContent)
    (hrole : c₁.role ≠ c₂.role) (hcoll : NoCollision Γ c₁ c₂) :
    (∀ m, c₁.message Γ = some m → c₂.message Γ = some m → VoteOn Γ c₁ c₂ ∨ VoteOn Γ c₂ c₁) ∧
      ∀ sig m, c₁.message Γ = some m → SignedFor Γ pubkey sig.data m →
        (c₂.Accepts Γ env pubkey sig → VoteOn Γ c₁ c₂ ∨ VoteOn Γ c₂ c₁) ∧
        ∀ (finality : FinalityState) (r : WPoaRound) (voter : Address) (blockHash : ShellHash) (number : Nat)
          (hdr : BlockHeader) (votes : HashMap Address PQSignature) (weight : Nat),
          c₂ = .vote blockHash → env.knownAuthorities.lookup voter = some pubkey →
          r.phase = .voting (hdr.hash Γ) votes weight → NoCollision Γ c₁ (.proposerSeal hdr) →
          (receiveWpoaVote Γ env finality r voter blockHash number sig).1 ≠ r →
          c₁.role = .proposerSeal ∧ c₁.preimage Γ = some (hdr.canonicalEncode Γ) := by
  refine ⟨fun m h₁ h₂ => voteOn_of_message_eq hrole hcoll h₁ h₂, fun sig m h₁ hfor => ⟨fun hacc => ?_, ?_⟩⟩
  · obtain ⟨m', t, h₂, hv⟩ := Accepts.verify hacc
    obtain rfl := hfor t m' hv
    exact voteOn_of_message_eq hrole hcoll h₁ h₂
  · rintro finality r voter blockHash number hdr votes weight rfl hkey hphase hseal hmoved
    obtain ⟨rfl, t, hv⟩ := verify_of_receiveWpoaVote hkey hphase hmoved
    obtain rfl := hfor t _ hv
    rcases voteOn_of_message_eq hrole hcoll h₁ rfl with ⟨pre, -, hpre⟩ | ⟨pre, hvote, hpre⟩
    · cases hpre
    · -- the digest is that of the header, so its preimage is the header's encoding
      have henc := hseal pre _ hpre rfl (SignedContent.vote.inj hvote).symm
      subst henc
      exact ⟨Role.eq_of_mem_domains (take_preimage_mem hpre)
        (take_preimage_mem (c := .proposerSeal hdr) rfl), hpre⟩

end SignedContent

/-! ## A seal is a vote -/

namespace SealVoteCex

/-- A node with one authority of weight two and one of weight one, the keys of which are one byte. -/
def env : AttestationEnv where
  chainId := 10
  registry := .fromAllowlist
  knownAuthorities := [⟨sampleAddress [1], [1]⟩, ⟨sampleAddress [2], [2]⟩].toAList
  validatorWeights :=
    { weights := [⟨sampleAddress [1], 1⟩, ⟨sampleAddress [2], 2⟩].toAList
      total_le := by decide }
  getBlockByHash _ := .ok none
  getBlockHashByNumber _ := .ok none
  setFinalizedNumber _ := .ok ()

/-- The header of a block of the first authority. -/
def header : BlockHeader :=
  { (default : BlockHeader) with number := 5, proposer := sampleAddress [1] }

def blockSeal : PQSignature :=
  ⟨.mlDsa65, sampleSign [1] (header.hash sampleCtx).bytes⟩

/-- A transfer of the first authority. -/
def transfer : SignedTransaction :=
  ⟨sampleAddress [1], default, ⟨.mlDsa65, []⟩, .reference, none⟩

def transferSig : PQSignature :=
  ⟨.mlDsa65, sampleSign [1] (transfer.senderSigningHash sampleCtx).bytes⟩

/-- The round of the height of the block, which votes on it. -/
def round : WPoaRound :=
  ((WPoaRound.new 5 0 env.validatorWeights.weights).onBlockProposed (header.hash sampleCtx)).1

theorem signedFor_sampleSign (m : Bytes) : SignedContent.SignedFor sampleCtx [1] (sampleSign [1] m) m := by
  intro t m' hv
  have heq : sampleSign [1] m = sampleSign [1] m' := of_decide_eq_true (Option.some.inj hv)
  exact (List.append_cancel_left heq).symm

theorem noCollision_transfer_seal : SignedContent.NoCollision sampleCtx (.sender transfer) (.proposerSeal header) := by
  intro pre₁ pre₂ h₁ h₂ heq
  obtain rfl := Option.some.inj h₁
  obtain rfl := Option.some.inj h₂
  exact absurd heq (by decide +kernel)

/-- The signature of a transfer is a vote for the digest of the transfer and for no other block hash, and it never moves the
round that votes on the block. -/
theorem transfer_moves_no_round :
    (SignedContent.vote (transfer.senderSigningHash sampleCtx)).Accepts sampleCtx env [1] transferSig ∧
      (∀ blockHash, (SignedContent.vote blockHash).Accepts sampleCtx env [1] transferSig →
        blockHash = transfer.senderSigningHash sampleCtx) ∧
      ∀ blockHash, (receiveWpoaVote sampleCtx env .new round (sampleAddress [1]) blockHash 5 transferSig).1 = round := by
  have hcross := fun blockHash => (SignedContent.vote_of_cross_role sampleCtx env [1] (.sender transfer) (.vote blockHash)
    (by simp [SignedContent.role]) (fun _ _ _ h => by cases h)).2 transferSig _ rfl (signedFor_sampleSign _)
  refine ⟨⟨sampleAddress [1], by decide +kernel⟩, fun blockHash hacc => ?_, fun blockHash => ?_⟩
  · rcases (hcross blockHash).1 hacc with ⟨pre, hvote, -⟩ | ⟨pre, hvote, hpre⟩
    · cases hvote
    · obtain rfl := Option.some.inj hpre
      exact SignedContent.vote.inj hvote
  · by_contra hmoved
    obtain ⟨hrole, -⟩ := (hcross blockHash).2 .new round (sampleAddress [1]) blockHash 5 header ∅ 0 rfl (by decide +kernel) rfl
      noCollision_transfer_seal hmoved
    cases hrole

/-- The seal of a block is the vote for it, and a round records the seal of the proposer as its vote. The signature of a
transfer verifies as the vote that names the digest of the transfer. -/
theorem seal_recorded_as_vote :
    (SignedContent.proposerSeal header).message sampleCtx =
        (SignedContent.vote (header.hash sampleCtx)).message sampleCtx ∧
      verifySeal sampleCtx header blockSeal [1] = true ∧
      (receiveWpoaVote sampleCtx env .new round (sampleAddress [1]) (header.hash sampleCtx) 5 blockSeal).1.recordedVote
        (sampleAddress [1]) = some blockSeal ∧
      verifyVoteSignature sampleCtx env (sampleAddress [1]) [1] (transfer.senderSigningHash sampleCtx) transferSig = true := by
  refine ⟨rfl, ?_, ?_, ?_⟩
  · decide +kernel
  · decide +kernel
  · decide +kernel

end SealVoteCex

end ShellChain
