import ShellChain.Lemmas.RegistryFrames

/-!
# What the calls about algorithms write

Every call about algorithms makes its checks before its first write, and its writes are a few: a vote, the record of a
proposal, words about an algorithm, a candidate, a publication and a deprecation. What a call keeps follows from what each of
these writes keeps.
-/

namespace ShellChain

open Effect Native

variable {κ : Type} {Γ : Ctx} {rules : NativeRules}

/-- The storage of the registry with one more vote on an algorithm. -/
def RegistryStorage.withAlgorithmVote (r : RegistryStorage) (key : AlgorithmVoteKey) : RegistryStorage :=
  { r with algorithmVotes := Function.update r.algorithmVotes key true }

/-- The state with the words about an algorithm changed. -/
def withAlgorithm (s : NativeState κ) (algo : SignatureType) (f : AlgorithmRecord → AlgorithmRecord) : NativeState κ :=
  { s with world := s.world.mapRegistry fun r => { r with
    algorithms := Function.update r.algorithms algo (f (r.algorithms algo)) } }

def withAlgorithmVote (s : NativeState κ) (key : AlgorithmVoteKey) : NativeState κ :=
  { s with world := s.world.mapRegistry fun r => r.withAlgorithmVote key }

section Words

variable {s : NativeState κ} {algo algo' : SignatureType} {f : AlgorithmRecord → AlgorithmRecord}

theorem algorithms_withAlgorithm_self :
    (withAlgorithm s algo f).world.registry.algorithms algo = f (s.world.registry.algorithms algo) :=
  Function.update_self ..

theorem algorithms_withAlgorithm_of_ne (h : algo ≠ algo') :
    (withAlgorithm s algo f).world.registry.algorithms algo' = s.world.registry.algorithms algo' :=
  Function.update_of_ne (Ne.symm h) _ _

/-- What holds of the changed words and of the words as they were holds of the words about every algorithm. -/
theorem forall_withAlgorithm {P : AlgorithmRecord → AlgorithmRecord → Prop} (hf : ∀ a, P a (f a)) (hrefl : ∀ a, P a a)
    (algo' : SignatureType) :
    P (s.world.registry.algorithms algo') ((withAlgorithm s algo f).world.registry.algorithms algo') := by
  by_cases h : algo = algo'
  · subst h
    rw [algorithms_withAlgorithm_self]
    exact hf _
  · rw [algorithms_withAlgorithm_of_ne h]
    exact hrefl _

end Words

/-- The words that are loaded. -/
def AlgorithmRecord.published (a : AlgorithmRecord) : Option AlgorithmStatus × Nat × ShellHash :=
  (a.status, a.activationHeight, a.verifierHash)

/-- The parameters of the staged candidate. -/
def AlgorithmRecord.candidate (a : AlgorithmRecord) : Nat × ShellHash :=
  (a.proposalHeight, a.proposalVerifier)

/-- A write of a call about algorithms. Nothing is published for a height below a minimum; votes that are not on a proposal
with an identity, and candidates, are only written by the older calls. -/
inductive AlgorithmWrite (older : Bool) (minimum : Nat) (s : NativeState κ) : NativeState κ → Prop
  | vote (h : older) (key : AlgorithmVoteKey) : AlgorithmWrite older minimum s (withAlgorithmVote s key)
  | candidate (h : older) (algo : SignatureType) (height : Nat) (verifier : ShellHash) :
    AlgorithmWrite older minimum s (withAlgorithm s algo fun a => { a with
      proposalHeight := height, proposalVerifier := verifier })
  | proposals (f : RegistryStorage → ShellHash → ProposalRecord)
      (g : RegistryStorage → ShellHash → Address → Option SignatureType → Bool) :
    AlgorithmWrite older minimum s { s with world := s.world.mapRegistry fun r => { r with
      proposals := f r, proposalVotes := g r } }
  | words (algo : SignatureType) (f : AlgorithmRecord → AlgorithmRecord) (published : ∀ a, (f a).published = a.published)
      (candidate : ∀ a, (f a).proposalHeight = 0 ∨ (f a).candidate = a.candidate) :
    AlgorithmWrite older minimum s (withAlgorithm s algo f)
  | publish (algo : SignatureType) (height : Nat) (verifier : ShellHash) (h : minimum ≤ height) :
    AlgorithmWrite older minimum s
      (withAlgorithm { s with registry := s.registry.proposeActivationWithSpec algo height verifier } algo fun a => { a with
        status := some .pendingActivation, activationHeight := height, verifierHash := verifier })
  | retire (algo : SignatureType) :
    AlgorithmWrite older minimum s (withAlgorithm { s with registry := s.registry.deprecateEntry algo } algo fun a =>
      { a with status := some .deprecated })

/-- The state without anything about algorithms. -/
def Native.outsideAlgorithms (s : NativeState κ) : NativeState κ :=
  { s with
    world := s.world.mapRegistry fun r => { r with
      algorithms := fun _ => .blank, algorithmVotes := fun _ => false, proposals := fun _ => ⟨[], 0, false⟩,
      proposalVotes := fun _ _ _ => false }
    registry := .fromAllowlist }

/-- Some writes in a row. -/
abbrev AlgorithmWrites (older : Bool) (minimum : Nat) : NativeState κ → NativeState κ → Prop :=
  Relation.ReflTransGen (AlgorithmWrite older minimum)

namespace Native

/-! ## Operations -/

variable {older : Bool} {minimum : Nat} {r : AlgorithmActivationRules}

theorem keepsState_checkIdentity (rules : AlgorithmActivationRules) (algo : SignatureType) :
    (checkIdentity rules algo : NativeM κ Unit).KeepsState := by
  unfold checkIdentity
  split
  · exact (keepsState_read _).bind fun _ => .require fun _ => keepsState_require _ _
  · exact keepsState_pure _

theorem total_recordAlgorithmVote (op : AlgorithmGovernanceOp) (algo : SignatureType) (caller : Address)
    (validators : List Address) :
    (recordAlgorithmVote op algo caller validators : NativeM κ Bool).Total (AlgorithmWrites true minimum) :=
  .bind (.write fun _ => .single (.vote rfl _)) fun _ => .bind (.read _) fun _ => .pure _

theorem total_publishAlgorithmProposal (h : minimum ≤ height) :
    (publishAlgorithmProposal algo height verifier : NativeM κ Unit).Total (AlgorithmWrites older minimum) :=
  ⟨fun _ => ⟨(), rfl⟩, fun _ => .single (.publish algo height verifier h)⟩

theorem total_modifyAlgorithm {f : AlgorithmRecord → AlgorithmRecord} (published : ∀ a, (f a).published = a.published)
    (candidate : ∀ a, (f a).proposalHeight = 0 ∨ (f a).candidate = a.candidate) :
    (modifyAlgorithm algo f : NativeM κ Unit).Total (AlgorithmWrites older minimum) :=
  .write fun _ => .single (.words algo f published candidate)

theorem atomic_voteStagedProposal (h : minimum ≤ height) :
    (voteStagedProposal caller validators algo height verifier r : NativeM κ Bool).Atomic (AlgorithmWrites true minimum) := by
  refine .read fun a => .lift fun _ _ => .lift fun _ _ => Atomic.bind_total ?_ fun _ =>
    .bind (total_modifyAlgorithm (fun _ => rfl) fun _ => .inr rfl) fun _ =>
      .bind (total_recordAlgorithmVote _ _ _ _) fun reached => ?_
  · unfold storeCandidate
    split
    · exact .write fun _ => .single (.candidate rfl algo height verifier)
    · exact .require fun _ => (keepsState_require _ _).atomic
  · split
    · exact .bind (total_publishAlgorithmProposal h) fun _ =>
        .bind (total_modifyAlgorithm (fun _ => rfl) fun _ => .inl rfl) fun _ => .pure _
    · exact .pure _

theorem atomic_voteLegacyProposal (h : minimum ≤ height) :
    (voteLegacyProposal caller validators algo height verifier r : NativeM κ Bool).Atomic (AlgorithmWrites true minimum) := by
  refine .read fun a => Atomic.bind_total ?_ fun _ => .bind (total_recordAlgorithmVote _ _ _ _) fun reached => ?_
  · unfold openLegacyProposal
    split
    · exact .require fun _ => (keepsState_require _ _).atomic
    · refine Total.atomic (.bind (total_modifyAlgorithm (fun a => ?_) fun a => ?_) fun _ => total_publishAlgorithmProposal h)
      · split <;> rfl
      · split <;> exact .inr rfl
  · split
    · refine .bind (total_modifyAlgorithm (fun a => ?_) fun a => ?_) fun _ => .pure _
      · split <;> rfl
      · split <;> exact .inr rfl
    · exact .pure _

/-- The height of a proposal is at least the minimum of the rules. -/
theorem atomic_proposeAlgorithmActivationOp (h : minimum ≤ r.minimumHeight) :
    (proposeAlgorithmActivationOp caller algo height verifier r : NativeM κ Bool).Atomic
      (AlgorithmWrites true minimum) := by
  refine .check keepsState_getValidators fun _ => .require fun _ => .check (keepsState_checkIdentity _ _) fun _ =>
    .require fun hle => .check keepsState_registry fun _ => .require fun _ => ?_
  have hheight : minimum ≤ height := h.trans (of_decide_eq_true hle)
  split
  · exact atomic_voteStagedProposal hheight
  · exact atomic_voteLegacyProposal hheight

theorem atomic_deprecateAlgorithmWithOp (minimum : Nat) (op : AlgorithmGovernanceOp) :
    (deprecateAlgorithmWithOp caller algo op : NativeM κ Bool).Atomic (AlgorithmWrites true minimum) := by
  refine .check keepsState_getValidators fun _ => .require fun _ =>
    Total.atomic (.bind (total_recordAlgorithmVote _ _ _ _) fun reached => ?_)
  split
  · exact ⟨fun _ => ⟨true, rfl⟩, fun _ => .single (.retire algo)⟩
  · exact .pure _

theorem atomic_submitAlgorithmProposal (config : ChainConfig) (params : Bytes) (signingAlgorithm : Option SignatureType) :
    (submitAlgorithmProposal Γ config caller params r signingAlgorithm : NativeM κ ShellHash).Atomic
      (AlgorithmWrites older minimum) := by
  refine .check keepsState_getValidators fun _ => .require fun _ => .lift fun spec _ => .require fun _ => ?_
  split
  · exact .fail _
  · split
    · exact .fail _
    · refine .read fun publicKey => ?_
      split
      · exact .fail _
      · refine .check keepsState_registry fun _ => .require fun _ => .require fun _ => .require fun _ =>
          Total.atomic (.bind (.write fun _ => .single (.proposals _ _)) fun _ =>
            .bind (total_modifyAlgorithm (fun a => ?_) fun a => ?_) fun _ => .pure _)
        · split <;> rfl
        · split
          · exact .inr rfl
          · exact .inl rfl

theorem atomic_voteAlgorithmProposal (h : minimum ≤ r.minimumHeight) (id : ShellHash)
    (signingAlgorithm : Option SignatureType) :
    (voteAlgorithmProposal caller algo id r signingAlgorithm : NativeM κ Bool).Atomic (AlgorithmWrites older minimum) := by
  refine .check keepsState_getValidators fun _ => .require fun _ => .check keepsState_registry fun _ =>
    .require fun _ => .require fun _ => ?_
  split
  · exact .fail _
  · refine .require fun _ => .require fun hle => .require fun _ =>
      Total.atomic (.bind (.write fun _ => .single (.proposals _ _)) fun _ => ?_)
    split
    · exact .bind (total_publishAlgorithmProposal (h.trans (of_decide_eq_true hle))) fun _ =>
        .bind (total_modifyAlgorithm (fun _ => rfl) fun _ => .inr rfl) fun _ =>
          .bind (.write fun _ => .single (.proposals _ _)) fun _ => .pure _
    · exact .pure _

/-! ## Calls -/

theorem minimumHeight_pos {number headNumber : Nat} (h : rules.algorithmActivationRules number headNumber = .ok r) :
    0 < r.minimumHeight := by
  simp only [NativeRules.algorithmActivationRules, Checks.bind_ok_iff] at h
  obtain ⟨votingWindow, -, minimumHeight, hminimum, h⟩ := h
  cases h
  unfold NativeRules.minimumHeightAt at hminimum
  have hdelta : 0 < algoGovernanceTargetDeltaMin ∧ 0 < algoGovernanceDeltaMin ∧ 0 < u64Max := by decide
  split at hminimum
  · split at hminimum
    · cases hminimum
    case h_2 height hadd =>
      cases hminimum
      simp only [checkedAdd, Option.ite_none_right_eq_some, Option.some.injEq] at hadd
      simp only
      omega
  · have heq := Except.ok.inj hminimum
    simp only [saturatingAdd] at heq ⊢
    omega

theorem rules_of_identityRules {ctx : ExecContext} {selector : Bytes} (h : identityRules rules ctx selector = .ok r) :
    rules.algorithmActivationRules ctx.env.number ctx.headNumber = .ok r := by
  simp only [identityRules, Checks.bind_ok_iff, Checks.pure_ok_iff] at h
  obtain ⟨_, hrules, _, -, rfl⟩ := h
  exact hrules

theorem atomic_submitAlgorithmProposalCall (older : Bool) :
    (submitAlgorithmProposalCall Γ rules ctx caller params signingAlgorithm : NativeM κ SystemContractOutcome).Atomic
      (AlgorithmWrites older 1) :=
  .lift fun _ _ => (atomic_submitAlgorithmProposal _ _ _).bind_total fun _ => .pure _

theorem atomic_voteAlgorithmProposalCall (older : Bool) :
    (voteAlgorithmProposalCall Γ rules ctx caller params signingAlgorithm : NativeM κ SystemContractOutcome).Atomic
      (AlgorithmWrites older 1) :=
  .lift fun _ hrules => .require fun _ => .lift fun _ _ =>
    (atomic_voteAlgorithmProposal (minimumHeight_pos (rules_of_identityRules hrules)) _ _).bind_total fun _ => .pure _

theorem keepsState_getAlgorithmProposalCall :
    (getAlgorithmProposalCall Γ rules ctx params : NativeM κ SystemContractOutcome).KeepsState :=
  (keepsState_lift _).bind fun _ => .require fun _ => keepsState_registry.bind fun _ => .require fun _ => keepsState_pure _

theorem atomic_proposeAlgorithmActivationCall {f : AlgorithmActivationRules → AlgorithmActivationRules}
    (hf : ∀ r, (f r).minimumHeight = r.minimumHeight) :
    (proposeAlgorithmActivationCall rules ctx caller algo height verifier f : NativeM κ SystemContractOutcome).Atomic
      (AlgorithmWrites true 1) :=
  .lift fun _ hrules => (atomic_proposeAlgorithmActivationOp ((minimumHeight_pos hrules).trans_eq (hf _).symm)).bind_total
    fun _ => .pure _

theorem atomic_deprecateAlgorithmCall (op : AlgorithmGovernanceOp) :
    (deprecateAlgorithmCall caller algo op : NativeM κ SystemContractOutcome).Atomic (AlgorithmWrites true 1) :=
  (atomic_deprecateAlgorithmWithOp 1 op).bind_total fun _ => .pure _

end Native

def RegistryCall.IsAlgorithmCall : RegistryCall → Prop
  | submitAlgorithmProposal _ | voteAlgorithmProposal _ | proposeAlgorithmActivation _ _ _ | deprecateAlgorithm _ => True
  | _ => False

theorem RegistryCall.atomic_execute {call : RegistryCall} (h : call.IsAlgorithmCall) (ctx : ExecContext) (caller : Address) :
    (call.execute Γ rules ctx caller : NativeM κ SystemContractOutcome).Atomic (AlgorithmWrites true 1) := by
  cases call with
  | submitAlgorithmProposal params => exact atomic_submitAlgorithmProposalCall true
  | voteAlgorithmProposal params => exact atomic_voteAlgorithmProposalCall true
  | proposeAlgorithmActivation algo height verifier => exact atomic_proposeAlgorithmActivationCall fun _ => rfl
  | deprecateAlgorithm algo => exact atomic_deprecateAlgorithmCall _
  | _ => cases h

theorem atomic_executeAuthenticatedGovernanceCall (ctx : ExecContext) (caller : Address) (input : Bytes)
    (signingAlgorithm : SignatureType) : (executeAuthenticatedGovernanceCall Γ rules ctx caller input signingAlgorithm :
      NativeM κ SystemContractOutcome).Atomic (AlgorithmWrites true 1) := by
  refine .require fun _ => .lift fun selector _ => ?_
  dsimp only
  split
  · exact .require fun _ => .lift fun _ _ => atomic_proposeAlgorithmActivationCall fun _ => rfl
  split
  · exact .require fun _ => .lift fun _ _ => atomic_deprecateAlgorithmCall _
  split
  · exact atomic_submitAlgorithmProposalCall true
  split
  · exact atomic_voteAlgorithmProposalCall true
  split
  · exact keepsState_getAlgorithmProposalCall.atomic
  · exact .lift fun _ _ => .fail _

end ShellChain
