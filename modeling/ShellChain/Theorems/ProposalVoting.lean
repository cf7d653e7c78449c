import ShellChain.Lemmas.ProposalVotes
import ShellChain.SampleContracts

/-!
# Votes on proposals with an identity

A proposal with an identity is approved by the vote that completes two thirds of the weight of that moment, and every vote
counted was cast for that identity, with the same signing algorithm, before the deadline. Calls come in the order of their
blocks; between them everything but the proposals and their votes may change.
-/

namespace ShellChain

open Effect Native Function

variable {κ : Type} {Γ : Ctx} {rules : NativeRules}

/-! ## The system -/

/-- A change of the state that leaves the proposals and the votes on them. -/
structure ProposalChange (κ : Type) where
  apply : NativeState κ → NativeState κ
  proposals : ∀ s, (apply s).world.registry.proposals = s.world.registry.proposals
  votes : ∀ s, (apply s).world.registry.proposalVotes = s.world.registry.proposalVotes
  current : ∀ s, currentProposal (apply s) = currentProposal s

/-- Other validators with other weights. -/
def ProposalChange.validatorSet (validators : List Address) (weights : Address → Nat) : ProposalChange κ where
  apply s := { s with world := s.world.mapRegistry fun r => { r with validators := validators, weights := weights } }
  proposals _ := rfl
  votes _ := rfl
  current _ := rfl

/-- A call of `execute_authenticated`, or a change in between. -/
inductive ProposalInput (κ : Type)
  | submit (ctx : ExecContext) (caller : Address) (params : Bytes) (signingAlgorithm : Option SignatureType)
  | vote (ctx : ExecContext) (caller : Address) (params : Bytes) (signingAlgorithm : Option SignatureType)
  | change (c : ProposalChange κ)

/-- The state, and the height of the last call. -/
structure ProposalNode (κ : Type) where
  state : NativeState κ
  now : Nat

def ProposalInput.call (Γ : Ctx) (rules : NativeRules) :
    ProposalInput κ → Option (ExecContext × NativeM κ SystemContractOutcome)
  | submit ctx caller params cls => some (ctx, Native.submitAlgorithmProposalCall Γ rules ctx caller params cls)
  | vote ctx caller params cls => some (ctx, Native.voteAlgorithmProposalCall Γ rules ctx caller params cls)
  | change _ => none

/-- Calls on proposals and the changes between them. -/
def proposalSystem (Γ : Ctx) (rules : NativeRules) (κ : Type) : TransitionSystem (ProposalNode κ) (ProposalInput κ) where
  step n
    | .submit ctx caller params cls =>
      ⟨(Native.submitAlgorithmProposalCall Γ rules ctx caller params cls n.state).2, ctx.env.number⟩
    | .vote ctx caller params cls =>
      ⟨(Native.voteAlgorithmProposalCall Γ rules ctx caller params cls n.state).2, ctx.env.number⟩
    | .change c => { n with state := c.apply n.state }

/-- Calls come in the order of their blocks. -/
def InBlockOrder (n : ProposalNode κ) : ProposalInput κ → Prop
  | .submit ctx _ _ _ => n.now ≤ ctx.env.number
  | .vote ctx _ _ _ => n.now ≤ ctx.env.number
  | .change _ => True

instance (n : ProposalNode κ) (i : ProposalInput κ) : Decidable (InBlockOrder n i) :=
  match i with
  | .submit _ _ _ _ => inferInstanceAs (Decidable (_ ≤ _))
  | .vote _ _ _ _ => inferInstanceAs (Decidable (_ ≤ _))
  | .change _ => inferInstanceAs (Decidable True)

/-- Nothing has been submitted yet. -/
structure NoProposals (s : NativeState κ) : Prop where
  deadline : ∀ id, (s.world.registry.proposals id).deadline = 0
  approved : ∀ id, (s.world.registry.proposals id).approved = false
  votes : ∀ id v cls, s.world.registry.proposalVotes id v cls = false

/-- The inputs of a run with the states they arrived in. -/
abbrev ProposalTrace (κ : Type) := List (ProposalNode κ × ProposalInput κ)

/-- A vote for the proposal was cast with the signing algorithm before the deadline. -/
def VotedFor (Γ : Ctx) (rules : NativeRules) (trace : ProposalTrace κ) (id : ShellHash) (cls : Option SignatureType)
    (deadline : Nat) (v : Address) : Prop :=
  ∃ n ctx params outcome t, (n, .vote ctx v params cls) ∈ trace ∧ Native.votedProposal params = id ∧
    Native.voteAlgorithmProposalCall Γ rules ctx v params cls n.state = (.ok outcome, t) ∧ ctx.env.number < deadline

variable {trace : ProposalTrace κ} {s t : NativeState κ} {p : ProposalRecord} {ctx : ExecContext} {i : ProposalInput κ}
  {n next : ProposalNode κ}

theorem VotedFor.mono {trace' : ProposalTrace κ} {id : ShellHash} {cls : Option SignatureType} {deadline : Nat} {v : Address}
    (h : VotedFor Γ rules trace id cls deadline v) (hsub : ∀ x ∈ trace, x ∈ trace') :
    VotedFor Γ rules trace' id cls deadline v := by
  obtain ⟨n, ctx, params, outcome, t, hmem, hvote⟩ := h
  exact ⟨n, ctx, params, outcome, t, hsub _ hmem, hvote⟩

/-- The proposal of the algorithm can still be voted on at a height. -/
def Open (n : ProposalNode κ) (algo : SignatureType) (id : ShellHash) : Prop :=
  let p := n.state.world.registry.proposals id
  p.algorithm = some algo ∧ p.approved = false ∧ n.now < p.deadline

/-! ## What a call does -/

/-- A call changes nothing, opens a proposal, or votes on one. -/
inductive ProposalStep (Γ : Ctx) (rules : NativeRules) (n : ProposalNode κ) : ProposalInput κ → ProposalNode κ → Prop
  | refused {i number} (order : InBlockOrder n i → n.now ≤ number) : ProposalStep Γ rules n i ⟨n.state, number⟩
  | opened {ctx caller params cls t algo id p} (h : ProposalOpened n.state t ctx.env.number algo id p) :
    ProposalStep Γ rules n (.submit ctx caller params cls) ⟨t, ctx.env.number⟩
  | voted {ctx caller params cls outcome t algo approved}
    (run : Native.voteAlgorithmProposalCall Γ rules ctx caller params cls n.state = (.ok outcome, t))
    (h : ProposalVoted n.state t ctx.env.number caller algo (Native.votedProposal params) cls approved) :
    ProposalStep Γ rules n (.vote ctx caller params cls) ⟨t, ctx.env.number⟩
  | changed (c : ProposalChange κ) : ProposalStep Γ rules n (.change c) { n with state := c.apply n.state }

theorem voteAlgorithmProposalCall_ok {caller : Address} {params : Bytes} {cls : Option SignatureType}
    {outcome : SystemContractOutcome} (h : voteAlgorithmProposalCall Γ rules ctx caller params cls s = (.ok outcome, t)) :
    ∃ algo approved, ProposalVoted s t ctx.env.number caller algo (votedProposal params) cls approved := by
  simp only [voteAlgorithmProposalCall, bind_ok_iff, lift_ok_iff, require_ok_iff, pure_ok_iff] at h
  obtain ⟨r, _, ⟨hrules, rfl⟩, _, _, ⟨_, rfl⟩, algo, _, ⟨_, rfl⟩, approved, _, hvote, _, rfl⟩ := h
  exact ⟨algo, approved,
    voteAlgorithmProposal_ok (fun _ => votingWindow_of_rules (rules_of_identityRules hrules)) hvote⟩

theorem proposalStep_step (Γ : Ctx) (rules : NativeRules) (n : ProposalNode κ) (i : ProposalInput κ) :
    ProposalStep Γ rules n i ((proposalSystem Γ rules κ).step n i) := by
  cases i with
  | submit ctx caller params cls =>
    change ProposalStep Γ rules n _ ⟨(submitAlgorithmProposalCall Γ rules ctx caller params cls n.state).2, _⟩
    rcases hrun : submitAlgorithmProposalCall Γ rules ctx caller params cls n.state with ⟨_ | outcome, t⟩
    · rw [(atomic_submitAlgorithmProposalCall false).failsClean.eq_of_error hrun]
      exact .refused id
    · simp only [submitAlgorithmProposalCall, bind_ok_iff, lift_ok_iff, pure_ok_iff] at hrun
      obtain ⟨r, _, ⟨hrules, rfl⟩, id, _, hsubmit, _, rfl⟩ := hrun
      obtain ⟨algo, p, hopened⟩ :=
        submitAlgorithmProposal_ok (fun _ => votingWindow_of_rules (rules_of_identityRules hrules)) hsubmit
      exact .opened hopened
  | vote ctx caller params cls =>
    change ProposalStep Γ rules n _ ⟨(voteAlgorithmProposalCall Γ rules ctx caller params cls n.state).2, _⟩
    rcases hrun : voteAlgorithmProposalCall Γ rules ctx caller params cls n.state with ⟨_ | outcome, t⟩
    · rw [(atomic_voteAlgorithmProposalCall false).failsClean.eq_of_error hrun]
      exact .refused id
    · obtain ⟨algo, approved, hvoted⟩ := voteAlgorithmProposalCall_ok hrun
      exact .voted hrun hvoted
  | change c => exact .changed c

/-! ## Invariants -/

/-- What holds of the proposals of a state that a trace led to. -/
structure ProposalsSound (Γ : Ctx) (rules : NativeRules) (n : ProposalNode κ) (trace : ProposalTrace κ) : Prop where
  unsubmitted : ∀ id, (n.state.world.registry.proposals id).deadline = 0 →
    (n.state.world.registry.proposals id).approved = false
  zero : (n.state.world.registry.proposals .zero).deadline = 0
  voted : ∀ id v cls, n.state.world.registry.proposalVotes id v cls = true →
    VotedFor Γ rules trace id cls (n.state.world.registry.proposals id).deadline v
  current : ∀ algo id, Open n algo id → currentProposal n.state algo = id

/-- The record of a submitted proposal stays, and an approval is not taken back. -/
structure RecordsKept (s t : NativeState κ) : Prop where
  spec : ∀ id, (s.world.registry.proposals id).deadline ≠ 0 →
    (t.world.registry.proposals id).spec = (s.world.registry.proposals id).spec
  deadline : ∀ id, (s.world.registry.proposals id).deadline ≠ 0 →
    (t.world.registry.proposals id).deadline = (s.world.registry.proposals id).deadline
  approved : ∀ id, (s.world.registry.proposals id).approved = true → (t.world.registry.proposals id).approved = true

instance : StepRelation (RecordsKept (κ := κ)) where
  refl _ := ⟨fun _ _ => rfl, fun _ _ => rfl, fun _ h => h⟩
  trans h h' := by
    refine ⟨fun id hid => ?_, fun id hid => ?_, fun id hid => h'.approved id (h.approved id hid)⟩
    · rw [h'.spec id (by rwa [h.deadline id hid]), h.spec id hid]
    · rw [h'.deadline id (by rwa [h.deadline id hid]), h.deadline id hid]

variable {approved : Bool} {caller : Address} {number : Nat} {algo : SignatureType}

/-- The record of a proposal after a vote. -/
theorem ProposalVoted.record {id : ShellHash} {cls : Option SignatureType}
    (h : ProposalVoted s t number caller algo id cls approved) (id' : ShellHash) :
    (t.world.registry.proposals id').spec = (s.world.registry.proposals id').spec ∧
      (t.world.registry.proposals id').deadline = (s.world.registry.proposals id').deadline ∧
      ((s.world.registry.proposals id').approved = true → (t.world.registry.proposals id').approved = true) ∧
      ((t.world.registry.proposals id').approved ≠ (s.world.registry.proposals id').approved →
        id' = id ∧ approved = true) := by
  rw [h.proposals]
  cases approved with
  | false => simp
  | true =>
    by_cases hid : id' = id
    · subst hid
      simp
    · simp [hid]

/-- A submission approves nothing. -/
theorem ProposalOpened.approved_eq {id : ShellHash} (h : ProposalOpened s t number algo id p)
    (id' : ShellHash) : (t.world.registry.proposals id').approved = (s.world.registry.proposals id').approved := by
  rw [h.proposals]
  by_cases heq : id' = id
  · rw [heq, update_self, h.approved]
  · rw [update_of_ne heq]

theorem ProposalOpened.recordsKept {id : ShellHash} (h : ProposalOpened s t number algo id p) :
    RecordsKept s t := by
  have hne : ∀ id', (s.world.registry.proposals id').deadline ≠ 0 → id' ≠ id := fun id' hid' heq =>
    hid' (heq ▸ h.fresh)
  refine ⟨fun id' hid' => ?_, fun id' hid' => ?_, fun id' hid' => (h.approved_eq id').trans hid'⟩
  · rw [h.proposals, update_of_ne (hne id' hid')]
  · rw [h.proposals, update_of_ne (hne id' hid')]

theorem ProposalStep.recordsKept (hstep : ProposalStep Γ rules n i next) : RecordsKept n.state next.state := by
  cases hstep with
  | refused => exact StepRelation.refl _
  | opened h => exact h.recordsKept
  | voted _ h =>
    exact ⟨fun id' _ => (h.record id').1, fun id' _ => (h.record id').2.1, fun id' => (h.record id').2.2.1⟩
  | changed c => exact ⟨fun _ _ => by rw [c.proposals], fun _ _ => by rw [c.proposals], fun _ => by rw [c.proposals]; exact id⟩

/-- An open proposal of the same record was open at an earlier height. -/
theorem Open.of_record {n' : ProposalNode κ} {id : ShellHash} (h : Open n' algo id)
    (hspec : (n'.state.world.registry.proposals id).spec = (n.state.world.registry.proposals id).spec)
    (hdeadline : (n'.state.world.registry.proposals id).deadline = (n.state.world.registry.proposals id).deadline)
    (happroved : (n.state.world.registry.proposals id).approved = true → (n'.state.world.registry.proposals id).approved = true)
    (hnow : n.now ≤ n'.now) : Open n algo id := by
  obtain ⟨halgo, hopen, hlive⟩ := h
  refine ⟨?_, ?_, ?_⟩
  · unfold ProposalRecord.algorithm at halgo ⊢
    rw [← hspec, halgo]
  · cases hcase : (n.state.world.registry.proposals id).approved with
    | false => rfl
    | true =>
      rw [happroved hcase] at hopen
      cases hopen
  · rw [hdeadline] at hlive
    exact lt_of_le_of_lt hnow hlive

theorem ProposalsSound.opened (hs : ProposalsSound Γ rules n trace) {id : ShellHash}
    (h : ProposalOpened n.state t number algo id p) (hnow : n.now ≤ number) : ProposalsSound Γ rules ⟨t, number⟩ trace := by
  have hother : ∀ id', id' ≠ id → t.world.registry.proposals id' = n.state.world.registry.proposals id' := by
    intro id' hne
    rw [h.proposals, update_of_ne hne]
  have hself : t.world.registry.proposals id = p := by
    rw [h.proposals, update_self]
  refine ⟨fun id' hid' => ?_, ?_, fun id' v cls hvote => ?_, fun algo' id' hopen => ?_⟩
  · by_cases heq : id' = id
    · subst heq
      rw [hself] at hid'
      have hdeadline := h.deadline
      omega
    · rw [hother id' heq] at hid' ⊢
      exact hs.unsubmitted id' hid'
  · rw [hother .zero (Ne.symm h.id_ne)]
    exact hs.zero
  · rw [h.votes] at hvote
    have hvoted := hs.voted id' v cls hvote
    by_cases heq : id' = id
    · -- a vote cannot have been cast before the deadline of a proposal that has none
      subst heq
      obtain ⟨_, _, _, _, _, _, _, _, hlt⟩ := hvoted
      rw [h.fresh] at hlt
      exact absurd hlt (Nat.not_lt_zero _)
    · change VotedFor Γ rules trace id' cls (t.world.registry.proposals id').deadline v
      rw [hother id' heq]
      exact hvoted
  · change currentProposal t algo' = id'
    rw [h.current]
    by_cases heq : id' = id
    · subst heq
      obtain ⟨halgo, -, -⟩ := hopen
      change (t.world.registry.proposals id').algorithm = some algo' at halgo
      rw [hself, h.algorithm, Option.some.injEq] at halgo
      rw [halgo, update_self]
    · have hrecord := hother id' heq
      have hbefore : Open n algo' id' :=
        hopen.of_record (congrArg _ hrecord) (congrArg _ hrecord) (fun hap => (congrArg _ hrecord).trans hap) hnow
      have hcurrent := hs.current algo' id' hbefore
      by_cases halgo : algo' = algo
      · -- the proposal that is replaced is approved or over
        subst halgo
        obtain ⟨-, hunapproved, hlive⟩ := hopen
        change (t.world.registry.proposals id').approved = false at hunapproved
        change number < (t.world.registry.proposals id').deadline at hlive
        rw [hrecord] at hunapproved hlive
        rcases eq_or_ne id' .zero with rfl | hne
        · rw [hs.zero] at hlive
          exact absurd hlive (Nat.not_lt_zero _)
        · rcases h.replaced (hcurrent ▸ hne) with hap | hover
          · rw [hcurrent, hunapproved] at hap
            cases hap
          · rw [hcurrent] at hover
            omega
      · rw [update_of_ne halgo]
        exact hcurrent

/-- One input in block order keeps the proposals sound. -/
theorem ProposalsSound.step (hs : ProposalsSound Γ rules n trace) (hi : InBlockOrder n i)
    (hstep : ProposalStep Γ rules n i next) : ProposalsSound Γ rules next (trace ++ [(n, i)]) := by
  have hs' : ProposalsSound Γ rules n (trace ++ [(n, i)]) :=
    ⟨hs.unsubmitted, hs.zero, fun id v cls h => (hs.voted id v cls h).mono fun _ => List.mem_append_left _, hs.current⟩
  cases hstep with
  | refused horder =>
    exact ⟨hs'.unsubmitted, hs'.zero, hs'.voted, fun algo id hopen =>
      hs'.current algo id (hopen.of_record rfl rfl (fun h => h) (horder hi))⟩
  | opened h => exact hs'.opened h hi
  | voted hrun h =>
    rename_i ctx caller params cls outcome t algo approved
    refine ⟨fun id hid => ?_, ?_, fun id v cls' hvote => ?_, fun algo' id hopen => ?_⟩
    · have hrecord := h.record id
      change (t.world.registry.proposals id).deadline = 0 at hid
      rw [hrecord.2.1] at hid
      have hunsubmitted := hs'.unsubmitted id hid
      by_contra hne
      have hchanged := hrecord.2.2.2 (by rw [hunsubmitted]; exact hne)
      have hopen := h.open_
      rw [← hchanged.1, hid] at hopen
      exact Nat.not_lt_zero _ hopen
    · exact (h.record .zero).2.1.trans hs'.zero
    · change VotedFor Γ rules _ id cls' (t.world.registry.proposals id).deadline v
      rw [(h.record id).2.1]
      rw [h.votes] at hvote
      rcases RegistryStorage.withProposalVote_iff.mp hvote with ⟨rfl, rfl, rfl⟩ | hold
      · exact ⟨n, ctx, params, outcome, t, List.mem_append_right _ List.mem_cons_self, rfl, hrun, h.open_⟩
      · exact hs'.voted id v cls' hold
    · change currentProposal t algo' = id
      rw [h.current]
      have hrecord := h.record id
      exact hs'.current algo' id (hopen.of_record hrecord.1 hrecord.2.1 hrecord.2.2.1 hi)
  | changed c =>
    refine ⟨?_, ?_, ?_, ?_⟩
    · simpa only [c.proposals] using hs'.unsubmitted
    · simpa only [c.proposals] using hs'.zero
    · simpa only [c.proposals, c.votes] using hs'.voted
    · simpa only [Open, c.proposals, c.current] using hs'.current

/-- The vote of an input is for the proposal, is cast with the signing algorithm, and completes two thirds of the weight:
some of the validators, all of whom have cast such a vote before the deadline, hold that much. -/
def ApprovedByVotes (Γ : Ctx) (rules : NativeRules) (n : ProposalNode κ) (trace : ProposalTrace κ) (i : ProposalInput κ)
    (id : ShellHash) : Prop :=
  let r := n.state.world.registry
  ∃ (ctx : ExecContext) (caller : Address) (params : Bytes) (cls : Option SignatureType) (voters : List Address),
    i = .vote ctx caller params cls ∧ Native.votedProposal params = id ∧
    voters.Sublist r.validators ∧ (∀ v ∈ voters, VotedFor Γ rules (trace ++ [(n, i)]) id cls (r.proposals id).deadline v) ∧
    0 < (r.validators.map r.getValidatorWeight).sum ∧
    2 * (r.validators.map r.getValidatorWeight).sum ≤ 3 * (voters.map r.getValidatorWeight).sum

/-- A call that approves a proposal, or publishes anything about an algorithm, is a vote that completes the quorum of the
votes for the proposal it approves. -/
theorem approvedByVotes_of_call (hs : ProposalsSound Γ rules n trace) (hstep : ProposalStep Γ rules n i next)
    (hcall : (i.call Γ rules).isSome = true) (hchanged : (∃ id, (next.state.world.registry.proposals id).approved ≠
      (n.state.world.registry.proposals id).approved) ∨ publishedWords next.state ≠ publishedWords n.state) :
    ∃ id, (next.state.world.registry.proposals id).approved = true ∧
      (∀ id', (next.state.world.registry.proposals id').approved ≠
        (n.state.world.registry.proposals id').approved → id' = id) ∧ ApprovedByVotes Γ rules n trace i id := by
  cases hstep with
  | refused =>
    rcases hchanged with ⟨_, hne⟩ | hne
    · exact absurd rfl hne
    · exact absurd rfl hne
  | opened h =>
    rcases hchanged with ⟨id', hne⟩ | hne
    · exact absurd (h.approved_eq id') hne
    · exact absurd h.words hne
  | voted hrun h =>
    rename_i approved
    cases approved with
    | false =>
      rcases hchanged with ⟨id', hne⟩ | hne
      · exact nomatch ((h.record id').2.2.2 hne).2
      · exact absurd h.words hne
    | true =>
      rename_i ctx caller params cls outcome t algo
      obtain ⟨htotal, hreach⟩ := of_decide_eq_true h.quorum.symm
      refine ⟨_, ?_, fun id' hne => ((h.record id').2.2.2 hne).1, ctx, caller, params, cls,
        n.state.world.registry.validators.filter fun v =>
          v = caller || n.state.world.registry.proposalVotes (votedProposal params) v cls, rfl, rfl,
        List.filter_sublist, fun v hv => ?_, ?_, ?_⟩
      · simp only [h.proposals, if_true, update_self]
      · have hcast := (List.mem_filter.mp hv).2
        rcases Bool.or_eq_true_iff.mp hcast with hself | hold
        · obtain rfl := of_decide_eq_true hself
          exact ⟨n, ctx, params, outcome, t, List.mem_append_right _ List.mem_cons_self, rfl, hrun, h.open_⟩
        · exact (hs.voted _ v cls hold).mono fun _ => List.mem_append_left _
      · simp only [weightOf, List.filter_true] at htotal
        exact Nat.pos_of_ne_zero htotal
      · simp only [weightOf, List.filter_true] at hreach
        omega
  | changed => cases hcall

/-- What holds of a state that a trace led to: a call that approves a proposal or publishes an activation is a vote that
completes the quorum, a proposal that is approved takes no further vote, records and approvals stay for good, an algorithm has
one open proposal at most, and a call that fails writes nothing. -/
structure ProposalVotingSafe (Γ : Ctx) (rules : NativeRules) (n : ProposalNode κ) (trace : ProposalTrace κ) : Prop where
  approvals : ∀ i : ProposalInput κ, (i.call Γ rules).isSome = true →
    (∃ id, (((proposalSystem Γ rules κ).step n i).state.world.registry.proposals id).approved ≠
        (n.state.world.registry.proposals id).approved) ∨
      publishedWords ((proposalSystem Γ rules κ).step n i).state ≠ publishedWords n.state →
    ∃ id, (((proposalSystem Γ rules κ).step n i).state.world.registry.proposals id).approved = true ∧
      (∀ id', (((proposalSystem Γ rules κ).step n i).state.world.registry.proposals id').approved ≠
        (n.state.world.registry.proposals id').approved → id' = id) ∧ ApprovedByVotes Γ rules n trace i id
  once : ∀ ctx caller params cls outcome t,
    Native.voteAlgorithmProposalCall Γ rules ctx caller params cls n.state = (.ok outcome, t) →
    (n.state.world.registry.proposals (Native.votedProposal params)).approved = false
  records : ∀ later, RecordsKept n.state ((proposalSystem Γ rules κ).run n later).state
  oneOpen : ∀ algo id id', Open n algo id → Open n algo id' → id = id'
  failures : ∀ (i : ProposalInput κ) ctx call error t, i.call Γ rules = some (ctx, call) →
    call n.state = (.error error, t) → t = n.state

theorem failsClean_call {call : NativeM κ SystemContractOutcome} (h : i.call Γ rules = some (ctx, call)) :
    call.FailsClean := by
  cases i with
  | submit ctx' caller params cls =>
    cases h
    exact (atomic_submitAlgorithmProposalCall false).failsClean
  | vote ctx' caller params cls =>
    cases h
    exact (atomic_voteAlgorithmProposalCall false).failsClean
  | change c => cases h

/-- Votes on proposals are safe in every run from a state without proposals, with the calls in the order of their blocks. -/
theorem proposal_voting_safe (Γ : Ctx) (rules : NativeRules) (start : NativeState κ) (now : Nat) (hstart : NoProposals start)
    (l : List (ProposalInput κ)) (hl : (proposalSystem Γ rules κ).Admits InBlockOrder ⟨start, now⟩ l) :
    ProposalVotingSafe Γ rules ((proposalSystem Γ rules κ).run ⟨start, now⟩ l)
      ((proposalSystem Γ rules κ).withTrace.run (⟨start, now⟩, []) l).2 := by
  have hsound : ProposalsSound Γ rules ⟨start, now⟩ [] := by
    refine ⟨fun id _ => hstart.approved id, hstart.deadline .zero, fun id v cls h => ?_, fun algo id hopen => ?_⟩
    · rw [hstart.votes] at h
      cases h
    · have hlive := hopen.2.2
      rw [hstart.deadline] at hlive
      exact absurd hlive (Nat.not_lt_zero _)
  have hrun := TransitionSystem.invariant_run (M := (proposalSystem Γ rules κ).withTrace)
    (C := fun p i => InBlockOrder p.1 i) (I := fun p => ProposalsSound Γ rules p.1 p.2)
    (fun p i hs hi => hs.step hi (proposalStep_step Γ rules p.1 i)) (s := (⟨start, now⟩, [])) hsound
    (TransitionSystem.admits_withTrace.mpr hl)
  rw [TransitionSystem.run_withTrace_fst] at hrun
  refine ⟨fun i => approvedByVotes_of_call hrun (proposalStep_step ..), fun ctx caller params cls outcome t hvote => ?_, ?_,
    fun algo id id' h h' => ?_, fun i ctx call error t hcall herror => (failsClean_call hcall).eq_of_error herror⟩
  · obtain ⟨algo, approved, hvoted⟩ := voteAlgorithmProposalCall_ok hvote
    exact hvoted.unapproved
  · exact TransitionSystem.invariant_run_of_step (I := fun m : ProposalNode κ => RecordsKept _ m.state)
      (fun m i h => StepRelation.trans h (proposalStep_step Γ rules m i).recordsKept) (StepRelation.refl _)
  · rw [← hrun.current algo id h, hrun.current algo id' h']

namespace ApprovedProposal

/-- Proposals with an identity, and a window of seven blocks. -/
def identityRules : NativeRules :=
  { nativeRules with algorithmVotingWindow := some ⟨0, 86400⟩, algorithmProposalIdentityHeight := some 0 }

/-- Three validators with a registered key. -/
def start : NativeState Unit :=
  { nativeGenesis [nativeAddress 1, nativeAddress 2, nativeAddress 3] with pubkeys := fun _ => some [1] }

/-- The words of a proposal to activate SPHINCS+ at height 600000. -/
def params : Bytes :=
  [word SignatureType.sphincsSha2256f.asU8.toNat, ascii "SLH-DSA-SHA2-256f" ++ List.replicate 15 0, word 64, word 49856,
    word 2300000, word 0, word 7, word 600000].flatten

/-- The identity of the proposal. -/
def id : ShellHash :=
  Native.proposalIdOf nativeCtx params [1]

/-- The vote of a validator after a number of blocks. -/
def vote (n : UInt8) (head : Nat) : ProposalInput Unit :=
  .vote (nativeContext head) (nativeAddress n) (word SignatureType.sphincsSha2256f.asU8.toNat ++ id.bytes) none

/-- The proposal is submitted and has one vote, and the weights change. -/
def inputs : List (ProposalInput Unit) :=
  [.submit (nativeContext 0) (nativeAddress 1) params none, vote 1 1,
    .change (.validatorSet [nativeAddress 1, nativeAddress 2, nativeAddress 3] fun _ => 5)]

theorem approved_by_two_votes :
    ∃ id, ApprovedByVotes nativeCtx identityRules ((proposalSystem nativeCtx identityRules Unit).run ⟨start, 0⟩ inputs)
      ((proposalSystem nativeCtx identityRules Unit).withTrace.run (⟨start, 0⟩, []) inputs).2 (vote 2 2) id := by
  have hsafe := proposal_voting_safe nativeCtx identityRules start 0 ⟨fun _ => rfl, fun _ => rfl, fun _ _ _ => rfl⟩ inputs
    (by decide +kernel)
  obtain ⟨id, -, -, happroved⟩ := hsafe.approvals (vote 2 2) rfl (.inl ⟨id, by decide +kernel⟩)
  exact ⟨id, happroved⟩

end ApprovedProposal

end ShellChain
