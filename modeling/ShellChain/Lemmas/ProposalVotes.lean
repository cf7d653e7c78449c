import ShellChain.Lemmas.AlgorithmVotes

/-!
# Proposals with an identity along a run

What a successful submission of a proposal and a successful vote on one do to the proposals, to the votes on them and to the
words about the algorithms, and the system that takes such calls between changes of everything else.
-/

namespace ShellChain

open Effect Function

variable {κ : Type} {Γ : Ctx} {rules : NativeRules}

/-- The words that a publication writes about an algorithm. -/
def publishedWords (s : NativeState κ) (algo : SignatureType) : Option AlgorithmStatus × Nat × ShellHash :=
  let a := s.world.registry.algorithms algo
  (a.status, a.activationHeight, a.verifierHash)

def currentProposal (s : NativeState κ) (algo : SignatureType) : ShellHash :=
  (s.world.registry.algorithms algo).proposalId

/-- The algorithm that the words of a proposal name. -/
def ProposalRecord.algorithm (p : ProposalRecord) : Option SignatureType :=
  (decodeSignatureType (p.spec.getD 0 .zero).bytes).toOption

/-- What a submission at a height leaves. -/
structure ProposalOpened (s t : NativeState κ) (number : Nat) (algo : SignatureType) (id : ShellHash) (p : ProposalRecord) :
    Prop where
  id_ne : id ≠ .zero
  fresh : (s.world.registry.proposals id).deadline = 0
  approved : p.approved = (s.world.registry.proposals id).approved
  deadline : number < p.deadline
  algorithm : p.algorithm = some algo
  replaced : currentProposal s algo ≠ .zero → (s.world.registry.proposals (currentProposal s algo)).approved = true ∨
    (s.world.registry.proposals (currentProposal s algo)).deadline ≤ number
  proposals : t.world.registry.proposals = Function.update s.world.registry.proposals id p
  votes : t.world.registry.proposalVotes = s.world.registry.proposalVotes
  current : currentProposal t = Function.update (currentProposal s) algo id
  words : publishedWords t = publishedWords s

def RegistryStorage.withProposalVote (r : RegistryStorage) (id : ShellHash) (voter : Address)
    (signingAlgorithm : Option SignatureType) : ShellHash → Address → Option SignatureType → Bool :=
  Function.update r.proposalVotes id
    (Function.update (r.proposalVotes id) voter (Function.update (r.proposalVotes id voter) signingAlgorithm true))

theorem RegistryStorage.withProposalVote_iff {r : RegistryStorage} {id id' : ShellHash} {voter v : Address}
    {cls cls' : Option SignatureType} : r.withProposalVote id voter cls id' v cls' = true ↔
      (id' = id ∧ v = voter ∧ cls' = cls) ∨ r.proposalVotes id' v cls' = true := by
  unfold withProposalVote
  by_cases hid : id' = id
  · subst hid
    rw [update_self]
    by_cases hv : v = voter
    · subst hv
      rw [update_self]
      by_cases hcls : cls' = cls
      · subst hcls
        simp
      · simp [hcls]
    · simp [hv]
  · simp [hid]

/-- What a vote at a height leaves. -/
structure ProposalVoted (s t : NativeState κ) (number : Nat) (caller : Address) (algo : SignatureType) (id : ShellHash)
    (cls : Option SignatureType) (approved : Bool) : Prop where
  unapproved : (s.world.registry.proposals id).approved = false
  open_ : number < (s.world.registry.proposals id).deadline
  quorum : approved = Native.proposalVotesReach s.world.registry s.world.registry.validators caller id cls
  votes : t.world.registry.proposalVotes = s.world.registry.withProposalVote id caller cls
  current : currentProposal t = currentProposal s
  proposals : t.world.registry.proposals = if approved then
    Function.update s.world.registry.proposals id { s.world.registry.proposals id with approved := true }
    else s.world.registry.proposals
  words : publishedWords t = if approved then Function.update (publishedWords s) algo (publishedWords t algo)
    else publishedWords s

namespace Native

section Operations

variable {s t : NativeState κ} {caller : Address} {algo : SignatureType} {id : ShellHash} {params : Bytes}
  {r : AlgorithmActivationRules} {cls : Option SignatureType} {number : Nat}

theorem modifyRegistry_ok {f : RegistryStorage → RegistryStorage}
    (h : modifyRegistry f s = (.ok (), t)) : t = { s with world := s.world.mapRegistry f } := by
  simp only [modifyRegistry, write_ok_iff] at h
  exact h.symm

/-- A change of the words about one algorithm that keeps the current proposal. -/
theorem currentProposal_withAlgorithm {f : AlgorithmRecord → AlgorithmRecord} (hf : ∀ a, (f a).proposalId = a.proposalId) :
    currentProposal (withAlgorithm s algo f) = currentProposal s := by
  funext algo'
  unfold currentProposal
  by_cases hne : algo = algo'
  · subst hne
    rw [algorithms_withAlgorithm_self, hf]
  · rw [algorithms_withAlgorithm_of_ne hne]

/-- The first word of valid parameters names the algorithm. -/
theorem algorithm_of_validateSpec {spec : SignatureType × Nat} (h : validateSpec params = .ok spec) (deadline : Nat)
    (approved : Bool) :
    (ProposalRecord.mk ((List.range 8).map fun i => ShellHash.ofWord (paramWord params i)) deadline approved).algorithm =
      some spec.1 := by
  simp only [validateSpec, Checks.bind_ok_iff, Checks.ensure_ok_iff, Checks.pure_ok_iff, decide_eq_true_eq] at h
  obtain ⟨_, hlength, algo, halgo, _, _, _, _, _, _, _, _, _, _, _, _, _, _, _, _, _, _, _, _, height, _, rfl⟩ := h
  have hword : (paramWord params 0).length = 32 := by
    rw [paramWord, List.length_take, List.length_drop, hlength]
    rfl
  have hfirst : ((List.range 8).map fun i => ShellHash.ofWord (paramWord params i)).getD 0 .zero =
      ShellHash.ofWord (paramWord params 0) := rfl
  rw [ProposalRecord.algorithm, hfirst, ShellHash.ofWord, dif_pos hword, halgo]
  rfl

/-- The window of the rules at a block starts at the block and is not empty. -/
theorem votingWindow_of_rules {headNumber : Nat} (h : rules.algorithmActivationRules number headNumber = .ok r)
    {window : Nat × Nat} (hwindow : r.votingWindow = some window) : window.1 = number ∧ 0 < window.2 := by
  simp only [NativeRules.algorithmActivationRules, Checks.bind_ok_iff, Checks.pure_ok_iff] at h
  obtain ⟨votingWindow, hvoting, _, _, rfl⟩ := h
  subst hwindow
  unfold NativeRules.votingWindowAt at hvoting
  split at hvoting
  · cases hvoting
  · split at hvoting
    · cases hvoting
    · next blocks hblocks =>
      cases hvoting
      refine ⟨rfl, ?_⟩
      simp only [AlgorithmVotingWindow.durationBlocks] at hblocks
      split_ifs at hblocks with hpos
      cases hblocks
      exact hpos.2

section

variable (hwindow : ∀ window, r.votingWindow = some window → window.1 = number ∧ 0 < window.2)

include hwindow

theorem submitAlgorithmProposal_ok {config : ChainConfig}
    (h : submitAlgorithmProposal Γ config caller params r cls s = (.ok id, t)) :
    ∃ algo p, ProposalOpened s t number algo id p := by
  simp only [submitAlgorithmProposal, bind_ok_iff, require_ok_iff, lift_ok_iff] at h
  obtain ⟨validators, _, hvalidators, _, _, ⟨_, rfl⟩, spec, _, ⟨hspec, rfl⟩, _, _, ⟨_, rfl⟩, h⟩ := h
  obtain ⟨-, -, rfl⟩ := getValidators_ok hvalidators
  cases hw : r.votingWindow with
  | none => simp [hw] at h
  | some window =>
    obtain ⟨rfl, hduration⟩ := hwindow window hw
    simp only [hw] at h
    cases hdeadline : checkedAdd window.1 window.2 with
    | none => simp [hdeadline] at h
    | some deadline =>
      simp only [hdeadline, bind_ok_iff, read_ok_iff] at h
      obtain ⟨publicKey, _, ⟨_, rfl⟩, h⟩ := h
      cases publicKey with
      | none => simp at h
      | some key =>
        simp only [bind_ok_iff, registry, read_ok_iff, require_ok_iff, pure_ok_iff, decide_eq_true_eq] at h
        obtain ⟨_, _, ⟨rfl, rfl⟩, _, _, ⟨⟨hne, hfresh⟩, rfl⟩, _, _, ⟨_, rfl⟩, _, _, ⟨hprevious, rfl⟩, _, s₁, hrecord, _, s₂,
          hcurrent, rfl, rfl⟩ := h
        cases modifyRegistry_ok hrecord
        cases modifyAlgorithm_ok hcurrent
        refine ⟨spec.1, ⟨(List.range 8).map fun i => ShellHash.ofWord (paramWord params i), deadline,
            (s.world.registry.proposals (proposalIdOf Γ params key)).approved⟩,
          { id_ne := hne, fresh := hfresh, approved := rfl, deadline := ?_,
            algorithm := algorithm_of_validateSpec hspec _ _, replaced := ?_, proposals := rfl, votes := rfl,
            current := ?_, words := ?_ }⟩
        · unfold checkedAdd at hdeadline
          split_ifs at hdeadline
          cases hdeadline
          exact Nat.lt_add_of_pos_right hduration
        · intro hprev
          cases happroved : (s.world.registry.proposals (currentProposal s spec.1)).approved with
          | true => exact .inl rfl
          | false =>
            right
            have hdeadline : previousDeadline s.world.registry spec.1 =
                some (s.world.registry.proposals (currentProposal s spec.1)).deadline := by
              unfold currentProposal at hprev happroved ⊢
              simp only [previousDeadline, if_pos hprev, happroved, Bool.false_eq_true, if_false]
            rw [hdeadline] at hprevious
            exact (of_decide_eq_true hprevious).2
        · funext algo
          unfold currentProposal
          by_cases hne : spec.1 = algo
          · subst hne
            rw [update_self, algorithms_withAlgorithm_self]
            split
            · rfl
            · rfl
          · rw [update_of_ne (Ne.symm hne), algorithms_withAlgorithm_of_ne hne]
            rfl
        · funext algo
          unfold publishedWords
          by_cases hne : spec.1 = algo
          · subst hne
            rw [algorithms_withAlgorithm_self]
            split
            · rfl
            · rfl
          · rw [algorithms_withAlgorithm_of_ne hne]
            rfl

theorem voteAlgorithmProposal_ok {approved : Bool} (h : voteAlgorithmProposal caller algo id r cls s = (.ok approved, t)) :
    ProposalVoted s t number caller algo id cls approved := by
  simp only [voteAlgorithmProposal, bind_ok_iff, require_ok_iff, registry, read_ok_iff, Bool.not_eq_true'] at h
  obtain ⟨validators, _, hvalidators, _, _, ⟨_, rfl⟩, _, _, ⟨rfl, rfl⟩, _, _, ⟨_, rfl⟩, _, _, ⟨hunapproved, rfl⟩, h⟩ := h
  obtain ⟨rfl, -, rfl⟩ := getValidators_ok hvalidators
  cases hw : r.votingWindow with
  | none => simp [hw] at h
  | some window =>
    obtain ⟨rfl, -⟩ := hwindow window hw
    simp only [hw, bind_ok_iff, require_ok_iff, decide_eq_true_eq] at h
    obtain ⟨_, _, ⟨hopen, rfl⟩, _, _, ⟨_, rfl⟩, _, _, ⟨_, rfl⟩, _, s₁, hvote, h⟩ := h
    cases modifyRegistry_ok hvote
    split at h
    case isTrue hreach =>
      simp only [publishAlgorithmProposal, bind_ok_iff, write_ok_iff, pure_ok_iff] at h
      obtain ⟨_, s₃, ⟨_, s₂, rfl, hpublish⟩, _, s₄, hquorum, _, s₅, happrove, rfl, rfl⟩ := h
      have hs₃ := modifyAlgorithm_ok hpublish
      have hs₄ := modifyAlgorithm_ok hquorum
      have hs₅ := modifyRegistry_ok happrove
      have hwords : ∀ algo', algo ≠ algo' → s₅.world.registry.algorithms algo' = s.world.registry.algorithms algo' := by
        intro algo' hne
        rw [hs₅]
        change s₄.world.registry.algorithms algo' = _
        rw [hs₄, algorithms_withAlgorithm_of_ne hne, hs₃, algorithms_withAlgorithm_of_ne hne]
        rfl
      have hcurrent : currentProposal s₅ = currentProposal s := by
        rw [hs₅]
        change currentProposal s₄ = _
        rw [hs₄, currentProposal_withAlgorithm, hs₃, currentProposal_withAlgorithm]
        · rfl
        · exact fun _ => rfl
        · exact fun _ => rfl
      refine { unapproved := hunapproved, open_ := hopen, quorum := hreach.symm, votes := ?_, current := hcurrent,
               proposals := ?_, words := ?_ }
      · rw [hs₅, hs₄, hs₃]
        rfl
      · rw [hs₅, hs₄, hs₃]
        rfl
      · funext algo'
        by_cases hne : algo = algo'
        · subst hne
          rw [if_pos rfl, update_self]
        · rw [if_pos rfl, update_of_ne (Ne.symm hne), publishedWords, hwords algo' hne]
          rfl
    case isFalse hreach =>
      obtain ⟨rfl, rfl⟩ := pure_ok_iff.mp h
      exact { unapproved := hunapproved, open_ := hopen, quorum := (Bool.eq_false_iff.mpr hreach).symm, votes := rfl,
              current := rfl, proposals := rfl, words := rfl }

end

/-- The proposal that the parameters of `voteAlgorithmProposal` name. -/
def votedProposal (params : Bytes) : ShellHash :=
  .ofWord (params.drop 32)

end Operations

end Native

end ShellChain
