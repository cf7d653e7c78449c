import ShellChain.Lemmas.RegistryVotes

/-!
# Votes on algorithms along a run

Everything that changes the algorithms of the registry as one transition system: calls of the registry, calls that
governance signed, and the activations of a block. The ballots on an algorithm fall into those since its candidate
parameters were stored and those before. A ballot since then carries the parameters of the candidate; the storage of the
registry does not tell the two apart.
-/

namespace ShellChain

open Effect Native StepRelation Function TransitionSystem

variable {κ : Type} {Γ : Ctx} {rules : NativeRules}

/-! ## The system -/

/-- What changes the algorithms: a call, a call with the algorithm it was signed with, or the activations at a height. -/
inductive GovernanceInput
  | call (c : NativeCall)
  | signed (c : NativeCall) (signingAlgorithm : SignatureType)
  | activate (height : Nat)

def governanceSystem (Γ : Ctx) (rules : NativeRules) (κ : Type) : TransitionSystem (NativeState κ) GovernanceInput where
  step s
    | .call c => (executeValidatorRegistry Γ rules c.ctx c.caller c.input s).2
    | .signed c signingAlgorithm =>
      (executeAuthenticatedGovernanceCall Γ rules c.ctx c.caller c.input signingAlgorithm s).2
    | .activate height => (Native.processPendingActivations height s).2

/-- A vote on an algorithm. -/
inductive AlgorithmVoting
  | proposal (caller : Address) (algo : SignatureType) (height : Nat) (verifier : ShellHash)
      (rules : AlgorithmActivationRules)
  | deprecation (caller : Address) (algo : SignatureType) (op : AlgorithmGovernanceOp)

/-- The operation of a vote. -/
def AlgorithmVoting.run : AlgorithmVoting → NativeM κ Bool
  | proposal caller algo height verifier rules => Native.proposeAlgorithmActivationOp caller algo height verifier rules
  | deprecation caller algo op => Native.deprecateAlgorithmWithOp caller algo op

/-- The vote of a proposal, unless the rules of the block cannot be computed. -/
def proposeVoting (rules : NativeRules) (ctx : ExecContext) (caller : Address) (algo : SignatureType) (height : Nat)
    (verifier : ShellHash) (f : AlgorithmActivationRules → AlgorithmActivationRules) : Option AlgorithmVoting :=
  match rules.algorithmActivationRules ctx.env.number ctx.headNumber with
  | .error _ => none
  | .ok r => some (.proposal caller algo height verifier (f r))

/-- The vote of a call of the registry. -/
def RegistryCall.algorithmVoting (rules : NativeRules) (ctx : ExecContext) (caller : Address) :
    RegistryCall → Option AlgorithmVoting
  | proposeAlgorithmActivation algo height verifier => proposeVoting rules ctx caller algo height verifier id
  | deprecateAlgorithm algo => some (.deprecation caller algo .deprecate)
  | _ => none

/-- The vote of a call that governance signed. -/
def signedVoting (Γ : Ctx) (rules : NativeRules) (c : NativeCall) (signingAlgorithm : SignatureType) :
    Option AlgorithmVoting :=
  if ¬ (signingAlgorithm = .mlDsa65 ∨ signingAlgorithm = .sphincsSha2256f) ∨ c.input.length < 4 then none
  else if c.input.take 4 = ValidationView.selector Γ "proposeAlgorithmActivation(uint8,uint64,bytes32)" then
    if c.input.length = 100 then
      match decodeAlgoActivationParams (c.input.drop 4) with
      | .error _ => none
      | .ok p => proposeVoting rules c.ctx c.caller p.1 p.2.1 p.2.2 fun r => { r with
          requireQuorum := true, stageProposals := true, voteOp := Native.proposeOp signingAlgorithm }
    else none
  else if c.input.take 4 = ValidationView.selector Γ "deprecateAlgorithm(uint8)" then
    if c.input.length = 36 then
      match decodeSignatureType (c.input.drop 4) with
      | .error _ => none
      | .ok algo => some (.deprecation c.caller algo (Native.deprecateOp signingAlgorithm))
    else none
  else none

/-- The vote of an input. -/
def GovernanceInput.voting (Γ : Ctx) (rules : NativeRules) : GovernanceInput → Option AlgorithmVoting
  | .call c =>
    match RegistryCall.decode Γ c.input with
    | .error _ => none
    | .ok registryCall => registryCall.algorithmVoting rules c.ctx c.caller
  | .signed c signingAlgorithm => signedVoting Γ rules c signingAlgorithm
  | .activate _ => none

/-! ## Ballots -/

/-- A vote on an algorithm that was recorded: what it is filed under, the parameters it carries, whether it was for a staged
candidate, whether it stored the candidate, and whether it completed the quorum. -/
structure AlgorithmBallot where
  op : AlgorithmGovernanceOp
  algo : SignatureType
  voter : Address
  validators : List Address
  height : Nat
  verifier : ShellHash
  staged : Bool
  opens : Bool
  reached : Bool
  deriving DecidableEq

/-- The key that the vote is stored under. -/
def AlgorithmBallot.key (b : AlgorithmBallot) : AlgorithmVoteKey :=
  ⟨b.op, b.algo, b.voter, b.validators⟩

/-- The record of a vote that succeeded. -/
def AlgorithmVoting.record (s : NativeState κ) (reached : Bool) : AlgorithmVoting → AlgorithmBallot
  | proposal caller algo height verifier rules =>
    let a := s.world.registry.algorithms algo
    ⟨rules.voteOp, algo, caller, s.world.registry.validators, height, verifier,
      rules.stageProposals && a.status ≠ some .pendingActivation, a.proposalHeight = 0, reached⟩
  | deprecation caller algo op =>
    ⟨op, algo, caller, s.world.registry.validators, 0, .zero, false, false, reached⟩

/-- The ballot of a vote, if it succeeds. -/
def AlgorithmVoting.ballot (v : AlgorithmVoting) (s : NativeState κ) : Option AlgorithmBallot :=
  match (v.run s).1 with
  | .error _ => none
  | .ok reached => some (v.record s reached)

def castAlgorithmBallot (Γ : Ctx) (rules : NativeRules) (x : NativeState κ × GovernanceInput) : Option AlgorithmBallot :=
  (x.2.voting Γ rules).bind fun v => v.ballot x.1

/-- The ballots on one algorithm: the staged ones since the candidate was stored, and all others. -/
structure CandidateRounds where
  earlier : List AlgorithmBallot
  current : List AlgorithmBallot

/-- The rounds with one more ballot on any algorithm. -/
def CandidateRounds.next (algo : SignatureType) (r : CandidateRounds) (b : AlgorithmBallot) : CandidateRounds :=
  if b.algo ≠ algo then r
  else if ¬ b.staged then ⟨r.earlier ++ [b], r.current⟩
  else if b.opens then ⟨r.earlier ++ r.current, [b]⟩
  else ⟨r.earlier, r.current ++ [b]⟩

/-- The rounds of an algorithm along a run. -/
def candidateRounds (Γ : Ctx) (rules : NativeRules) (algo : SignatureType)
    (trace : List (NativeState κ × GovernanceInput)) : CandidateRounds :=
  (trace.filterMap (castAlgorithmBallot Γ rules)).foldl (CandidateRounds.next algo) ⟨[], []⟩

/-! ## What a vote does -/

/-- The parameters that a ballot carries. -/
def AlgorithmBallot.candidate (b : AlgorithmBallot) : Nat × ShellHash :=
  (b.height, b.verifier)

/-- The candidate of every algorithm. -/
def candidates (s : NativeState κ) (algo : SignatureType) : Nat × ShellHash :=
  (s.world.registry.algorithms algo).candidate

/-- The candidates are as they were or cleared, and no vote is recorded. -/
structure CandidateFrame (s t : NativeState κ) : Prop where
  votes : t.world.registry.algorithmVotes = s.world.registry.algorithmVotes
  candidates : ∀ algo, (candidates t algo).1 = 0 ∨ candidates t algo = candidates s algo
  weights : Native.BoundedWeights s → Native.BoundedWeights t

instance : StepRelation (CandidateFrame (κ := κ)) where
  refl _ := ⟨rfl, fun _ => .inr rfl, id⟩
  trans h h' := by
    refine ⟨h'.votes.trans h.votes, fun algo => ?_, fun hs => h'.weights (h.weights hs)⟩
    rcases h'.candidates algo with hzero | hsame
    · exact .inl hzero
    · rw [hsame]
      exact h.candidates algo

variable {s t : NativeState κ} {b : AlgorithmBallot} {r : CandidateRounds}

theorem CandidateFrame.of_algorithmFrame (h : Native.AlgorithmFrame s t) : CandidateFrame s t :=
  ⟨h.votes, fun algo => .inr (by rw [ShellChain.candidates, h.algorithms, ShellChain.candidates]), h.weights⟩

/-- What a recorded ballot leaves. -/
structure AlgorithmBallot.Recorded (b : AlgorithmBallot) (s t : NativeState κ) : Prop where
  votes : t.world.registry.algorithmVotes = Function.update s.world.registry.algorithmVotes b.key true
  weights : t.world.registry.weights = s.world.registry.weights
  others : ∀ algo, b.algo ≠ algo ∨ b.staged = false → candidates t algo = candidates s algo
  /-- A ballot on a stored candidate carries its parameters. -/
  carries : b.staged → b.opens = false → (candidates s b.algo).1 ≠ 0 ∧ candidates s b.algo = b.candidate
  /-- The candidate after a staged ballot is that of the ballot, or cleared. -/
  candidate : b.staged → (candidates t b.algo).1 = 0 ∨ candidates t b.algo = b.candidate
  validators : b.validators.length ≤ RegistryStorage.maxValidators
  quorum : b.reached →
    Native.algorithmVotesReach (s.world.registry.withAlgorithmVote b.key) b.op b.algo b.validators

section Votes

variable {s t : NativeState κ} {caller : Address} {validators : List Address} {algo : SignatureType}
  {op : AlgorithmGovernanceOp} {height : Nat} {verifier : ShellHash} {r : AlgorithmActivationRules} {reached : Bool}

theorem candidates_withAlgorithm (s : NativeState κ) (algo : SignatureType) (f : AlgorithmRecord → AlgorithmRecord) :
    candidates (withAlgorithm s algo f) = update (candidates s) algo (f (s.world.registry.algorithms algo)).candidate := by
  funext algo'
  by_cases h : algo = algo'
  · subst h
    rw [update_self, candidates, algorithms_withAlgorithm_self]
  · rw [update_of_ne (Ne.symm h), candidates, algorithms_withAlgorithm_of_ne h]
    rfl

variable {f : AlgorithmRecord → AlgorithmRecord}

theorem candidates_withAlgorithm_of_keeps (hworld : t.world = s.world)
    (hf : ∀ a, (f a).candidate = a.candidate := by intro; rfl) : candidates (withAlgorithm t algo f) = candidates s := by
  have hsame : candidates t = candidates s := by
    unfold candidates
    rw [hworld]
  rw [candidates_withAlgorithm, hf, ← hsame]
  exact update_eq_self ..

theorem candidates_withAlgorithmVote (s : NativeState κ) (key : AlgorithmVoteKey) :
    candidates (withAlgorithmVote s key) = candidates s := rfl

theorem modifyAlgorithm_ok (h : modifyAlgorithm algo f s = (.ok (), t)) :
    t = withAlgorithm s algo f := by
  simp only [modifyAlgorithm, modifyRegistry, write_ok_iff] at h
  exact h.symm

theorem getValidators_ok (h : getValidators s = (.ok validators, t)) :
    validators = s.world.registry.validators ∧ validators.length ≤ RegistryStorage.maxValidators ∧ s = t := by
  simp only [getValidators, registry, bind_ok_iff, read_ok_iff, require_ok_iff, pure_ok_iff, decide_eq_true_eq] at h
  obtain ⟨_, _, ⟨rfl, rfl⟩, _, _, ⟨hlength, rfl⟩, _, _, ⟨_, rfl⟩, rfl, rfl⟩ := h
  exact ⟨rfl, hlength, rfl⟩

/-- The quorum only reads the weights and the votes. -/
theorem algorithmVotesReach_congr {r r' : RegistryStorage} (hweights : r.weights = r'.weights)
    (hvotes : r.algorithmVotes = r'.algorithmVotes) (op : AlgorithmGovernanceOp) (algo : SignatureType)
    (validators : List Address) : algorithmVotesReach r op algo validators = algorithmVotesReach r' op algo validators := by
  have hweight : r.getValidatorWeight = r'.getValidatorWeight := by
    funext v
    simp only [RegistryStorage.getValidatorWeight, hweights]
  unfold algorithmVotesReach weightOf
  rw [hweight, hvotes]

theorem recordAlgorithmVote_ok (h : recordAlgorithmVote op algo caller validators s = (.ok reached, t)) :
    t = withAlgorithmVote s ⟨op, algo, caller, validators⟩ ∧
      reached = algorithmVotesReach t.world.registry op algo validators := by
  simp only [recordAlgorithmVote, modifyRegistry, registry, bind_ok_iff, read_ok_iff, write_ok_iff, pure_ok_iff] at h
  obtain ⟨_, _, rfl, _, _, ⟨rfl, rfl⟩, rfl, rfl⟩ := h
  exact ⟨rfl, rfl⟩

/-- The candidate after its parameters are stored or compared. -/
theorem storeCandidate_ok (h : (storeCandidate (s.world.registry.algorithms algo) algo height verifier :
      NativeM κ Unit) s = (.ok (), t)) : ((candidates s algo).1 ≠ 0 → candidates s algo = (height, verifier)) ∧
      ∃ f, t = withAlgorithm s algo f ∧ (f (s.world.registry.algorithms algo)).candidate = (height, verifier) := by
  unfold storeCandidate at h
  split at h
  case isTrue hzero => exact ⟨fun hne => absurd hzero hne, _, modifyAlgorithm_ok h, rfl⟩
  case isFalse hne =>
    simp only [bind_ok_iff, require_ok_iff, decide_eq_true_eq] at h
    obtain ⟨_, _, ⟨hheight, rfl⟩, hverifier, rfl⟩ := h
    have hsame : candidates s algo = (height, verifier) := Prod.ext hheight hverifier
    refine ⟨fun _ => hsame, id, ?_, hsame⟩
    simp [withAlgorithm, WorldState.mapRegistry]

/-- The votes on algorithms, the weights and the candidates. -/
def candidateTables (s : NativeState κ) :
    (AlgorithmVoteKey → Bool) × (Address → Nat) × (SignatureType → Nat × ShellHash) :=
  (s.world.registry.algorithmVotes, s.world.registry.weights, candidates s)

theorem candidateTables_withAlgorithm (hworld : t.world = s.world) (hf : ∀ a, (f a).candidate = a.candidate := by intro; rfl) :
    candidateTables (withAlgorithm t algo f) = candidateTables s :=
  Prod.ext (congrArg (fun w => w.registry.algorithmVotes) hworld) (Prod.ext (congrArg (fun w => w.registry.weights) hworld)
    (candidates_withAlgorithm_of_keeps hworld hf))

theorem candidateTables_modifyAlgorithm (hf : ∀ a, (f a).candidate = a.candidate) :
    (modifyAlgorithm algo f : NativeM κ Unit).Within (Same candidateTables) :=
  fun _ => candidateTables_withAlgorithm rfl hf

theorem candidateTables_publishAlgorithmProposal (algo : SignatureType) (height : Nat) (verifier : ShellHash) :
    (publishAlgorithmProposal algo height verifier : NativeM κ Unit).Within (Same candidateTables) :=
  .bind (within_write fun _ => rfl) fun _ => candidateTables_modifyAlgorithm fun _ => rfl

theorem candidateTables_openLegacyProposal (a : AlgorithmRecord) (requireQuorum : Bool) :
    (openLegacyProposal a algo height verifier requireQuorum : NativeM κ Unit).Within (Same candidateTables) := by
  unfold openLegacyProposal
  split
  · exact .require fun _ => (keepsState_require _ _).within
  · refine .bind (candidateTables_modifyAlgorithm fun a => ?_) fun _ => candidateTables_publishAlgorithmProposal _ _ _
    split <;> rfl

section

variable (hlength : validators.length ≤ RegistryStorage.maxValidators)

include hlength

/-- A vote on a staged candidate: the candidate is that of the ballot, until the vote that completes the quorum clears it. -/
theorem voteStagedProposal_ok (h : voteStagedProposal caller validators algo height verifier r s = (.ok reached, t)) :
    AlgorithmBallot.Recorded ⟨r.voteOp, algo, caller, validators, height, verifier, true,
      (s.world.registry.algorithms algo).proposalHeight = 0, reached⟩ s t := by
  simp only [voteStagedProposal, algorithm, bind_ok_iff, read_ok_iff, lift_ok_iff] at h
  obtain ⟨_, _, ⟨rfl, rfl⟩, _, _, ⟨_, rfl⟩, deadline, _, ⟨_, rfl⟩, _, s₁, hstore, _, s₂, hdeadline, reached', s₃, hvote, h⟩ := h
  obtain ⟨hsame, f, rfl, hf⟩ := storeCandidate_ok hstore
  cases modifyAlgorithm_ok hdeadline
  obtain ⟨hs₃, hreached⟩ := recordAlgorithmVote_ok hvote
  have hvotes : s₃.world.registry.algorithmVotes =
      (s.world.registry.withAlgorithmVote ⟨r.voteOp, algo, caller, validators⟩).algorithmVotes := by
    rw [hs₃]
    rfl
  have hweights : s₃.world.registry.weights =
      (s.world.registry.withAlgorithmVote ⟨r.voteOp, algo, caller, validators⟩).weights := by
    rw [hs₃]
    rfl
  have hvoted : candidates s₃ = update (candidates s) algo (height, verifier) := by
    rw [hs₃, candidates_withAlgorithmVote, candidates_withAlgorithm, candidates_withAlgorithm, update_idem,
      algorithms_withAlgorithm_self]
    exact congrArg (update (candidates s) algo) hf
  obtain ⟨c, hc, htables, hquorum⟩ : ∃ c : Nat × ShellHash, (c.1 = 0 ∨ c = (height, verifier)) ∧
      candidateTables t = (s₃.world.registry.algorithmVotes, s₃.world.registry.weights,
        update (candidates s) algo c) ∧ reached = reached' := by
    cases reached' with
    | false =>
      obtain ⟨rfl, rfl⟩ := pure_ok_iff.mp h
      exact ⟨_, .inr rfl, Prod.ext rfl (Prod.ext rfl hvoted), rfl⟩
    | true =>
      simp only [if_true, bind_ok_iff, pure_ok_iff] at h
      obtain ⟨_, s₄, hpublish, _, s₅, hclear, rfl, rfl⟩ := h
      have hpublished := (candidateTables_publishAlgorithmProposal algo height verifier).of_run hpublish
      cases modifyAlgorithm_ok hclear
      simp only [Same, candidateTables, Prod.mk.injEq] at hpublished
      obtain ⟨hvotes₄, hweights₄, hcandidates₄⟩ := hpublished
      refine ⟨(0, .zero), .inl rfl, Prod.ext hvotes₄ (Prod.ext hweights₄ ?_), rfl⟩
      simp only [candidateTables]
      rw [candidates_withAlgorithm, hcandidates₄, hvoted, update_idem]
      rfl
  have hcandidates : candidates t = update (candidates s) algo c := congrArg (fun p => p.2.2) htables
  refine ⟨(congrArg Prod.fst htables).trans hvotes, (congrArg (fun p => p.2.1) htables).trans hweights, ?_, ?_, ?_, hlength,
    fun htrue => ?_⟩
  · rintro algo' (hne | hstaged)
    · rw [hcandidates, update_of_ne (Ne.symm hne)]
    · cases hstaged
  · intro _ hopens
    have hstored : (candidates s algo).1 ≠ 0 := by simpa [candidates, AlgorithmRecord.candidate] using hopens
    exact ⟨hstored, hsame hstored⟩
  · intro _
    simp only [hcandidates, update_self]
    exact hc
  · exact (algorithmVotesReach_congr hweights hvotes _ _ _).symm.trans ((hquorum.trans hreached).symm.trans htrue)

/-- A vote outside staging leaves the candidates. -/
theorem recorded_of_candidateTables {s₁ s₂ : NativeState κ} (hbefore : candidateTables s₁ = candidateTables s)
    (hvote : recordAlgorithmVote op algo caller validators s₁ = (.ok reached, s₂))
    (hafter : candidateTables t = candidateTables s₂) (opens : Bool) :
    AlgorithmBallot.Recorded ⟨op, algo, caller, validators, height, verifier, false, opens, reached⟩ s t := by
  obtain ⟨rfl, hreached⟩ := recordAlgorithmVote_ok hvote
  simp only [candidateTables, Prod.mk.injEq] at hbefore hafter
  obtain ⟨hvotes₁, hweights₁, hcandidates₁⟩ := hbefore
  obtain ⟨hvotes₂, hweights₂, hcandidates₂⟩ := hafter
  have hvotes : (withAlgorithmVote s₁ ⟨op, algo, caller, validators⟩).world.registry.algorithmVotes =
      (s.world.registry.withAlgorithmVote ⟨op, algo, caller, validators⟩).algorithmVotes := by
    rw [RegistryStorage.withAlgorithmVote, ← hvotes₁]
    rfl
  have hweights : (withAlgorithmVote s₁ ⟨op, algo, caller, validators⟩).world.registry.weights =
      (s.world.registry.withAlgorithmVote ⟨op, algo, caller, validators⟩).weights := hweights₁
  refine ⟨hvotes₂.trans hvotes, hweights₂.trans hweights, fun algo' _ => congrFun (hcandidates₂.trans hcandidates₁) algo',
    (fun h => nomatch h), (fun h => nomatch h), hlength, fun htrue => ?_⟩
  exact (algorithmVotesReach_congr hweights hvotes _ _ _).symm.trans (hreached.symm.trans htrue)

theorem voteLegacyProposal_ok (h : voteLegacyProposal caller validators algo height verifier r s = (.ok reached, t))
    (opens : Bool) :
    AlgorithmBallot.Recorded ⟨r.voteOp, algo, caller, validators, height, verifier, false, opens, reached⟩ s t := by
  simp only [voteLegacyProposal, algorithm, bind_ok_iff, read_ok_iff] at h
  obtain ⟨_, _, ⟨rfl, rfl⟩, _, s₁, hopen, reached', s₂, hvote, h⟩ := h
  have hbefore := (candidateTables_openLegacyProposal _ _).of_run hopen
  cases reached' with
  | false =>
    obtain ⟨rfl, rfl⟩ := pure_ok_iff.mp h
    exact recorded_of_candidateTables hlength hbefore hvote rfl opens
  | true =>
    simp only [if_true, bind_ok_iff, pure_ok_iff] at h
    obtain ⟨_, _, hmodify, rfl, rfl⟩ := h
    cases modifyAlgorithm_ok hmodify
    refine recorded_of_candidateTables hlength hbefore hvote (candidateTables_withAlgorithm rfl fun a => ?_) opens
    split <;> rfl

end

end Votes

namespace AlgorithmVoting

/-- A vote that succeeds is recorded. -/
theorem recorded_of_run {v : AlgorithmVoting} {s t : NativeState κ} {reached : Bool} (h : v.run s = (.ok reached, t)) :
    (v.record s reached).Recorded s t := by
  cases v with
  | proposal caller algo height verifier rules =>
    simp only [run, proposeAlgorithmActivationOp, registry, bind_ok_iff, read_ok_iff, require_ok_iff] at h
    obtain ⟨validators, s₁, hvalidators, _, _, ⟨_, rfl⟩, _, s₂, hidentity, _, _, ⟨_, rfl⟩, _, _, ⟨rfl, rfl⟩, _, _,
      ⟨_, rfl⟩, h⟩ := h
    obtain ⟨rfl, hlength, rfl⟩ := getValidators_ok hvalidators
    obtain rfl := (keepsState_checkIdentity _ _).eq_of_ok hidentity
    simp only [record]
    split at h
    case isTrue hstaged =>
      rw [show (rules.stageProposals && decide ((s.world.registry.algorithms algo).status ≠ some .pendingActivation)) = true
        by simpa using hstaged]
      exact voteStagedProposal_ok hlength h
    case isFalse hlegacy =>
      rw [show (rules.stageProposals && decide ((s.world.registry.algorithms algo).status ≠ some .pendingActivation)) = false
        by simpa using hlegacy]
      exact voteLegacyProposal_ok hlength h _
  | deprecation caller algo op =>
    simp only [run, deprecateAlgorithmWithOp, bind_ok_iff, require_ok_iff] at h
    obtain ⟨validators, s₁, hvalidators, _, _, ⟨_, rfl⟩, reached', s₂, hvote, h⟩ := h
    obtain ⟨rfl, hlength, rfl⟩ := getValidators_ok hvalidators
    cases reached' with
    | false =>
      obtain ⟨rfl, rfl⟩ := pure_ok_iff.mp h
      exact recorded_of_candidateTables hlength rfl hvote rfl false
    | true =>
      simp only [if_true, bind_ok_iff, pure_ok_iff, write_ok_iff] at h
      obtain ⟨_, _, rfl, _, _, hmodify, rfl, rfl⟩ := h
      cases modifyAlgorithm_ok hmodify
      refine recorded_of_candidateTables hlength rfl hvote ?_ false
      exact candidateTables_withAlgorithm rfl

/-- A vote that fails writes nothing. -/
theorem failsClean_run (v : AlgorithmVoting) : (v.run : NativeM κ Bool).FailsClean := by
  cases v with
  | proposal caller algo height verifier rules =>
    exact (atomic_proposeAlgorithmActivationOp (Nat.zero_le _)).failsClean
  | deprecation caller algo op => exact (atomic_deprecateAlgorithmWithOp 0 op).failsClean

end AlgorithmVoting

/-! ## What is not a vote leaves the candidates or clears them -/

/-- The calls on proposals with an identity leave the candidates or clear them. -/
theorem AlgorithmWrite.candidateFrame {minimum : Nat} (h : AlgorithmWrite false minimum s t) : CandidateFrame s t := by
  cases h with
  | vote h => cases h
  | candidate h => cases h
  | proposals f g => exact ⟨rfl, fun _ => .inr rfl, id⟩
  | words algo f _ hf => exact ⟨rfl, forall_withAlgorithm (P := fun a a' => a'.proposalHeight = 0 ∨
      a'.candidate = a.candidate) hf fun _ => .inr rfl, id⟩
  | publish | retire => exact ⟨rfl, fun algo => .inr (congrFun (candidates_withAlgorithm_of_keeps rfl) algo), id⟩

theorem AlgorithmWrites.candidateFrame (h : AlgorithmWrites false 1 s t) : CandidateFrame s t :=
  of_steps (S := CandidateFrame) (fun _ _ => AlgorithmWrite.candidateFrame) h

theorem candidateFrame_processPendingActivations (height : Nat) :
    (processPendingActivations height : NativeM κ (List SignatureType)).Within CandidateFrame := by
  refine .read fun due => .bind (within_modifyRegistry fun s => ?_) fun _ => .bind (within_write fun s => ?_) fun _ =>
    .pure _
  · refine ⟨rfl, fun algo => .inr ?_, id⟩
    simp only [candidates, WorldState.mapRegistry]
    split <;> rfl
  · exact ⟨rfl, fun _ => .inr rfl, id⟩

/-! ## One step -/

/-- What a step leaves, by the ballot that it casts. -/
def AfterBallot (s t : NativeState κ) : Option AlgorithmBallot → Prop
  | none => CandidateFrame s t
  | some b => b.Recorded s t

theorem AlgorithmVoting.afterBallot_run (v : AlgorithmVoting) (s : NativeState κ) :
    AfterBallot s (v.run s).2 (v.ballot s) := by
  unfold ballot
  rcases hrun : v.run s with ⟨e | reached, t⟩
  · obtain rfl := v.failsClean_run.eq_of_error hrun
    exact refl _
  · exact recorded_of_run hrun

theorem afterBallot_proposeCall (ctx : ExecContext) (caller : Address) (algo : SignatureType) (height : Nat)
    (verifier : ShellHash) (f : AlgorithmActivationRules → AlgorithmActivationRules) (s : NativeState κ) :
    AfterBallot s (proposeAlgorithmActivationCall rules ctx caller algo height verifier f s).2
      ((proposeVoting rules ctx caller algo height verifier f).bind fun v => v.ballot s) := by
  unfold proposeAlgorithmActivationCall proposeVoting
  cases rules.algorithmActivationRules ctx.env.number ctx.headNumber with
  | error e => exact refl s
  | ok r =>
    rw [lift_ok_bind, bind_pure_snd]
    exact AlgorithmVoting.afterBallot_run _ s

theorem afterBallot_deprecateCall (caller : Address) (algo : SignatureType) (op : AlgorithmGovernanceOp)
    (s : NativeState κ) : AfterBallot s (deprecateAlgorithmCall caller algo op s).2
      ((AlgorithmVoting.deprecation caller algo op).ballot s) := by
  unfold deprecateAlgorithmCall
  rw [bind_pure_snd]
  exact AlgorithmVoting.afterBallot_run _ s

/-- A vote on validators leaves the votes on algorithms. -/
theorem Voting.algorithmFrame_run {v : Voting κ} (hv : v.Framed) (caller : Address) :
    (v.run caller).Within Native.AlgorithmFrame := by
  refine hv.checks.within.bind fun validators => Within.bind ?_ fun reached => ?_
  · refine Within.bind (within_modifyRegistry ?_) fun _ => .check keepsState_registry fun _ =>
      .pure _
    exact fun s => ⟨rfl, rfl, rfl, fun hs => hs⟩
  · split
    · exact ((hv.apply validators).mono fun _ _ h => h.toAlgorithmFrame).bind fun _ => .pure _
    · exact .pure _

theorem RegistryCall.algorithmFrame_execute {call : RegistryCall} (h : ¬ call.IsAlgorithmCall) (ctx : ExecContext)
    (caller : Address) :
    (call.execute Γ rules ctx caller : NativeM κ SystemContractOutcome).Within Native.AlgorithmFrame := by
  cases hvoting : (call.voting Γ ctx caller : Option (Voting κ)) with
  | none => exact (voteFrame_execute h hvoting).mono fun _ _ h => h.toAlgorithmFrame
  | some v =>
    intro s
    rw [execute_of_voting hvoting]
    exact Voting.algorithmFrame_run (voting_framed hvoting) caller s

theorem RegistryCall.afterBallot_execute (call : RegistryCall) (ctx : ExecContext) (caller : Address) (s : NativeState κ) :
    AfterBallot s (call.execute Γ rules ctx caller s).2
      ((call.algorithmVoting rules ctx caller).bind fun v => v.ballot s) := by
  cases call with
  | proposeAlgorithmActivation algo height verifier => exact afterBallot_proposeCall ctx caller algo height verifier id s
  | deprecateAlgorithm algo => exact afterBallot_deprecateCall caller algo .deprecate s
  | submitAlgorithmProposal params => exact ((atomic_submitAlgorithmProposalCall false).within s).candidateFrame
  | voteAlgorithmProposal params => exact ((atomic_voteAlgorithmProposalCall false).within s).candidateFrame
  | _ =>
    refine .of_algorithmFrame (algorithmFrame_execute ?_ ctx caller s)
    exact fun h => h

theorem afterBallot_signed (c : NativeCall) (signingAlgorithm : SignatureType) (s : NativeState κ) :
    AfterBallot s (executeAuthenticatedGovernanceCall Γ rules c.ctx c.caller c.input signingAlgorithm s).2
      ((signedVoting Γ rules c signingAlgorithm).bind fun v => v.ballot s) := by
  unfold executeAuthenticatedGovernanceCall signedVoting
  by_cases hsigner : signingAlgorithm = .mlDsa65 ∨ signingAlgorithm = .sphincsSha2256f
  case neg =>
    simp only [require_bind, hsigner, decide_false, not_false_eq_true, true_or, if_true, if_false, Bool.false_eq_true]
    exact refl s
  by_cases hshort : c.input.length < 4
  case pos =>
    simp only [require_bind, hsigner, hshort, authenticatedCall, decodeSelector, lift_error_bind, or_true, if_true]
    split
    · exact refl s
    · exact refl s
  simp only [hsigner, hshort, not_true, or_self, if_false, authenticatedCall, decodeSelector, lift_ok_bind,
    require_bind, decide_true, if_true, decide_eq_true_eq]
  by_cases hpropose : c.input.take 4 = ValidationView.selector Γ "proposeAlgorithmActivation(uint8,uint64,bytes32)"
  · rw [if_pos hpropose, if_pos hpropose]
    split
    · cases decodeAlgoActivationParams (c.input.drop 4) with
      | error e => exact refl s
      | ok p => exact afterBallot_proposeCall _ _ _ _ _ _ s
    · exact refl s
  rw [if_neg hpropose, if_neg hpropose]
  by_cases hdeprecate : c.input.take 4 = ValidationView.selector Γ "deprecateAlgorithm(uint8)"
  · rw [if_pos hdeprecate, if_pos hdeprecate]
    split
    · cases decodeSignatureType (c.input.drop 4) with
      | error e => exact refl s
      | ok algo => exact afterBallot_deprecateCall _ _ _ s
    · exact refl s
  rw [if_neg hdeprecate, if_neg hdeprecate]
  split
  · exact ((atomic_submitAlgorithmProposalCall false).within s).candidateFrame
  · split
    · exact ((atomic_voteAlgorithmProposalCall false).within s).candidateFrame
    · split
      · exact RegistryCall.afterBallot_execute (.getAlgorithmProposal (c.input.drop 4)) c.ctx c.caller s
      · exact (.lift fun _ => .fail _ : Within CandidateFrame _) s

/-- A step records the ballot it casts, and otherwise leaves or clears the candidates. -/
theorem afterBallot_step (Γ : Ctx) (rules : NativeRules) (s : NativeState κ) (i : GovernanceInput) :
    AfterBallot s ((governanceSystem Γ rules κ).step s i) (castAlgorithmBallot Γ rules (s, i)) := by
  cases i with
  | call c =>
    simp only [governanceSystem, executeValidatorRegistry, castAlgorithmBallot, GovernanceInput.voting]
    cases RegistryCall.decode Γ c.input with
    | error e => exact refl s
    | ok call =>
      rw [lift_ok_bind]
      exact call.afterBallot_execute c.ctx c.caller s
  | signed c signingAlgorithm => exact afterBallot_signed c signingAlgorithm s
  | activate height => exact candidateFrame_processPendingActivations height s

/-! ## Runs -/

/-- A state with the steps that led to it. -/
abbrev GovernanceRun (κ : Type) := NativeState κ × List (NativeState κ × GovernanceInput)

/-- Every stored vote is a ballot of the run, the ballots since a candidate was stored carry its parameters, and weights are
bounded. -/
structure VotesSubmitted (Γ : Ctx) (rules : NativeRules) (p : GovernanceRun κ) : Prop where
  cast : ∀ key, p.1.world.registry.algorithmVotes key = true →
    ∃ b, (b ∈ (candidateRounds Γ rules key.algo p.2).earlier ∨ b ∈ (candidateRounds Γ rules key.algo p.2).current) ∧
      b.key = key
  agree : ∀ algo, (candidates p.1 algo).1 ≠ 0 → ∀ b ∈ (candidateRounds Γ rules algo p.2).current,
    b.candidate = candidates p.1 algo
  weights : Native.BoundedWeights p.1

theorem CandidateRounds.mem_next {algo : SignatureType} {b' : AlgorithmBallot}
    (h : (b' ∈ r.earlier ∨ b' ∈ r.current) ∨ (b' = b ∧ b.algo = algo)) :
    b' ∈ (r.next algo b).earlier ∨ b' ∈ (r.next algo b).current := by
  unfold CandidateRounds.next
  split_ifs with hother hstaged hopens
  · rcases h with h | ⟨-, hsame⟩
    · exact h
    · exact absurd hsame hother
  all_goals
    simp only [List.mem_append, List.mem_singleton]
    tauto

theorem candidateRounds_concat (algo : SignatureType) (trace : List (NativeState κ × GovernanceInput))
    (x : NativeState κ × GovernanceInput) :
    candidateRounds Γ rules algo (trace ++ [x]) = match castAlgorithmBallot Γ rules x with
      | none => candidateRounds Γ rules algo trace
      | some b => (candidateRounds Γ rules algo trace).next algo b := by
  cases h : castAlgorithmBallot Γ rules x <;> simp [candidateRounds, h]

theorem AlgorithmBallot.Recorded.agree (hb : b.Recorded s t) {algo : SignatureType}
    (h : (candidates s algo).1 ≠ 0 → ∀ b' ∈ r.current, b'.candidate = candidates s algo)
    (hstored : (candidates t algo).1 ≠ 0) : ∀ b' ∈ (r.next algo b).current, b'.candidate = candidates t algo := by
  unfold CandidateRounds.next
  have hkept : b.algo ≠ algo ∨ b.staged = false → ∀ b' ∈ r.current, b'.candidate = candidates t algo := by
    intro hother
    rw [hb.others algo hother] at hstored ⊢
    exact h hstored
  split_ifs with hother hstaged hopens
  · exact hkept (.inl hother)
  · obtain rfl : b.algo = algo := by simpa using hother
    rw [(hb.candidate hstaged).resolve_left hstored]
    intro b' hmem
    rw [List.mem_singleton.mp hmem]
  · obtain rfl : b.algo = algo := by simpa using hother
    obtain ⟨hbefore, hcarried⟩ := hb.carries hstaged (by simpa using hopens)
    rw [(hb.candidate hstaged).resolve_left hstored]
    intro b' hmem
    rcases List.mem_append.mp hmem with hmem | hmem
    · exact (h hbefore b' hmem).trans hcarried
    · rw [List.mem_singleton.mp hmem]
  · exact hkept (.inr (by simpa using hstaged))

theorem VotesSubmitted.step {p : GovernanceRun κ} (h : VotesSubmitted Γ rules p) (i : GovernanceInput) :
    VotesSubmitted Γ rules ((governanceSystem Γ rules κ).withTrace.step p i) := by
  have hafter := afterBallot_step Γ rules p.1 i
  cases hcast : castAlgorithmBallot Γ rules (p.1, i) with
  | none =>
    rw [hcast] at hafter
    have hrounds : ∀ algo, candidateRounds Γ rules algo (p.2 ++ [(p.1, i)]) = candidateRounds Γ rules algo p.2 := by
      intro algo
      rw [candidateRounds_concat, hcast]
    refine ⟨fun key hkey => ?_, fun algo hstored => ?_, hafter.weights h.weights⟩
    · simp only [withTrace, hafter.votes] at hkey
      simpa only [withTrace, hrounds] using h.cast key hkey
    · simp only [withTrace, hrounds] at hstored ⊢
      have hsame := (hafter.candidates algo).resolve_left hstored
      rw [hsame] at hstored ⊢
      exact h.agree algo hstored
  | some b =>
    rw [hcast] at hafter
    have hrounds : ∀ algo, candidateRounds Γ rules algo (p.2 ++ [(p.1, i)]) =
        (candidateRounds Γ rules algo p.2).next algo b := by
      intro algo
      rw [candidateRounds_concat, hcast]
    refine ⟨fun key hkey => ?_, fun algo hstored => ?_, fun v => ?_⟩
    · simp only [withTrace, hafter.votes] at hkey
      simp only [withTrace, hrounds]
      by_cases hnew : key = b.key
      · subst hnew
        exact ⟨b, CandidateRounds.mem_next (.inr ⟨rfl, rfl⟩), rfl⟩
      · rw [update_of_ne hnew] at hkey
        obtain ⟨b', hmem, hb'⟩ := h.cast key hkey
        exact ⟨b', CandidateRounds.mem_next (.inl hmem), hb'⟩
    · simp only [withTrace, hrounds] at hstored ⊢
      exact hafter.agree (h.agree algo) hstored
    · simp only [withTrace, hafter.weights]
      exact h.weights v

theorem votesSubmitted_start {start : NativeState κ} (hvotes : ∀ key, start.world.registry.algorithmVotes key = false)
    (hweights : Native.BoundedWeights start) : VotesSubmitted Γ rules (start, []) := by
  refine ⟨fun key hkey => ?_, fun algo _ b hb => ?_, hweights⟩
  · rw [show start.world.registry.algorithmVotes key = false from hvotes key] at hkey
    cases hkey
  · cases hb

end ShellChain
