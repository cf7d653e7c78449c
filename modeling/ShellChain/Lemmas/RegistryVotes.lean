import Mathlib.Algebra.Order.BigOperators.Group.List
import ShellChain.Lemmas.AlgorithmWrites

/-!
# Ballots along a run

The calls of the validator registry as a transition system. A ballot is a vote that a call records, and the ballots on an
operation fall into rounds that end when the operation is applied. Every vote in the storage of the registry is a ballot of
the run; nothing in the storage says which round it belongs to.
-/

namespace ShellChain

open Effect Native RegistryCall

variable {κ : Type} {Γ : Ctx} {rules : NativeRules}

/-! ## The system -/

/-- The calls of the validator registry. What a failed call wrote stays. -/
def registrySystem (Γ : Ctx) (rules : NativeRules) (κ : Type) : TransitionSystem (NativeState κ) NativeCall where
  step s c := (executeValidatorRegistry Γ rules c.ctx c.caller c.input s).2

/-- An operation that validators vote on: its checks before the vote and what it does with the majority. -/
structure Voting (κ : Type) where
  op : ValidatorRegistryOp
  target : Address
  checks : NativeM κ (List Address)
  apply : List Address → NativeM κ Unit

namespace Voting

/-- The vote of a caller. -/
def run (v : Voting κ) (caller : Address) : NativeM κ Bool :=
  Native.voteAndApply v.op v.target caller v.checks v.apply

/-- The checks only read, and the operation leaves the votes. -/
structure Framed (v : Voting κ) : Prop where
  checks : v.checks.KeepsState
  apply : ∀ validators, (v.apply validators).Within Native.VoteFrame

end Voting

/-- The operation that a call votes on. -/
def RegistryCall.voting (Γ : Ctx) (ctx : ExecContext) (caller : Address) : RegistryCall → Option (Voting κ)
  | addValidator target => some ⟨.add, target, Native.addValidatorChecks caller target, Native.applyAddValidator target⟩
  | removeValidator target => some ⟨.remove, target, Native.removeValidatorChecks caller target, fun validators =>
      Native.setValidators (validators.erase target)⟩
  | setValidatorWeight target weight => some ⟨.setWeight weight, target,
      Native.setValidatorWeightChecks caller target weight, fun _ => Native.setValidatorWeight target weight⟩
  | setValidatorStake target stake => some ⟨.setStake stake, target, Native.setValidatorStakeChecks caller stake,
      fun _ => Native.applySetValidatorStake target stake⟩
  | registerProver params =>
    match decodeRotateKeyParams params with
    | .error _ => none
    | .ok key =>
      let address := Address.fromPublicKey Γ key.1 key.2
      some ⟨.registerProver, address,
        (require (activeAt ctx.config.proverRegistryHeight ctx.env.number)
          (.unknownSelector (ValidationView.selector Γ "registerProver(bytes,uint8)")) >>= fun _ =>
            Native.registerProverChecks Γ caller key.1 key.2),
        fun _ => Native.setRegisteredProver address ⟨key.1, key.2, ctx.env.number, 0, 0⟩⟩
  | _ => none

/-! ## Ballots -/

/-- A vote that a call recorded, with the validators it is filed under and whether it completed the majority and the
operation was applied. -/
structure Ballot where
  op : ValidatorRegistryOp
  target : Address
  voter : Address
  validators : List Address
  applied : Bool
  deriving DecidableEq

/-- The key that the vote is stored under. -/
def Ballot.key (b : Ballot) : ValidatorVoteKey :=
  ⟨b.op, b.target, b.voter, b.validators⟩

/-- The ballot of a caller, if the checks let the vote be recorded. -/
def Voting.ballot (v : Voting κ) (caller : Address) (s : NativeState κ) : Option Ballot :=
  match (v.checks s).1 with
  | .error _ => none
  | .ok validators => some ⟨v.op, v.target, caller, validators, match (v.run caller s).1 with
    | .ok applied => applied
    | .error _ => false⟩

def castBallot (Γ : Ctx) (x : NativeStep κ) : Option Ballot :=
  match RegistryCall.decode Γ x.2.input with
  | .error _ => none
  | .ok call => (call.voting Γ x.2.ctx x.2.caller).bind fun v => v.ballot x.2.caller x.1

/-- The ballots on one operation: those of the rounds that ended with its application, and those since. -/
structure BallotRounds where
  closed : List Ballot
  opened : List Ballot

/-- The rounds with one more ballot on any operation. -/
def BallotRounds.next (op : ValidatorRegistryOp) (target : Address) (r : BallotRounds) (b : Ballot) : BallotRounds :=
  if b.op = op ∧ b.target = target then
    if b.applied then ⟨r.closed ++ r.opened ++ [b], []⟩ else ⟨r.closed, r.opened ++ [b]⟩
  else r

/-- The rounds of an operation along a run. -/
def ballotRounds (Γ : Ctx) (op : ValidatorRegistryOp) (target : Address) (trace : List (NativeStep κ)) : BallotRounds :=
  (trace.filterMap (castBallot Γ)).foldl (BallotRounds.next op target) ⟨[], []⟩

/-! ## Weights -/

theorem weightOf_mono {r : RegistryStorage} {validators : List Address} {f g : Address → Bool}
    (h : ∀ v ∈ validators, f v = true → g v = true) : weightOf r validators f ≤ weightOf r validators g := by
  unfold weightOf
  refine List.Sublist.sum_le_sum (List.Sublist.map _ ?_) (by simp)
  have hfilter : validators.filter f = (validators.filter g).filter f := by
    rw [List.filter_filter]
    refine List.filter_congr fun v hv => ?_
    cases hf : f v with
    | false => rfl
    | true => rw [h v hv hf]; rfl
  rw [hfilter]
  exact List.filter_sublist

/-! ## What a call does to the votes -/

namespace Voting

theorem framed_addValidator (caller target : Address) :
    (⟨.add, target, addValidatorChecks caller target, applyAddValidator target⟩ : Voting κ).Framed :=
  ⟨keepsState_getValidators.bind fun _ => .require fun _ => .require fun _ => (keepsState_read _).bind fun _ =>
    .require fun _ => (keepsState_checkNewStake _).bind fun _ => keepsState_pure _,
    fun _ => voteFrame_applyAddValidator _ _⟩

theorem framed_removeValidator (caller target : Address) :
    (⟨.remove, target, removeValidatorChecks caller target, fun validators =>
      setValidators (validators.erase target)⟩ : Voting κ).Framed :=
  ⟨keepsState_getValidators.bind fun _ => .require fun _ => .require fun _ => .require fun _ => keepsState_pure _,
    fun _ => voteFrame_setValidators _⟩

theorem framed_setValidatorWeight (caller target : Address) (weight : Nat) :
    (⟨.setWeight weight, target, setValidatorWeightChecks caller target weight, fun _ =>
      setValidatorWeight target weight⟩ : Voting κ).Framed :=
  ⟨keepsState_registry.bind fun _ => .require fun _ => keepsState_getValidators.bind fun _ => .require fun _ =>
    .require fun _ => .require fun _ => .require fun _ => keepsState_pure _, fun _ => voteFrame_setValidatorWeight _ _⟩

theorem framed_setValidatorStake (caller target : Address) (stake : Nat) :
    (⟨.setStake stake, target, setValidatorStakeChecks caller stake, fun _ =>
      applySetValidatorStake target stake⟩ : Voting κ).Framed :=
  ⟨keepsState_ensureStakingEnabled.bind fun _ => keepsState_getValidators.bind fun _ => .require fun _ =>
    (keepsState_derivedWeight _).bind fun _ => .require fun _ => keepsState_pure _,
    fun _ => voteFrame_applySetValidatorStake _ _⟩

end Voting

variable {call : RegistryCall} {caller : Address} {ctx : ExecContext} {v : Voting κ} {b : Ballot}

theorem RegistryCall.voting_framed (h : call.voting Γ ctx caller = some v) : v.Framed := by
  cases call with
  | addValidator target =>
    cases h
    exact Voting.framed_addValidator caller target
  | removeValidator target =>
    cases h
    exact Voting.framed_removeValidator caller target
  | setValidatorWeight target weight =>
    cases h
    exact Voting.framed_setValidatorWeight caller target weight
  | setValidatorStake target stake =>
    cases h
    exact Voting.framed_setValidatorStake caller target stake
  | registerProver params =>
    simp only [voting] at h
    split at h
    · cases h
    · cases h
      exact ⟨.require fun _ => keepsState_registerProverChecks _ _ _, fun _ =>
        voteFrame_setRegisteredProver _ _⟩
  | _ => cases h

/-- The storage of the registry with one more vote. -/
def RegistryStorage.withVote (r : RegistryStorage) (key : ValidatorVoteKey) : RegistryStorage :=
  { r with votes := Function.update r.votes key true }

section Run

variable {v : Voting κ} {caller : Address} {s : NativeState κ}

theorem Voting.run_of_refused {e : SystemContractError} (hv : v.Framed) (h : (v.checks s).1 = .error e) :
    v.run caller s = (.error e, s) :=
  bind_of_error (Prod.ext h (hv.checks s))

/-- A vote that passes its checks is recorded, and the operation follows if the votes have the majority. -/
theorem Voting.run_of_checked {validators : List Address} (hv : v.Framed) (h : (v.checks s).1 = .ok validators)
    (caller : Address) : ∃ r s', r = s.world.registry.withVote ⟨v.op, v.target, caller, validators⟩ ∧
      s' = { s with world := { s.world with registry := r } } ∧
      v.run caller s = (if votesReach r v.op v.target validators then
        v.apply validators >>= fun _ => pure true else pure false : NativeM κ Bool) s' := by
  refine ⟨_, _, rfl, rfl, ?_⟩
  have hchecks : v.checks s = (.ok validators, s) := Prod.ext h (hv.checks s)
  unfold Voting.run voteAndApply
  rw [bind_of_ok hchecks]
  exact bind_of_ok rfl

/-- The votes after the call are those before it with its ballot. -/
theorem Voting.validatorVotes_run (hv : v.Framed) : validatorVotes (v.run caller s).2 = match v.ballot caller s with
      | none => validatorVotes s
      | some b => Function.update (validatorVotes s) b.key true := by
  unfold Voting.ballot
  cases hchecks : (v.checks s).1 with
  | error e => rw [Voting.run_of_refused hv hchecks]
  | ok validators =>
    obtain ⟨r, s', hr, hs', hrun⟩ := Voting.run_of_checked hv hchecks caller
    have hvotes : validatorVotes s' =
        Function.update (validatorVotes s) ⟨v.op, v.target, caller, validators⟩ true := by
      rw [hs', hr]
      rfl
    rw [hrun]
    refine Eq.trans ?_ hvotes
    split
    · exact (((hv.apply validators).bind fun _ => (keepsState_pure true).within) s').validatorVotes
    · rfl

/-- An operation is only applied with the majority of the stored votes. -/
theorem Voting.votesReach_of_applied {b : Ballot} (hv : v.Framed) (hb : v.ballot caller s = some b) (happlied : b.applied) :
    b.voter = caller ∧ votesReach (s.world.registry.withVote b.key) b.op b.target b.validators := by
  unfold Voting.ballot at hb
  cases hchecks : (v.checks s).1 with
  | error e =>
    rw [hchecks] at hb
    cases hb
  | ok validators =>
    rw [hchecks] at hb
    obtain ⟨r, s', hr, -, hrun⟩ := Voting.run_of_checked hv hchecks caller
    rw [hrun] at hb
    cases hb
    refine ⟨rfl, ?_⟩
    by_cases hreach : votesReach r v.op v.target validators
    · rw [hr] at hreach
      exact hreach
    · simp only [hreach] at happlied
      cases happlied

end Run

/-- A call that votes runs the vote. -/
theorem RegistryCall.execute_of_voting (h : call.voting Γ ctx caller = some v) (s : NativeState κ) :
    (call.execute Γ rules ctx caller s).2 = (v.run caller s).2 := by
  cases call with
  | registerProver params =>
    simp only [voting] at h
    split at h
    · cases h
    case h_2 key hkey =>
      cases h
      simp only [execute, registerProverCall, hkey, lift_ok_bind, Voting.run, voteAndApply, Effect.bind_assoc]
      rw [← Effect.bind_assoc, bind_pure_snd]
      rfl
  | addValidator | removeValidator | setValidatorWeight | setValidatorStake =>
    cases h
    exact bind_pure_snd _ _ s
  | _ => cases h

namespace RegistryCall

variable {ctx : ExecContext} {caller : Address} {call : RegistryCall}

/-- A call about algorithms leaves everything else. -/
theorem outsideAlgorithms_execute (h : call.IsAlgorithmCall) :
    (call.execute Γ rules ctx caller : NativeM κ SystemContractOutcome).Within (Same outsideAlgorithms) :=
  (atomic_execute h ctx caller).within.mono fun _ _ => StepRelation.of_steps fun _ _ h => by cases h <;> rfl

/-- A call that is neither about algorithms nor a vote leaves both tables of votes. -/
theorem voteFrame_execute (h : ¬ call.IsAlgorithmCall) (hvoting : (call.voting Γ ctx caller : Option (Voting κ)) = none) :
    (call.execute Γ rules ctx caller : NativeM κ SystemContractOutcome).Within Native.VoteFrame := by
  cases call with
  | addValidator | removeValidator | setValidatorWeight | setValidatorStake => cases hvoting
  | registerProver params =>
    simp only [voting] at hvoting
    split at hvoting
    case h_1 e he =>
      simp only [execute, registerProverCall, he, lift_error_bind]
      exact .require fun _ => .fail _
    · cases hvoting
  | bondValidatorStake target amount => exact (voteFrame_bondValidatorStake _ _ _).map _
  | unbondValidatorStake target amount => exact (voteFrame_unbondValidatorStake _ _ _).map _
  | getAlgorithmProposal params => exact keepsState_getAlgorithmProposalCall.within
  | getValidators | isValidator => exact keepsState_getValidators.within.map _
  | _ => exact absurd trivial h

/-- A call that does not vote leaves the votes of validators. -/
theorem validatorVotes_of_not_voting (h : (call.voting Γ ctx caller : Option (Voting κ)) = none) :
    (call.execute Γ rules ctx caller : NativeM κ SystemContractOutcome).Within (Same validatorVotes) := by
  by_cases halgorithm : call.IsAlgorithmCall
  · refine (outsideAlgorithms_execute halgorithm).mono fun s t h => ?_
    have hvotes : validatorVotes (outsideAlgorithms t) = validatorVotes (outsideAlgorithms s) :=
      congrArg _ h
    exact hvotes
  · exact (voteFrame_execute halgorithm h).mono fun _ _ h => h.validatorVotes

end RegistryCall

/-! ## One step and runs -/

/-- The votes after a step are those before it with the ballot of the step. -/
theorem validatorVotes_step (s : NativeState κ) (c : NativeCall) :
    validatorVotes ((registrySystem Γ rules κ).step s c) = match castBallot Γ (s, c) with
      | none => validatorVotes s
      | some b => Function.update (validatorVotes s) b.key true := by
  simp only [registrySystem, executeValidatorRegistry, castBallot]
  cases hdecode : decode Γ c.input with
  | error e =>
    rw [lift_error_bind]
    rfl
  | ok call =>
    rw [lift_ok_bind]
    cases hvoting : (call.voting Γ c.ctx c.caller : Option (Voting κ)) with
    | none =>
      simp only [hvoting, Option.bind_none]
      exact validatorVotes_of_not_voting hvoting s
    | some v =>
      simp only [hvoting, Option.bind_some]
      rw [execute_of_voting hvoting]
      exact Voting.validatorVotes_run (voting_framed hvoting)

/-- Every stored vote is a ballot of the run. -/
def VotesCast (Γ : Ctx) (p : NativeState κ × List (NativeStep κ)) : Prop :=
  ∀ key, Native.validatorVotes p.1 key = true →
    ∃ b, (b ∈ (ballotRounds Γ key.op key.target p.2).closed ∨ b ∈ (ballotRounds Γ key.op key.target p.2).opened) ∧
      b.voter = key.voter ∧ b.validators = key.validators

theorem BallotRounds.mem_next {op : ValidatorRegistryOp} {target : Address} {r : BallotRounds} {b' : Ballot}
    (h : b' ∈ r.closed ∨ b' ∈ r.opened ∨ (b' = b ∧ b.op = op ∧ b.target = target)) :
    b' ∈ (r.next op target b).closed ∨ b' ∈ (r.next op target b).opened := by
  unfold BallotRounds.next
  split_ifs with hsame happlied
  · simp only [List.mem_append, List.mem_singleton, List.not_mem_nil, or_false]
    tauto
  · simp only [List.mem_append, List.mem_singleton]
    tauto
  · rcases h with h | h | ⟨-, h⟩
    · exact .inl h
    · exact .inr h
    · exact absurd h hsame

theorem VotesCast.step {p : NativeState κ × List (NativeStep κ)} (h : VotesCast Γ p) (c : NativeCall) :
    VotesCast Γ ((registrySystem Γ rules κ).withTrace.step p c) := by
  intro key hkey
  simp only [TransitionSystem.withTrace, validatorVotes_step] at hkey
  cases hcast : castBallot Γ (p.1, c) with
  | none =>
    rw [hcast] at hkey
    simpa [TransitionSystem.withTrace, ballotRounds, hcast] using h key hkey
  | some b =>
    rw [hcast] at hkey
    have hrounds : ∀ op target, ballotRounds Γ op target (p.2 ++ [(p.1, c)]) =
        (ballotRounds Γ op target p.2).next op target b := by simp [ballotRounds, hcast]
    simp only [TransitionSystem.withTrace, hrounds]
    by_cases hnew : key = b.key
    · subst hnew
      exact ⟨b, BallotRounds.mem_next (.inr (.inr ⟨rfl, rfl, rfl⟩)), rfl, rfl⟩
    · obtain ⟨b', hmem, hvoter, hvalidators⟩ := h key (by simpa [Function.update_of_ne hnew] using hkey)
      exact ⟨b', BallotRounds.mem_next (hmem.imp_right .inl), hvoter, hvalidators⟩

end ShellChain
