import Mathlib.Algebra.Group.Action.Defs
import ShellChain.Lemmas.AlgorithmVotes
import ShellChain.SampleContracts

/-!
# Which votes an algorithm is published with

A vote on an activation is filed under the operation, the algorithm, the voter and the validators of the time, not under the
height and the verifier it was cast for, and it is never removed. The candidate is cleared when it is published. So the votes
for an earlier candidate can publish the next one.
-/

namespace ShellChain

open Native

variable {κ : Type} {Γ : Ctx} {rules : NativeRules}

/-! ## Weights that do not saturate -/

theorem weightOf_le {s : NativeState κ} (h : Native.BoundedWeights s) (validators : List Address)
    (condition : Address → Bool) :
    weightOf s.world.registry validators condition ≤ validators.length * maxValidatorWeight := by
  have hsum := List.sum_le_card_nsmul ((validators.filter condition).map s.world.registry.getValidatorWeight)
    maxValidatorWeight (List.forall_mem_map.mpr fun v _ => max_le (h v) (by decide))
  refine hsum.trans ?_
  rw [List.length_map, smul_eq_mul]
  exact Nat.mul_le_mul_right _ (List.length_filter_le _ _)

/-! ## The quorum of a candidate -/

/-- A validator is the caller, or cast a vote for the height and the verifier of a ballot since its candidate was stored. -/
def submittedSince (Γ : Ctx) (rules : NativeRules) (trace : List (NativeState κ × GovernanceInput)) (b : AlgorithmBallot)
    (v : Address) : Bool :=
  v = b.voter || (!b.opens && (candidateRounds Γ rules b.algo trace).current.any fun b' =>
    b'.voter = v ∧ b'.height = b.height ∧ b'.verifier = b.verifier)

/-- A candidate that a step publishes has two thirds of the current weight in votes for its parameters since it was
stored. -/
def PublishedByQuorum (Γ : Ctx) (rules : NativeRules) (p : GovernanceRun κ) (i : GovernanceInput) : Prop :=
  ∀ b, castAlgorithmBallot Γ rules (p.1, i) = some b → b.staged → b.reached →
    Native.weightOf p.1.world.registry b.validators (fun _ => true) * 2 ≤
      Native.weightOf p.1.world.registry b.validators (submittedSince Γ rules p.2 b) * 3

/-- The ballots on an algorithm from before the candidate of a ballot was stored. -/
def ballotsBefore (Γ : Ctx) (rules : NativeRules) (trace : List (NativeState κ × GovernanceInput)) (b : AlgorithmBallot) :
    List AlgorithmBallot :=
  let rounds := candidateRounds Γ rules b.algo trace
  if b.opens then rounds.earlier ++ rounds.current else rounds.earlier

/-- No other validator's vote from before the candidate was stored is filed under the same operation and validators. -/
def FreshCandidate (Γ : Ctx) (rules : NativeRules) (p : GovernanceRun κ) (i : GovernanceInput) : Prop :=
  ∀ b, castAlgorithmBallot Γ rules (p.1, i) = some b → b.staged → ∀ b' ∈ ballotsBefore Γ rules p.2 b,
    b'.op = b.op → b'.validators = b.validators → b'.voter = b.voter

/-- The stored votes that count are those since the candidate was stored, and they carry its parameters. -/
theorem VotesSubmitted.publishedByQuorum {p : GovernanceRun κ} {i : GovernanceInput} (h : VotesSubmitted Γ rules p)
    (hfresh : FreshCandidate Γ rules p i) : PublishedByQuorum Γ rules p i := by
  intro b hb hstaged hreached
  have hrecorded := afterBallot_step Γ rules p.1 i
  rw [hb] at hrecorded
  have hbound : ∀ condition, weightOf p.1.world.registry b.validators condition ≤ u64Max := by
    intro condition
    refine (weightOf_le h.weights b.validators condition).trans ?_
    exact (Nat.mul_le_mul_right _ hrecorded.validators).trans (by decide)
  -- no weight saturates, so the sums of the quorum are those of the votes
  have hquorum := hrecorded.quorum hreached
  simp only [algorithmVotesReach, decide_eq_true_eq] at hquorum
  change min (weightOf p.1.world.registry b.validators _) _ * 2 ≤
    min (weightOf p.1.world.registry b.validators _) _ * 3 at hquorum
  rw [min_eq_left (hbound _), min_eq_left (hbound _)] at hquorum
  refine hquorum.trans (Nat.mul_le_mul_right 3 (weightOf_mono fun v hv hvote => ?_))
  by_cases hvoter : v = b.voter
  · simp [submittedSince, hvoter]
  have hstored : p.1.world.registry.algorithmVotes ⟨b.op, b.algo, v, b.validators⟩ = true := by
    have hne : (⟨b.op, b.algo, v, b.validators⟩ : AlgorithmVoteKey) ≠ b.key := by
      intro heq
      exact hvoter (congrArg AlgorithmVoteKey.voter heq)
    simpa only [RegistryStorage.withAlgorithmVote, Function.update_of_ne hne] using hvote
  obtain ⟨b', hmem, hkey⟩ := h.cast _ hstored
  have hvoter' : b'.voter = v := congrArg AlgorithmVoteKey.voter hkey
  have hnew : b' ∉ ballotsBefore Γ rules p.2 b := by
    intro hold
    refine hvoter (hvoter'.symm.trans (hfresh b hb hstaged b' hold ?_ ?_))
    · exact congrArg AlgorithmVoteKey.op hkey
    · exact congrArg AlgorithmVoteKey.validators hkey
  unfold ballotsBefore at hnew
  cases hopens : b.opens with
  | true =>
    rw [hopens, if_pos rfl, List.mem_append] at hnew
    exact absurd hmem hnew
  | false =>
    rw [hopens] at hnew
    have hcurrent := hmem.resolve_left hnew
    obtain ⟨hcandidate, hcarried⟩ := hrecorded.carries hstaged hopens
    have hagree := (h.agree b.algo hcandidate b' hcurrent).trans hcarried
    simp only [submittedSince, hopens, Bool.not_false, Bool.true_and, Bool.or_eq_true, List.any_eq_true, decide_eq_true_eq]
    exact .inr ⟨b', hcurrent, hvoter', congrArg Prod.fst hagree, congrArg Prod.snd hagree⟩

/-- In every run of governance from a storage without votes on algorithms and with weights in range, in which no vote meets
one of another validator from before the candidate was stored under the same operation and validators, every staged
candidate is published with two thirds of the weight in votes for its own height and verifier since it was stored. -/
theorem published_by_quorum {start : NativeState κ}
    (hvotes : ∀ key, start.world.registry.algorithmVotes key = false) (hweights : Native.BoundedWeights start)
    (inputs : List GovernanceInput)
    (hfresh : (governanceSystem Γ rules κ).withTrace.Admits (FreshCandidate Γ rules) (start, []) inputs) :
    (governanceSystem Γ rules κ).withTrace.Admits (PublishedByQuorum Γ rules) (start, []) inputs :=
  TransitionSystem.admits_of_invariant (I := VotesSubmitted Γ rules) (fun _ i h => h.step i)
    (fun _ _ h hi => h.publishedByQuorum hi) (votesSubmitted_start hvotes hweights) hfresh

/-! ## Three validators -/

namespace ThreeProposers

def stagingRules : NativeRules :=
  { nativeRules with algorithmProposalStagingHeight := some 0 }

/-- Three validators of weight one. -/
def start : NativeState Unit :=
  nativeGenesis [nativeAddress 1, nativeAddress 2, nativeAddress 3]

theorem length_verifier (n : UInt8) : (List.replicate 31 (0 : UInt8) ++ [n]).length = 32 :=
  rfl

/-- The verifier with a number in its last byte. -/
def verifier (n : UInt8) : ShellHash :=
  ⟨List.replicate 31 0 ++ [n], length_verifier n⟩

/-- A validator proposes the activation of SPHINCS+ at a height with a verifier. -/
def propose (caller : UInt8) (height : Nat) (n : UInt8) : GovernanceInput :=
  .call ⟨nativeContext 0, nativeAddress caller, calldata "proposeAlgorithmActivation(uint8,uint64,bytes32)"
    [word SignatureType.sphincsSha2256f.asU8.toNat, word height, (verifier n).bytes]⟩

/-- Two of three validators propose the same activation. -/
def proposals : List GovernanceInput :=
  [propose 1 500000 1, propose 2 500000 1]

def ballot (caller : UInt8) (height : Nat) (n : UInt8) (opens reached : Bool) : AlgorithmBallot :=
  ⟨.proposeActivation, .sphincsSha2256f, nativeAddress caller, [nativeAddress 1, nativeAddress 2, nativeAddress 3], height,
    verifier n, true, opens, reached⟩

def system : TransitionSystem (GovernanceRun Unit) GovernanceInput :=
  (governanceSystem nativeCtx stagingRules Unit).withTrace

theorem freshCandidate_of_before {p : GovernanceRun Unit} {i : GovernanceInput} {b : AlgorithmBallot}
    (hb : castAlgorithmBallot nativeCtx stagingRules (p.1, i) = some b)
    (hbefore : ballotsBefore nativeCtx stagingRules p.2 b = []) : FreshCandidate nativeCtx stagingRules p i := by
  intro b' hb' _ b'' hmem
  cases hb.symm.trans hb'
  rw [hbefore] at hmem
  cases hmem

/-- The activation is published with the votes of two validators. -/
theorem published_by_two :
    system.Admits (PublishedByQuorum nativeCtx stagingRules) (start, []) proposals ∧
      ((system.run (start, []) proposals).1.world.registry.algorithms .sphincsSha2256f).activationHeight = 500000 := by
  refine ⟨published_by_quorum (fun _ => rfl) (fun _ => Nat.zero_le _) proposals ⟨?_, ?_, trivial⟩, by decide +kernel⟩
  · exact freshCandidate_of_before (b := ballot 1 500000 1 true false) (by decide +kernel) (by decide +kernel)
  · exact freshCandidate_of_before (b := ballot 2 500000 1 false true) (by decide +kernel) (by decide +kernel)

end ThreeProposers

namespace ReusedProposalCex

open ThreeProposers

/-- The activation is published and takes effect, and the third validator alone publishes another height and verifier with
the votes for the first. -/
theorem published_by_one_vote :
    let p := system.run (start, []) (proposals ++ [.activate 500000])
    castAlgorithmBallot nativeCtx stagingRules (p.1, propose 3 600000 2) = some (ballot 3 600000 2 true true) ∧
      (system.step p (propose 3 600000 2)).1.world.registry.algorithms .sphincsSha2256f =
        { AlgorithmRecord.blank with
          status := some .pendingActivation, activationHeight := 600000, verifierHash := verifier 2,
          quorumRequired := true, quorumApproved := true } ∧
      ¬ (Native.weightOf p.1.world.registry (ballot 3 600000 2 true true).validators (fun _ => true) * 2 ≤
        Native.weightOf p.1.world.registry (ballot 3 600000 2 true true).validators
          (submittedSince nativeCtx stagingRules p.2 (ballot 3 600000 2 true true)) * 3) := by
  decide +kernel

end ReusedProposalCex

end ShellChain
