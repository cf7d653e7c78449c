import ShellChain.Lemmas.RegistryVotes
import ShellChain.SampleContracts

/-!
# Which votes an operation of the registry is applied with

A vote is filed under the operation, its target, the voter and the validators of the time, and it is never removed. When the
validators are again what they were, the votes of a closed round count once more.
-/

namespace ShellChain

variable {κ : Type} {Γ : Ctx} {rules : NativeRules}

theorem ValidatorRegistryOp.majority_mono {op : ValidatorRegistryOp} {voted voted' total : Nat} (hle : voted ≤ voted')
    (h : op.majority voted total) : op.majority voted' total := by
  cases op <;> simp only [majority, decide_eq_true_eq] at h ⊢ <;> omega

/-! ## The majority of a round -/

/-- A validator is the caller, or voted on the operation since it was last applied. -/
def votedSince (Γ : Ctx) (trace : List (NativeStep κ)) (b : Ballot) (v : Address) : Bool :=
  v = b.voter || (ballotRounds Γ b.op b.target trace).opened.any fun b' => b'.voter = v

/-- An operation that a call applies has the majority of the current weight in votes since it was last applied. -/
def AppliedByMajority (Γ : Ctx) (p : NativeState κ × List (NativeStep κ)) (c : NativeCall) : Prop :=
  ∀ b, castBallot Γ (p.1, c) = some b → b.applied →
    b.op.majority (Native.weightOf p.1.world.registry b.validators (votedSince Γ p.2 b))
      (Native.weightOf p.1.world.registry b.validators fun _ => true)

/-- No vote on the operation of a ballot is filed under the same validators from a round that ended with its
application. -/
def FreshBallot (Γ : Ctx) (p : NativeState κ × List (NativeStep κ)) (c : NativeCall) : Prop :=
  ∀ b, castBallot Γ (p.1, c) = some b → ∀ b' ∈ (ballotRounds Γ b.op b.target p.2).closed, b'.validators ≠ b.validators

/-- The stored votes that count are those of the open round. -/
theorem VotesCast.appliedByMajority {p : NativeState κ × List (NativeStep κ)} {c : NativeCall} (h : VotesCast Γ p)
    (hfresh : FreshBallot Γ p c) : AppliedByMajority Γ p c := by
  intro b hb happlied
  have hcast := hb
  unfold castBallot at hcast
  split at hcast
  · cases hcast
  obtain ⟨voting, hvoting, hcast⟩ := Option.bind_eq_some_iff.mp hcast
  have hreach := (Voting.votesReach_of_applied (RegistryCall.voting_framed hvoting) hcast happlied).2
  refine ValidatorRegistryOp.majority_mono (weightOf_mono ?_) hreach
  intro v hv hvote
  simp only [votedSince, Bool.or_eq_true, decide_eq_true_eq, List.any_eq_true]
  by_cases hvoter : v = b.voter
  · exact .inl hvoter
  · right
    have hstored : p.1.world.registry.votes ⟨b.op, b.target, v, b.validators⟩ = true := by
      have hne : (⟨b.op, b.target, v, b.validators⟩ : ValidatorVoteKey) ≠ b.key := by
        intro heq
        exact hvoter (congrArg ValidatorVoteKey.voter heq)
      simpa only [RegistryStorage.withVote, Function.update_of_ne hne] using hvote
    obtain ⟨b', hmem, hvoter', hvalidators⟩ := h _ hstored
    rcases hmem with hclosed | hopened
    · exact absurd hvalidators (hfresh b hb b' hclosed)
    · exact ⟨b', hopened, hvoter'⟩

/-- In every run of registry calls from a storage without votes in which no vote meets an older one of a closed round under
the same validators, every operation is applied with a majority that voted for it since it was last applied. -/
theorem applied_by_fresh_majority {start : NativeState κ} (hstart : ∀ key, start.world.registry.votes key = false)
    (calls : List NativeCall)
    (hfresh : (registrySystem Γ rules κ).withTrace.Admits (FreshBallot Γ) (start, []) calls) :
    (registrySystem Γ rules κ).withTrace.Admits (AppliedByMajority Γ) (start, []) calls :=
  TransitionSystem.admits_of_invariant (I := VotesCast Γ) (fun _ c h => h.step c)
    (fun _ _ h hc => h.appliedByMajority hc) (fun key hkey => by simp [Native.validatorVotes, hstart] at hkey) hfresh

/-! ## Three validators -/

namespace ThreeValidators

/-- Three validators of weight one, each with a key. -/
def start : NativeState Unit :=
  { nativeGenesis [nativeAddress 1, nativeAddress 2, nativeAddress 3] with pubkeys := fun _ => some [7] }

/-- A validator votes on the third one. -/
def vote (signature : String) (caller : UInt8) : NativeCall :=
  ⟨nativeContext 0, nativeAddress caller, addressInput signature (nativeAddress 3)⟩

/-- The first two validators vote to remove the third. -/
def removal : List NativeCall :=
  [vote "removeValidator(address)" 1, vote "removeValidator(address)" 2]

/-- The first two validators vote to add the third. -/
def addition : List NativeCall :=
  [vote "addValidator(address)" 1, vote "addValidator(address)" 2]

def system : TransitionSystem (NativeState Unit × List (NativeStep Unit)) NativeCall :=
  (registrySystem nativeCtx nativeRules Unit).withTrace

theorem freshBallot_of_closed {p : NativeState Unit × List (NativeStep Unit)} {c : NativeCall} {b : Ballot}
    (hb : castBallot nativeCtx (p.1, c) = some b)
    (hclosed : (ballotRounds nativeCtx b.op b.target p.2).closed = []) : FreshBallot nativeCtx p c := by
  intro b' hb' b'' hmem
  cases hb.symm.trans hb'
  rw [hclosed] at hmem
  cases hmem

/-- The third validator is removed with the votes of the other two. -/
theorem removed_by_majority :
    system.Admits (AppliedByMajority nativeCtx) (start, []) removal ∧
      (system.run (start, []) removal).1.world.registry.validators = [nativeAddress 1, nativeAddress 2] := by
  refine ⟨applied_by_fresh_majority (fun _ => rfl) removal ⟨?_, ?_, trivial⟩, by decide +kernel⟩
  · exact freshBallot_of_closed (b := ⟨.remove, nativeAddress 3, nativeAddress 1,
      [nativeAddress 1, nativeAddress 2, nativeAddress 3], false⟩) (by decide +kernel) (by decide +kernel)
  · exact freshBallot_of_closed (b := ⟨.remove, nativeAddress 3, nativeAddress 2,
      [nativeAddress 1, nativeAddress 2, nativeAddress 3], true⟩) (by decide +kernel) (by decide +kernel)

end ThreeValidators

namespace ReusedVoteCex

open ThreeValidators

/-- The third validator is removed, added again, and removed by one vote: the vote of the second validator for the first
removal counts again. -/
theorem removed_by_one_vote :
    let p := system.run (start, []) (removal ++ addition)
    castBallot nativeCtx (p.1, vote "removeValidator(address)" 1) = some ⟨.remove, nativeAddress 3, nativeAddress 1,
        [nativeAddress 1, nativeAddress 2, nativeAddress 3], true⟩ ∧
      (ballotRounds nativeCtx .remove (nativeAddress 3) p.2).opened = [] ∧
      ((registrySystem nativeCtx nativeRules Unit).step p.1 (vote "removeValidator(address)" 1)).world.registry.validators =
        [nativeAddress 1, nativeAddress 2] ∧
      ¬ ValidatorRegistryOp.remove.majority
        (Native.weightOf p.1.world.registry [nativeAddress 1, nativeAddress 2, nativeAddress 3]
          (votedSince nativeCtx p.2 ⟨.remove, nativeAddress 3, nativeAddress 1,
            [nativeAddress 1, nativeAddress 2, nativeAddress 3], true⟩))
        (Native.weightOf p.1.world.registry [nativeAddress 1, nativeAddress 2, nativeAddress 3] fun _ => true) := by
  decide +kernel

end ReusedVoteCex

end ShellChain
