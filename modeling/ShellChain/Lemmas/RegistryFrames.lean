import ShellChain.SystemContracts

/-!
# What the operations of the registry leave alone

The checks of an operation only read. Every operation leaves the votes of validators alone except for the vote it records,
and the same holds for the votes on algorithms.
-/

namespace ShellChain

open Effect

variable {κ : Type}

namespace Native

/-! ## Checks -/

theorem keepsState_registry : (registry : NativeM κ RegistryStorage).KeepsState :=
  keepsState_read _

theorem keepsState_getValidators : (getValidators : NativeM κ (List Address)).KeepsState :=
  keepsState_registry.bind fun _ => .require fun _ => .require fun _ =>
    keepsState_pure _

theorem keepsState_ensureStakingEnabled : (ensureStakingEnabled : NativeM κ Unit).KeepsState :=
  keepsState_registry.bind fun _ => keepsState_require _ _

theorem keepsState_derivedWeight (stake : Nat) : (derivedWeight stake : NativeM κ Nat).KeepsState :=
  keepsState_registry.bind fun _ => .require fun _ => .require fun _ =>
    keepsState_pure _

theorem keepsState_validateValidatorStakeTotal (target : Address) (newStake : Nat) :
    (validateValidatorStakeTotal target newStake : NativeM κ (Nat × Nat)).KeepsState := by
  refine keepsState_registry.bind fun r => ?_
  dsimp only
  split
  · exact .require fun _ => keepsState_pure _
  · exact .require fun _ => keepsState_pure _

theorem keepsState_checkNewStake (target : Address) : (checkNewStake target : NativeM κ Unit).KeepsState := by
  refine keepsState_registry.bind fun r => ?_
  split
  · exact (keepsState_derivedWeight _).bind fun _ => keepsState_require _ _
  · exact keepsState_pure _

theorem keepsState_registerProverChecks (caller : Address) (publicKey : Bytes) (algorithm : UInt8) :
    (registerProverChecks Γ caller publicKey algorithm : NativeM κ (List Address)).KeepsState := by
  unfold registerProverChecks
  cases SignatureType.fromU8 algorithm with
  | none => exact keepsState_fail _
  | some signatureType =>
    exact .require fun _ => keepsState_getValidators.bind fun _ =>
      .require fun _ => keepsState_registry.bind fun _ => .require fun _ =>
        keepsState_pure _

/-! ## Writes -/

section Writes

variable {R : NativeState κ → NativeState κ → Prop}

theorem within_modifyRegistry {f : RegistryStorage → RegistryStorage}
    (h : ∀ s : NativeState κ, R s { s with world := s.world.mapRegistry f }) : (modifyRegistry f).Within R :=
  within_write h

theorem within_updateWorld [StepRelation R] {f : WorldState κ → Option (WorldState κ)} {e : StateError}
    (h : ∀ s w, f s.world = some w → R s { s with world := w }) : (updateWorld f e).Within R := by
  intro s
  unfold updateWorld
  split
  · exact StepRelation.refl s
  case h_2 w hw => exact h s w hw

end Writes

/-! ## Changes of validators leave the votes and the algorithms -/

/-- No weight is above the bound that `set_validator_weight` checks. -/
def BoundedWeights (s : NativeState κ) : Prop :=
  ∀ v, s.world.registry.weights v ≤ maxValidatorWeight

/-- The votes on algorithms and the algorithms, stored and in the process, are as they were, and weights stay bounded. -/
structure AlgorithmFrame (s t : NativeState κ) : Prop where
  votes : t.world.registry.algorithmVotes = s.world.registry.algorithmVotes
  algorithms : t.world.registry.algorithms = s.world.registry.algorithms
  registry : t.registry = s.registry
  weights : BoundedWeights s → BoundedWeights t

instance : StepRelation (AlgorithmFrame (κ := κ)) where
  refl _ := ⟨rfl, rfl, rfl, id⟩
  trans h h' := ⟨h'.votes.trans h.votes, h'.algorithms.trans h.algorithms, h'.registry.trans h.registry,
    fun hs => h'.weights (h.weights hs)⟩

/-- In addition the votes of validators are as they were. -/
structure VoteFrame (s t : NativeState κ) : Prop extends AlgorithmFrame s t where
  validatorVotes : t.world.registry.votes = s.world.registry.votes

instance : StepRelation (VoteFrame (κ := κ)) where
  refl s := ⟨StepRelation.refl s, rfl⟩
  trans h h' := ⟨StepRelation.trans h.toAlgorithmFrame h'.toAlgorithmFrame, h'.validatorVotes.trans h.validatorVotes⟩

theorem VoteFrame.of_registry {s t : NativeState κ} (h : t.world.registry = s.world.registry)
    (hregistry : t.registry = s.registry) : VoteFrame s t :=
  ⟨⟨by rw [h], by rw [h], hregistry, fun hs => by simpa only [BoundedWeights, h] using hs⟩, by rw [h]⟩

theorem voteFrame_modifyRegistry {f : RegistryStorage → RegistryStorage}
    (hvotes : ∀ r, (f r).votes = r.votes := by intro; rfl)
    (halgorithmVotes : ∀ r, (f r).algorithmVotes = r.algorithmVotes := by intro; rfl)
    (halgorithms : ∀ r, (f r).algorithms = r.algorithms := by intro; rfl)
    (hweights : ∀ r, (f r).weights = r.weights := by intro; rfl) :
    (modifyRegistry f : NativeM κ Unit).Within VoteFrame := by
  refine within_modifyRegistry fun s => ⟨⟨halgorithmVotes _, halgorithms _, rfl, fun hs => ?_⟩, hvotes _⟩
  intro v
  rw [show (s.world.mapRegistry f).registry.weights = s.world.registry.weights from hweights _]
  exact hs v

theorem voteFrame_setValidators (validators : List Address) :
    (setValidators validators : NativeM κ Unit).Within VoteFrame :=
  .require fun _ => .require fun _ =>
    voteFrame_modifyRegistry

/-- The check of `set_validator_weight` keeps the weights bounded. -/
theorem voteFrame_setValidatorWeight (validator : Address) (weight : Nat) :
    (setValidatorWeight validator weight : NativeM κ Unit).Within VoteFrame := by
  intro s
  by_cases hle : weight ≤ maxValidatorWeight
  · have hrun : setValidatorWeight validator weight s = modifyRegistry (fun r =>
        { r with weights := Function.update r.weights validator (max weight 1) }) s := by
      simp only [setValidatorWeight, hle, decide_true]
      rfl
    rw [hrun]
    refine ⟨⟨rfl, rfl, rfl, fun hs => ?_⟩, rfl⟩
    intro v
    change Function.update s.world.registry.weights validator (max weight 1) v ≤ maxValidatorWeight
    by_cases hv : v = validator
    · subst hv
      rw [Function.update_self]
      exact max_le hle (by decide)
    · rw [Function.update_of_ne hv]
      exact hs v
  · have hrun : setValidatorWeight validator weight s = (.error (.storage .weightOutOfRange), s) := by
      simp only [setValidatorWeight, hle, decide_false]
      rfl
    rw [hrun]
    exact StepRelation.refl s

theorem voteFrame_applyValidatorStake (target : Address) (newStake : Nat) :
    (applyValidatorStake target newStake : NativeM κ Unit).Within VoteFrame :=
  .check (keepsState_validateValidatorStakeTotal _ _) fun _ => .check (keepsState_derivedWeight _) fun _ =>
    .require fun _ =>
      Within.bind voteFrame_modifyRegistry fun _ =>
        (voteFrame_setValidatorWeight _ _).bind fun _ =>
          voteFrame_modifyRegistry

theorem voteFrame_applyAddValidator (target : Address) (validators : List Address) :
    (applyAddValidator target validators : NativeM κ Unit).Within VoteFrame := by
  refine (voteFrame_setValidators _).bind fun _ => .check keepsState_registry fun r => ?_
  split
  · exact voteFrame_applyValidatorStake _ _
  · exact voteFrame_setValidatorWeight _ _

theorem voteFrame_applySetValidatorStake (target : Address) (newStake : Nat) :
    (applySetValidatorStake target newStake : NativeM κ Unit).Within VoteFrame := by
  refine .check (keepsState_validateValidatorStakeTotal _ _) fun _ => .read fun _ =>
    .lift fun _ => (voteFrame_applyValidatorStake _ _).bind fun _ => ?_
  split
  · exact within_write fun _ => .of_registry rfl rfl
  · exact .pure _

theorem voteFrame_setRegisteredProver (address : Address) (record : RegisteredProver) :
    (setRegisteredProver address record : NativeM κ Unit).Within VoteFrame :=
  .require fun _ =>
    voteFrame_modifyRegistry

/-! ## Bonding -/

section

variable (caller target : Address) (amount : Nat)

theorem keepsState_bondChecks : (bondChecks caller target amount : NativeM κ Nat).KeepsState :=
  keepsState_ensureStakingEnabled.bind fun _ => .require fun _ => keepsState_getValidators.bind fun _ => .require fun _ =>
    keepsState_registry.bind fun _ => .require fun _ => (keepsState_derivedWeight _).bind fun _ => .require fun _ =>
      (keepsState_validateValidatorStakeTotal _ _).bind fun _ => keepsState_pure _

theorem keepsState_unbondRequest : (unbondRequest caller target amount : NativeM κ Nat).KeepsState :=
  keepsState_ensureStakingEnabled.bind fun _ => .require fun _ => keepsState_getValidators.bind fun _ => .require fun _ =>
    keepsState_registry.bind fun _ => .require fun _ => (keepsState_derivedWeight _).bind fun _ => .require fun _ =>
      keepsState_pure _

theorem voteFrame_bondValidatorStake : (bondValidatorStake caller target amount : NativeM κ Bool).Within VoteFrame := by
  refine .check (keepsState_bondChecks _ _ _) fun _ => (within_updateWorld fun s w hw => ?_).bind fun _ =>
    (voteFrame_applyValidatorStake _ _).bind fun _ => .pure _
  unfold WorldState.subBalance at hw
  split_ifs at hw
  cases hw
  exact .of_registry rfl rfl

theorem voteFrame_unbondValidatorStake :
    (unbondValidatorStake caller target amount : NativeM κ Bool).Within VoteFrame := by
  refine .check (keepsState_unbondRequest _ _ _) fun _ => (voteFrame_applyValidatorStake _ _).bind fun _ =>
    (within_updateWorld fun s w hw => ?_).bind fun _ => .pure _
  unfold WorldState.addBalance at hw
  split_ifs at hw
  cases hw
  exact .of_registry rfl rfl

end

def validatorVotes (s : NativeState κ) : ValidatorVoteKey → Bool :=
  s.world.registry.votes

end Native

end ShellChain
