import ShellChain.Lemmas.RegistryVotes
import ShellChain.Lemmas.Recovery

/-!
# Calls that fail after a write

What a failed call of a native contract leaves behind. Most operations make every check before their first write. Adding a
validator and setting a stake record the vote first, and every change of a stake writes the stake before the weight that
follows from it is checked.
-/

namespace ShellChain

open Effect RegistryCall Native Function RegistryStorage

variable {κ : Type} {Γ : Ctx} {rules : NativeRules}

/-! ## Which calls write first -/

namespace Native

/-- The checks of `unbond_validator_stake` before its first write. -/
def unbondChecks (caller target : Address) (amount : Nat) : NativeM κ (Nat × Nat) := do
  let updated ← unbondRequest caller target amount
  validateValidatorStakeTotal target updated

/-- A new stake of a validator has a total and can be paid. -/
def stakeAffordable (s : NativeState κ) (target : Address) (newStake : Nat) : Bool :=
  (validateValidatorStakeTotal target newStake s).1.isOk &&
    (updatedBalance (s.world.balance target) (s.world.registry.stakes target) newStake).isOk

end Native

/-- A call passes the checks before its first write, and the write changes the state. -/
def RegistryCall.writesFirst (caller : Address) (s : NativeState κ) : RegistryCall → Bool
  | addValidator target =>
    let r := s.world.registry
    (Native.addValidatorChecks caller target s).1.isOk && (!r.votes ⟨.add, target, caller, r.validators⟩ ||
      decide (r.validators.length < RegistryStorage.maxValidators))
  | setValidatorStake target stake =>
    let r := s.world.registry
    (Native.setValidatorStakeChecks caller stake s).1.isOk && (!r.votes ⟨.setStake stake, target, caller, r.validators⟩ ||
      (decide (r.stakes target ≠ stake) && Native.stakeAffordable s target stake))
  | bondValidatorStake target amount =>
    decide (amount ≠ 0) && (Native.bondChecks caller target amount s).1.isOk && decide (amount ≤ s.world.balance caller)
  | unbondValidatorStake target amount => decide (amount ≠ 0) && (Native.unbondChecks caller target amount s).1.isOk
  | _ => false

/-- The states are the same, or differ in a record of the caller that is written as it was read. -/
def SameFor (caller : Address) (s t : NativeState κ) : Prop :=
  t = s ∨ t = { s with world := s.world.setAccount caller (s.world.account caller) }

/-- What a failed call leaves, by whether it wrote before its last check. -/
def LeavesBy (writes : Bool) (caller : Address) (s t : NativeState κ) : Prop :=
  (writes = true → t.world.registry ≠ s.world.registry) ∧ (writes = false → SameFor caller s t)

theorem leavesBy_false {caller : Address} {s t : NativeState κ} (h : SameFor caller s t) : LeavesBy false caller s t :=
  ⟨(fun hfalse => nomatch hfalse), fun _ => h⟩

/-! ## Stakes -/

/-- The state with another stake of a validator. -/
def withStake (s : NativeState κ) (target : Address) (stake : Nat) : NativeState κ :=
  { s with world := s.world.mapRegistry fun r => { r with stakes := Function.update r.stakes target stake } }

def stakeWeight (s : NativeState κ) (stake : Nat) : Nat :=
  min (stake / s.world.registry.stakeUnit) s.world.registry.getMaxValidatorWeight

/-- The state with a stake, its weight and the new total. -/
def staked (s : NativeState κ) (target : Address) (stake total : Nat) : NativeState κ :=
  { s with world := s.world.mapRegistry fun r => { r with
      stakes := Function.update r.stakes target stake
      weights := Function.update r.weights target (stakeWeight s stake)
      totalStaked := total } }

/-- `set_validator_weight` refuses the weight of a stake. -/
def weightRefused (s : NativeState κ) (stake : Nat) : Bool :=
  decide (maxValidatorWeight < stakeWeight s stake)

theorem withStake_self (s : NativeState κ) (target : Address) :
    withStake s target (s.world.registry.stakes target) = s := by
  simp [withStake, WorldState.mapRegistry]

theorem stakes_withStake (s : NativeState κ) (target : Address) (stake : Nat) :
    (withStake s target stake).world.registry.stakes target = stake :=
  update_self ..

namespace Native

variable {s t : NativeState κ} {e : SystemContractError} {caller target : Address} {amount stake : Nat}
  {weight updated : Nat} {f : WorldState κ → Option (WorldState κ)} {key : ValidatorVoteKey} {v : Voting κ}

theorem setValidatorWeight_error (h : setValidatorWeight target weight s = (.error e, t)) :
    t = s ∧ maxValidatorWeight < weight := by
  unfold setValidatorWeight at h
  rw [require_bind] at h
  split at h
  · cases congrArg Prod.fst h
  · rename_i hweight
    refine ⟨(congrArg Prod.snd h).symm, ?_⟩
    simpa using hweight

theorem derivedWeight_ok (h : (derivedWeight stake s).1 = .ok weight) : weight = stakeWeight s stake := by
  have hrun : derivedWeight stake s = (.ok weight, s) := Prod.ext h (keepsState_derivedWeight _ s)
  simp only [derivedWeight, registry, bind_ok_iff, read_ok_iff, require_ok_iff, pure_ok_iff] at hrun
  obtain ⟨_, _, ⟨rfl, rfl⟩, _, _, ⟨_, rfl⟩, _, _, ⟨_, rfl⟩, rfl, _⟩ := hrun
  rfl

theorem validateValidatorStakeTotal_ok {totals : Nat × Nat}
    (h : validateValidatorStakeTotal target stake s = (.ok totals, t)) :
    totals.1 = s.world.registry.stakes target ∧
      totals.2 + s.world.registry.stakes target = s.world.registry.totalStaked + stake := by
  simp only [validateValidatorStakeTotal, registry, bind_ok_iff, read_ok_iff] at h
  obtain ⟨_, _, ⟨rfl, rfl⟩, h⟩ := h
  split at h
  all_goals
    simp only [bind_ok_iff, require_ok_iff, pure_ok_iff, decide_eq_true_eq] at h
    obtain ⟨_, _, ⟨hbound, _⟩, rfl, _⟩ := h
    refine ⟨rfl, ?_⟩
    simp only
    omega

/-- What the checks of a stake read. -/
def stakeTables (s : NativeState κ) : (Address → Nat) × Nat × Nat × Nat :=
  (s.world.registry.stakes, s.world.registry.totalStaked, s.world.registry.stakeUnit, s.world.registry.maxWeight)

theorem stakeTables_congr (h : stakeTables t = stakeTables s) (target : Address) (stake : Nat) :
    (validateValidatorStakeTotal target stake t).1 =
        (validateValidatorStakeTotal target stake s).1 ∧
      (derivedWeight stake t).1 = (derivedWeight stake s).1 := by
  simp only [stakeTables, Prod.mk.injEq] at h
  obtain ⟨hstakes, htotal, hunit, hmax⟩ := h
  have hbound : t.world.registry.getMaxValidatorWeight = s.world.registry.getMaxValidatorWeight := by
    simp only [getMaxValidatorWeight, hmax]
  simp only [validateValidatorStakeTotal, derivedWeight, registry, read_bind_run, hstakes, htotal, hunit, hbound,
    require_bind]
  constructor
  · split
    · split <;> rfl
    · split <;> rfl
  · split
    · split <;> rfl
    · rfl

/-- A stake has a total and a weight, so that only the bound of the weight can refuse it. -/
structure StakeChecked (s : NativeState κ) (target : Address) (stake : Nat) : Prop where
  totals : ∃ totals, (validateValidatorStakeTotal target stake s).1 = .ok totals
  weight : ∃ weight, (derivedWeight stake s).1 = .ok weight ∧ weight ≠ 0

theorem StakeChecked.congr (h : StakeChecked s target stake) (ht : stakeTables t = stakeTables s) :
    StakeChecked t target stake := by
  obtain ⟨htotals, hweight⟩ := stakeTables_congr ht target stake
  exact ⟨by simpa only [htotals] using h.totals, by simpa only [hweight] using h.weight⟩

/-- What is written of a stake that is checked: all of it, or the stake alone when its weight is refused. -/
inductive StakeApplied (s : NativeState κ) (target : Address) (stake : Nat) :
    Except SystemContractError Unit → NativeState κ → Prop
  | torn {error} (refused : weightRefused s stake = true) : StakeApplied s target stake (.error error) (withStake s target stake)
  | whole {total} (kept : weightRefused s stake = false) (positive : stakeWeight s stake ≠ 0)
      (sum : total + s.world.registry.stakes target = s.world.registry.totalStaked + stake) :
    StakeApplied s target stake (.ok ()) (staked s target stake total)

/-- A stake that is not checked is refused before it is written. -/
theorem applyValidatorStake_run (h : applyValidatorStake target stake s = (x, t)) :
    (¬ StakeChecked s target stake ∧ t = s ∧ ∃ e, x = .error e) ∨
      (StakeChecked s target stake ∧ StakeApplied s target stake x t) := by
  unfold applyValidatorStake at h
  rcases (keepsState_validateValidatorStakeTotal _ _).bind_cases h with ⟨e, htotals, rfl, rfl⟩ | ⟨totals, htotals, h⟩
  · refine .inl ⟨fun hchecked => ?_, rfl, e, rfl⟩
    obtain ⟨totals, hok⟩ := hchecked.totals
    rw [htotals] at hok
    cases hok
  rcases (keepsState_derivedWeight _).bind_cases h with ⟨e, hweight, rfl, rfl⟩ | ⟨weight, hweight, h⟩
  · refine .inl ⟨fun hchecked => ?_, rfl, e, rfl⟩
    obtain ⟨weight, hok, -⟩ := hchecked.weight
    rw [hweight] at hok
    cases hok
  obtain rfl := derivedWeight_ok (congrArg Prod.fst hweight)
  rw [require_bind] at h
  by_cases hpositive : stakeWeight s stake = 0
  · rw [if_neg (by simpa using hpositive)] at h
    obtain ⟨rfl, rfl⟩ := Prod.mk.inj h
    refine .inl ⟨fun hchecked => ?_, rfl, _, rfl⟩
    obtain ⟨weight, hok, hne⟩ := hchecked.weight
    rw [hweight] at hok
    cases hok
    exact hne hpositive
  refine .inr ⟨⟨⟨totals, by rw [htotals]⟩, _, by rw [hweight], hpositive⟩, ?_⟩
  rw [if_pos (by simpa using hpositive)] at h
  replace h : (setValidatorWeight target (max (stakeWeight s stake) 1) >>= fun _ =>
      modifyRegistry fun r => { r with totalStaked := totals.2 } : NativeM κ Unit) (withStake s target stake) = (x, t) := h
  have hmax : max (stakeWeight s stake) 1 = stakeWeight s stake := by omega
  unfold setValidatorWeight at h
  rw [hmax, Effect.bind_assoc, require_bind] at h
  by_cases hbound : stakeWeight s stake ≤ maxValidatorWeight
  · rw [if_pos (by simpa using hbound), hmax] at h
    obtain ⟨rfl, rfl⟩ := Prod.mk.inj h
    exact .whole (by simpa [weightRefused] using hbound) hpositive (validateValidatorStakeTotal_ok htotals).2
  · rw [if_neg (by simpa using hbound)] at h
    obtain ⟨rfl, rfl⟩ := Prod.mk.inj h
    exact .torn (by simpa [weightRefused] using hbound)

theorem StakeChecked.applied (hchecked : StakeChecked s target stake)
    (h : applyValidatorStake target stake s = (x, t)) : StakeApplied s target stake x t :=
  ((applyValidatorStake_run h).resolve_left fun hrefused => hrefused.1 hchecked).2

/-! ## Bonding -/

theorem bondChecks_ok (h : bondChecks caller target amount s = (.ok updated, t)) :
    caller = target ∧ updated = s.world.registry.stakes target + amount ∧ StakeChecked s target updated := by
  simp only [bondChecks, registry, bind_ok_iff, read_ok_iff, require_ok_iff, pure_ok_iff, decide_eq_true_eq] at h
  obtain ⟨_, s₁, hstaking, _, _, ⟨rfl, rfl⟩, validators, s₂, hvalidators, _, _, ⟨_, rfl⟩, _, _, ⟨rfl, rfl⟩, _, _, ⟨_, rfl⟩,
    weight, s₃, hweight, _, _, ⟨hpositive, rfl⟩, totals, s₄, htotals, rfl, rfl⟩ := h
  obtain rfl := keepsState_ensureStakingEnabled.eq_of_ok hstaking
  obtain rfl := keepsState_getValidators.eq_of_ok hvalidators
  obtain rfl := (keepsState_derivedWeight _).eq_of_ok hweight
  obtain rfl := (keepsState_validateValidatorStakeTotal _ _).eq_of_ok htotals
  exact ⟨rfl, rfl, ⟨totals, by rw [htotals]⟩, weight, by rw [hweight], hpositive⟩

theorem updateWorld_of_none (error : StateError) (h : f s.world = none) :
    updateWorld f error s = (.error (.storage error), s) := by
  simp only [updateWorld, h]

theorem updateWorld_of_some {w : WorldState κ} (error : StateError) (h : f s.world = some w) :
    updateWorld f error s = (.ok (), { s with world := w }) := by
  simp only [updateWorld, h]

/-- The state with another balance. -/
def withFunds (s : NativeState κ) (a : Address) (balance : Nat) : NativeState κ :=
  { s with world := s.world.setBalance a balance }

/-- A bond fails its checks, or debits the caller and applies the stake. -/
inductive BondRun (s : NativeState κ) (caller target : Address) (amount : Nat) :
    Except SystemContractError Bool → NativeState κ → Prop
  | refused {error} (h : ((bondChecks caller target amount s).1.isOk && decide (amount ≤ s.world.balance caller)) = false) :
    BondRun s caller target amount (.error error) s
  | applied {y t'} (self : caller = target) (checks : (bondChecks caller target amount s).1.isOk = true)
      (covered : amount ≤ s.world.balance caller)
      (h : StakeApplied (withFunds s caller (s.world.balance caller - amount)) caller
        (s.world.registry.stakes caller + amount) y t') :
    BondRun s caller target amount (y.map fun _ => true) t'

theorem bondRun_of_run (h : bondValidatorStake caller target amount s = (result, t)) :
    BondRun s caller target amount result t := by
  unfold bondValidatorStake at h
  rcases (keepsState_bondChecks _ _ _).bind_cases h with ⟨e, hchecks, rfl, rfl⟩ | ⟨updated, hchecks, h⟩
  · exact .refused (by rw [hchecks]; rfl)
  obtain ⟨rfl, rfl, hchecked⟩ := bondChecks_ok hchecks
  by_cases hcovered : amount ≤ s.world.balance caller
  case neg =>
    obtain ⟨rfl, rfl⟩ := Prod.mk.inj ((bind_of_error (updateWorld_of_none _ (if_neg hcovered))).symm.trans h)
    exact .refused (by simp [hcovered])
  rw [bind_of_ok (updateWorld_of_some _ (if_pos hcovered))] at h
  rcases happly : (applyValidatorStake caller (s.world.registry.stakes caller + amount) : NativeM κ Unit)
    (withFunds s caller (s.world.balance caller - amount)) with ⟨x, t₁⟩
  obtain ⟨rfl, rfl⟩ := Prod.mk.inj ((bind_pure_of_run happly).symm.trans h)
  exact .applied rfl (by rw [hchecks]; rfl) hcovered (StakeChecked.applied (hchecked.congr rfl) happly)

/-- An unbonding fails its checks, tears the stake, or applies it and then credits the caller if that is possible. -/
inductive UnbondRun (s : NativeState κ) (caller target : Address) (amount : Nat) :
    Except SystemContractError Bool → NativeState κ → Prop
  | refused {error} (h : (unbondChecks caller target amount s).1.isOk = false) : UnbondRun s caller target amount (.error error) s
  | applied {y s' outcome t'} (self : caller = target) (checks : (unbondChecks caller target amount s).1.isOk = true)
      (covered : amount ≤ s.world.registry.stakes caller)
      (h : StakeApplied s caller (s.world.registry.stakes caller - amount) y s')
      (credit : (y = .ok () ∧ s.world.balance caller + amount ≤ u256Max ∧ outcome = .ok true ∧
          t' = withFunds s' caller (s.world.balance caller + amount)) ∨
        ((y = .ok () → u256Max < s.world.balance caller + amount) ∧ (∃ e, outcome = .error e) ∧ t' = s')) :
    UnbondRun s caller target amount outcome t'

theorem unbondRun_of_run (h : unbondValidatorStake caller target amount s = (result, t)) :
    UnbondRun s caller target amount result t := by
  unfold unbondValidatorStake at h
  rcases (keepsState_unbondRequest _ _ _).bind_cases h with ⟨e, hrequest, rfl, rfl⟩ | ⟨updated, hrequest, h⟩
  · exact .refused (by rw [unbondChecks, bind_of_error hrequest]; rfl)
  have hpassed := hrequest
  simp only [unbondRequest, registry, bind_ok_iff, read_ok_iff, require_ok_iff, pure_ok_iff, decide_eq_true_eq] at hpassed
  obtain ⟨_, s₁, hstaking, _, _, ⟨rfl, rfl⟩, validators, s₂, hvalidators, _, _, ⟨_, rfl⟩, _, _, ⟨rfl, rfl⟩, _, _, ⟨hle, rfl⟩,
    weight, s₃, hderived, _, _, ⟨hpositive, rfl⟩, rfl, -⟩ := hpassed
  obtain rfl := keepsState_ensureStakingEnabled.eq_of_ok hstaking
  obtain rfl := keepsState_getValidators.eq_of_ok hvalidators
  obtain rfl := (keepsState_derivedWeight _).eq_of_ok hderived
  have hweight : ∃ weight, (derivedWeight (s.world.registry.stakes caller - amount) s).1 = .ok weight ∧
      weight ≠ 0 := ⟨weight, by rw [hderived], hpositive⟩
  have hchecks : (unbondChecks caller caller amount s).1.isOk = true ↔
      StakeChecked s caller (s.world.registry.stakes caller - amount) := by
    rw [unbondChecks, bind_of_ok hrequest, Checks.isOk_iff]
    exact ⟨fun htotals => ⟨htotals, hweight⟩, fun hchecked => hchecked.totals⟩
  rcases happly : applyValidatorStake caller (s.world.registry.stakes caller - amount) s with ⟨x, t₁⟩
  rcases applyValidatorStake_run happly with ⟨hunchecked, rfl, e, rfl⟩ | ⟨hchecked, happlied⟩
  · obtain ⟨rfl, rfl⟩ := Prod.mk.inj ((bind_of_error happly).symm.trans h)
    exact .refused (by simpa [hunchecked] using hchecks)
  refine .applied rfl (hchecks.mpr hchecked) hle happlied ?_
  cases x with
  | error e =>
    obtain ⟨rfl, rfl⟩ := Prod.mk.inj ((bind_of_error happly).symm.trans h)
    exact .inr ⟨by simp, ⟨e, rfl⟩, rfl⟩
  | ok =>
    have hbalance : t₁.world.balance caller = s.world.balance caller := by
      cases happlied
      rfl
    rw [bind_of_ok happly] at h
    by_cases hfits : s.world.balance caller + amount ≤ u256Max
    · have hcredit : t₁.world.addBalance caller amount =
          some (t₁.world.setBalance caller (s.world.balance caller + amount)) := by
        rw [WorldState.addBalance, hbalance, if_pos hfits]
      obtain ⟨rfl, rfl⟩ := Prod.mk.inj ((bind_of_ok (updateWorld_of_some _ hcredit)).symm.trans h)
      exact .inl ⟨rfl, hfits, rfl, rfl⟩
    · have hcredit : t₁.world.addBalance caller amount = none := by
        rw [WorldState.addBalance, hbalance, if_neg hfits]
      obtain ⟨rfl, rfl⟩ := Prod.mk.inj ((bind_of_error (updateWorld_of_none _ hcredit)).symm.trans h)
      exact .inr ⟨fun _ => by omega, ⟨_, rfl⟩, rfl⟩

/-- What a failed bond leaves: the stake it wrote, if it passed the checks and is of an amount. -/
theorem bondValidatorStake_error (h : bondValidatorStake caller target amount s = (.error e, t)) :
    LeavesBy (writesFirst caller s (.bondValidatorStake target amount)) caller s t := by
  generalize hresult : (.error e : Except SystemContractError Bool) = result at h
  simp only [writesFirst]
  cases bondRun_of_run h with
  | refused hrefused =>
    rw [Bool.and_assoc, hrefused, Bool.and_false]
    exact leavesBy_false (.inl rfl)
  | applied hself hchecks hcovered happlied =>
    subst hself
    cases happlied with
    | whole => cases hresult
    | torn =>
      simp only [hchecks, hcovered, decide_true, Bool.and_true]
      refine ⟨fun hwrites heq => ?_, fun hkeeps => ?_⟩
      · have hstake := congrArg (fun r => r.stakes caller) heq
        rw [stakes_withStake] at hstake
        have := of_decide_eq_true hwrites
        omega
      · obtain rfl : amount = 0 := by simpa using hkeeps
        exact .inr (withStake_self _ caller)

theorem unbondValidatorStake_error (hrange : s.world.balance caller ≤ u256Max)
    (h : unbondValidatorStake caller target amount s = (.error e, t)) :
    LeavesBy (writesFirst caller s (.unbondValidatorStake target amount)) caller s t := by
  generalize hresult : (.error e : Except SystemContractError Bool) = result at h
  simp only [writesFirst]
  cases unbondRun_of_run h with
  | refused hrefused =>
    rw [hrefused, Bool.and_false]
    exact leavesBy_false (.inl rfl)
  | applied hself hchecks hcovered happlied hcredit =>
    subst hself
    rcases hcredit with ⟨-, -, rfl, -⟩ | ⟨hoverflow, -, rfl⟩
    · cases hresult
    simp only [hchecks, Bool.and_true]
    refine ⟨fun hwrites heq => ?_, fun hkeeps => ?_⟩
    · have hstake : t.world.registry.stakes caller = s.world.registry.stakes caller - amount := by
        cases happlied with
        | torn => exact stakes_withStake ..
        | whole => exact update_self ..
      rw [heq] at hstake
      have := of_decide_eq_true hwrites
      omega
    · obtain rfl : amount = 0 := by simpa using hkeeps
      cases happlied with
      | torn => exact .inl (withStake_self s caller)
      | whole => exact absurd (hoverflow rfl) (by simpa using hrange)

/-! ## Votes -/

def withValidatorVote (s : NativeState κ) (key : ValidatorVoteKey) : NativeState κ :=
  { s with world := { s.world with registry := s.world.registry.withVote key } }

theorem withValidatorVote_of_stored (h : s.world.registry.votes key = true) : withValidatorVote s key = s := by
  have hvotes : update s.world.registry.votes key true = s.world.registry.votes := by
    rw [← h]
    exact update_eq_self key _
  simp only [withValidatorVote, RegistryStorage.withVote, hvotes]

/-- A vote that stays in the registry is new or changes nothing. -/
theorem not_stored_of_withVote (hvotes : t.world.registry.votes key = true) (hnew : (!s.world.registry.votes key) = true) :
    t.world.registry ≠ s.world.registry := by
  intro heq
  rw [heq] at hvotes
  simp [hvotes] at hnew

/-- A vote is refused, is recorded, or is recorded and applied. -/
inductive VotingRun (v : Voting κ) (caller : Address) (s : NativeState κ) :
    Except SystemContractError Bool → NativeState κ → Prop
  | refused {error} (h : (v.checks s).1.isOk = false) : VotingRun v caller s (.error error) s
  | recorded {validators} (checks : v.checks s = (.ok validators, s))
      (short : votesReach (s.world.registry.withVote ⟨v.op, v.target, caller, validators⟩) v.op v.target validators = false) :
    VotingRun v caller s (.ok false) (withValidatorVote s ⟨v.op, v.target, caller, validators⟩)
  | applied {validators y t'} (checks : v.checks s = (.ok validators, s))
      (reach : votesReach (s.world.registry.withVote ⟨v.op, v.target, caller, validators⟩) v.op v.target validators = true)
      (apply : v.apply validators (withValidatorVote s ⟨v.op, v.target, caller, validators⟩) = (y, t')) :
    VotingRun v caller s (y.map fun _ => true) t'

theorem votingRun_of_run (hv : v.Framed) (h : v.run caller s = (result, t)) : VotingRun v caller s result t := by
  cases hchecks : (v.checks s).1 with
  | error e =>
    obtain ⟨rfl, rfl⟩ := Prod.mk.inj ((Voting.run_of_refused hv hchecks).symm.trans h)
    exact .refused (by rw [hchecks]; rfl)
  | ok validators =>
    obtain ⟨r, s', rfl, rfl, hrun⟩ := Voting.run_of_checked hv hchecks caller
    have hok : v.checks s = (.ok validators, s) := Prod.ext hchecks (hv.checks s)
    rw [hrun] at h
    cases hreach : votesReach (s.world.registry.withVote ⟨v.op, v.target, caller, validators⟩) v.op v.target validators with
    | false =>
      rw [hreach] at h
      obtain ⟨rfl, rfl⟩ := Prod.mk.inj h
      exact .recorded hok hreach
    | true =>
      rw [hreach, if_pos rfl] at h
      rcases happly : v.apply validators (withValidatorVote s ⟨v.op, v.target, caller, validators⟩) with ⟨x, t₁⟩
      obtain ⟨rfl, rfl⟩ := Prod.mk.inj ((bind_pure_of_run happly).symm.trans h)
      exact .applied hok hreach happly

variable {validators : List Address}

theorem addValidatorChecks_ok (h : addValidatorChecks caller target s = (.ok validators, t)) :
    validators = s.world.registry.validators ∧ validators.Nodup ∧ target ∉ validators := by
  simp only [addValidatorChecks, getValidators, registry, bind_ok_iff, read_ok_iff, require_ok_iff, pure_ok_iff,
    decide_eq_true_eq] at h
  obtain ⟨_, _, ⟨_, _, ⟨rfl, rfl⟩, _, _, ⟨_, rfl⟩, _, _, ⟨hnodup, rfl⟩, rfl, rfl⟩, _, _, ⟨_, rfl⟩, _, _, ⟨hnew, rfl⟩, _, _,
    ⟨rfl, rfl⟩, _, _, ⟨_, rfl⟩, _, s₁, _, rfl, rfl⟩ := h
  exact ⟨rfl, hnodup, hnew⟩

theorem setValidatorStakeChecks_ok (h : setValidatorStakeChecks caller stake s = (.ok validators, t)) :
    validators = s.world.registry.validators ∧
      ∃ weight, (derivedWeight stake s).1 = .ok weight ∧ weight ≠ 0 := by
  simp only [setValidatorStakeChecks, getValidators, registry, bind_ok_iff, read_ok_iff, require_ok_iff, pure_ok_iff,
    decide_eq_true_eq] at h
  obtain ⟨_, s₁, hstaking, _, _, ⟨_, _, ⟨rfl, rfl⟩, _, _, ⟨_, rfl⟩, _, _, ⟨_, rfl⟩, rfl, rfl⟩, _, _, ⟨_, rfl⟩, weight, s₂,
    hweight, _, _, ⟨hpositive, rfl⟩, rfl, rfl⟩ := h
  obtain rfl := keepsState_ensureStakingEnabled.eq_of_ok hstaking
  exact ⟨rfl, weight, by rw [hweight], hpositive⟩

theorem setValidators_error (hnodup : validators.Nodup) (h : setValidators validators s = (.error e, t)) :
    t = s ∧ maxValidators < validators.length := by
  unfold setValidators at h
  rw [require_bind] at h
  split at h
  · rw [require_bind, if_pos (by simpa using hnodup)] at h
    cases congrArg Prod.fst h
  · rename_i hlength
    exact ⟨(congrArg Prod.snd h).symm, by simpa using hlength⟩

/-- What a failed addition leaves: the vote, and the new list of validators if there was room. -/
theorem applyAddValidator_error (hnodup : validators.Nodup) (hnew : target ∉ validators)
    (h : applyAddValidator target validators s = (.error e, t)) :
    (t = s ∧ maxValidators ≤ validators.length) ∨
      (t.world.registry.validators = validators ++ [target] ∧ validators.length < maxValidators) := by
  unfold applyAddValidator at h
  have hnodup' : (validators ++ [target]).Nodup := hnodup.append (List.nodup_singleton _) (List.disjoint_singleton.mpr hnew)
  rcases bind_error_iff.mp h with h | ⟨_, s₁, hset, h⟩
  · obtain ⟨rfl, hlength⟩ := setValidators_error hnodup' h
    rw [List.length_append, List.length_singleton] at hlength
    exact .inl ⟨rfl, by omega⟩
  simp only [setValidators, bind_ok_iff, require_ok_iff, modifyRegistry, write_ok_iff, decide_eq_true_eq,
    List.length_append, List.length_singleton] at hset
  obtain ⟨_, _, ⟨hlength, rfl⟩, _, _, ⟨_, rfl⟩, rfl⟩ := hset
  refine .inr ⟨?_, by omega⟩
  rcases bind_error_iff.mp h with h | ⟨r, _, hread, h⟩
  · cases congrArg Prod.fst h
  obtain rfl := keepsState_registry.eq_of_ok hread
  split at h
  · rcases applyValidatorStake_run h with ⟨-, rfl, -⟩ | ⟨-, happlied⟩
    · rfl
    · cases happlied
      rfl
  · rw [(setValidatorWeight_error h).1]
    rfl

theorem addValidator_error (h : addValidator caller target s = (.error e, t)) :
    LeavesBy (writesFirst caller s (.addValidator target)) caller s t := by
  generalize hresult : (.error e : Except SystemContractError Bool) = result at h
  simp only [writesFirst]
  cases votingRun_of_run (Voting.framed_addValidator caller target) h with
  | refused hrefused =>
    rw [show (addValidatorChecks caller target s).1.isOk = false from hrefused]
    exact leavesBy_false (.inl rfl)
  | recorded => cases hresult
  | @applied validators x t hchecks hreach happly =>
    obtain ⟨rfl, hnodup, hnew⟩ := addValidatorChecks_ok hchecks
    cases x with
    | ok => cases hresult
    | error e' =>
      rw [show addValidatorChecks caller target s = _ from hchecks]
      rcases applyAddValidator_error hnodup hnew happly with ⟨rfl, hfull⟩ | ⟨hvalidators, hroom⟩
      · simp only [Except.isOk, Except.toBool, Nat.not_lt.mpr hfull, decide_false, Bool.or_false, Bool.true_and]
        exact ⟨not_stored_of_withVote (update_self ..), fun hstored =>
          .inl (withValidatorVote_of_stored (by simpa using hstored))⟩
      · simp only [Except.isOk, Except.toBool, hroom, decide_true, Bool.or_true, Bool.true_and]
        refine ⟨fun _ heq => ?_, by simp⟩
        rw [heq] at hvalidators
        exact absurd (congrArg List.length hvalidators) (by simp)

/-- A new stake is refused, torn, or applied and paid from or to the balance. -/
inductive SetStakeRun (s : NativeState κ) (target : Address) (stake : Nat) :
    Except SystemContractError Unit → NativeState κ → Prop
  | refused {error} (h : stakeAffordable s target stake = false) : SetStakeRun s target stake (.error error) s
  | torn {error} (affordable : stakeAffordable s target stake = true) (refused : weightRefused s stake = true) :
    SetStakeRun s target stake (.error error) (withStake s target stake)
  | whole {s' t' updated} (kept : weightRefused s stake = false)
      (balance : updated + stake = s.world.balance target + s.world.registry.stakes target)
      (h : StakeApplied s target stake (.ok ()) s')
      (paid : t' = if updated ≠ s.world.balance target then withFunds s' target updated else s') :
    SetStakeRun s target stake (.ok ()) t'

theorem updatedBalance_ok {balance oldStake newStake : Nat} (h : updatedBalance balance oldStake newStake = .ok updated) :
    updated + newStake = balance + oldStake := by
  unfold updatedBalance at h
  split_ifs at h
  all_goals
    cases h
    omega

theorem setStakeRun_of_run (hweight : ∃ weight, (derivedWeight stake s).1 = .ok weight ∧ weight ≠ 0)
    (h : applySetValidatorStake target stake s = (x, t)) : SetStakeRun s target stake x t := by
  unfold applySetValidatorStake at h
  rcases (keepsState_validateValidatorStakeTotal _ _).bind_cases h with ⟨e, htotals, rfl, rfl⟩ | ⟨totals, htotals, h⟩
  · exact .refused (by rw [stakeAffordable, htotals]; rfl)
  have hchecked : StakeChecked s target stake := ⟨⟨totals, by rw [htotals]⟩, hweight⟩
  rw [read_bind_run, (validateValidatorStakeTotal_ok htotals).1] at h
  cases hupdated : updatedBalance (s.world.balance target) (s.world.registry.stakes target) stake with
  | error e =>
    rw [hupdated, lift_error_bind] at h
    obtain ⟨rfl, rfl⟩ := Prod.mk.inj h
    exact .refused (by rw [stakeAffordable, htotals, hupdated]; rfl)
  | ok updated =>
    rw [hupdated, lift_ok_bind] at h
    rcases happly : applyValidatorStake target stake s with ⟨y, t₁⟩
    have happlied := hchecked.applied happly
    cases y with
    | error e =>
      obtain ⟨rfl, rfl⟩ := Prod.mk.inj ((bind_of_error happly).symm.trans h)
      cases happlied with
      | torn hrefused => exact .torn (by rw [stakeAffordable, htotals, hupdated]; rfl) hrefused
    | ok =>
      rw [bind_of_ok happly] at h
      have hkept : weightRefused s stake = false := by
        cases happlied
        assumption
      have hrun : (x, t) = (.ok (), if updated ≠ s.world.balance target then withFunds t₁ target updated else t₁) := by
        rw [← h]
        split <;> rfl
      obtain ⟨rfl, hpaid⟩ := Prod.mk.inj hrun
      exact .whole hkept (updatedBalance_ok hupdated) happlied hpaid

theorem stakeAffordable_withValidatorVote (key : ValidatorVoteKey) :
    stakeAffordable (withValidatorVote s key) target stake = stakeAffordable s target stake := by
  have htables : stakeTables (withValidatorVote s key) = stakeTables s := rfl
  simp only [stakeAffordable, (stakeTables_congr htables target stake).1]
  rfl

/-- A vote for a new stake that is recorded, and the change of the stake in the state with the vote. -/
theorem setStakeRun_of_voted (hchecks : setValidatorStakeChecks caller stake s = (.ok validators, s))
    (happly : applySetValidatorStake target stake (withValidatorVote s key) = (x, t)) :
    SetStakeRun (withValidatorVote s key) target stake x t := by
  have htables : stakeTables (withValidatorVote s key) = stakeTables s := rfl
  refine setStakeRun_of_run ?_ happly
  rw [(stakeTables_congr htables target stake).2]
  exact (setValidatorStakeChecks_ok hchecks).2

theorem setValidatorStakeOp_error (h : setValidatorStakeOp caller target stake s = (.error e, t)) :
    LeavesBy (writesFirst caller s (.setValidatorStake target stake)) caller s t := by
  generalize hresult : (.error e : Except SystemContractError Bool) = result at h
  simp only [writesFirst]
  cases votingRun_of_run (Voting.framed_setValidatorStake caller target stake) h with
  | refused hrefused =>
    rw [show (setValidatorStakeChecks caller stake s).1.isOk = false from hrefused]
    exact leavesBy_false (.inl rfl)
  | recorded => cases hresult
  | @applied validators x t hchecks hreach happly =>
    have hrun := setStakeRun_of_voted hchecks happly
    obtain ⟨rfl, -⟩ := setValidatorStakeChecks_ok hchecks
    rw [show setValidatorStakeChecks caller stake s = _ from hchecks,
      ← stakeAffordable_withValidatorVote ⟨.setStake stake, target, caller, s.world.registry.validators⟩]
    cases hrun with
    | whole => cases hresult
    | refused hshort =>
      rw [hshort]
      simp only [Except.isOk, Except.toBool, Bool.and_false, Bool.or_false, Bool.true_and]
      exact ⟨not_stored_of_withVote (update_self ..), fun hstored =>
        .inl (withValidatorVote_of_stored (by simpa using hstored))⟩
    | torn hpaid =>
      rw [hpaid]
      simp only [Except.isOk, Except.toBool, Bool.and_true, Bool.true_and]
      refine ⟨fun hwrites => ?_, fun hstored => ?_⟩
      · rcases Bool.or_eq_true_iff.mp hwrites with hnew | hchanged
        · exact not_stored_of_withVote (update_self ..) hnew
        · intro heq
          have hstake := congrArg (fun r => r.stakes target) heq
          rw [stakes_withStake] at hstake
          exact of_decide_eq_true hchanged hstake.symm
      · simp only [Bool.or_eq_false_iff, Bool.not_eq_false', decide_eq_false_iff_not, not_not] at hstored
        rw [withValidatorVote_of_stored hstored.1, ← hstored.2]
        exact .inl (withStake_self s target)

/-! ## Operations that fail clean -/

/-- A vote fails clean if the operation never fails after the checks. -/
theorem Voting.failsClean_run (hv : v.Framed)
    (h : ∀ s t validators key e, v.checks s = (.ok validators, s) → v.apply validators (withValidatorVote s key) ≠
      (.error e, t)) (caller : Address) : (v.run caller).FailsClean := by
  intro s e he
  rcases hrun : v.run caller s with ⟨result, t⟩
  rw [hrun] at he
  subst he
  generalize hresult : (.error e : Except SystemContractError Bool) = result at hrun
  cases votingRun_of_run hv hrun with
  | refused => rfl
  | recorded => cases hresult
  | @applied validators x _ hchecks _ happly =>
    cases x with
    | ok => cases hresult
    | error e' => exact absurd happly (h s _ validators _ e' hchecks)

theorem failsClean_removeValidator (caller target : Address) :
    (removeValidator caller target : NativeM κ Bool).FailsClean := by
  refine Voting.failsClean_run (Voting.framed_removeValidator caller target) ?_ caller
  intro s t validators key e hchecks happly
  simp only [removeValidatorChecks, getValidators, registry, bind_ok_iff, read_ok_iff, require_ok_iff, pure_ok_iff,
    decide_eq_true_eq] at hchecks
  obtain ⟨_, _, ⟨_, _, ⟨rfl, rfl⟩, _, _, ⟨hlength, rfl⟩, _, _, ⟨hnodup, rfl⟩, rfl, rfl⟩, _, _, _, _, _, _, _, _, _, rfl, _⟩ :=
    hchecks
  have hlarge := (setValidators_error (hnodup.erase target) happly).2
  have herase := List.length_erase_le (a := target) (l := s.world.registry.validators)
  omega

theorem failsClean_setValidatorWeightOp (caller target : Address) (newWeight : Nat) :
    (setValidatorWeightOp caller target newWeight : NativeM κ Bool).FailsClean := by
  refine Voting.failsClean_run (Voting.framed_setValidatorWeight caller target newWeight) ?_ caller
  intro s t validators key e hchecks happly
  simp only [setValidatorWeightChecks, bind_ok_iff, require_ok_iff, decide_eq_true_eq] at hchecks
  obtain ⟨_, _, _, _, _, _, _, _, _, _, _, _, _, _, _, _, _, _, _, _, ⟨hle, _⟩, _⟩ := hchecks
  exact absurd (setValidatorWeight_error happly).2 (by omega)

theorem failsClean_registerProver (number : Nat) (caller : Address) (publicKey : Bytes) (algorithm : UInt8) :
    (registerProver Γ number caller publicKey algorithm : NativeM κ Bool).FailsClean := by
  refine Voting.failsClean_run (v := ⟨.registerProver, Address.fromPublicKey Γ publicKey algorithm,
    registerProverChecks Γ caller publicKey algorithm, fun _ =>
      setRegisteredProver (Address.fromPublicKey Γ publicKey algorithm) ⟨publicKey, algorithm, number, 0, 0⟩⟩)
    ⟨keepsState_registerProverChecks _ _ _, fun _ => voteFrame_setRegisteredProver _ _⟩ ?_ caller
  intro s t validators key e hchecks happly
  unfold registerProverChecks at hchecks
  cases htype : SignatureType.fromU8 algorithm with
  | none =>
    rw [htype] at hchecks
    cases congrArg Prod.fst hchecks
  | some signatureType =>
    simp only [htype, bind_ok_iff, require_ok_iff, decide_eq_true_eq] at hchecks
    obtain ⟨_, _, ⟨hlength, _⟩, _⟩ := hchecks
    have hvalid : publicKey ≠ [] ∧ publicKey.length ≤ 4096 := by
      rw [← List.length_pos_iff, hlength]
      cases signatureType
      · decide
      · decide
      · decide
    unfold setRegisteredProver at happly
    rw [require_bind, if_pos (by simpa using hvalid)] at happly
    cases congrArg Prod.fst happly

end Native

/-! ## Calls -/

namespace RegistryCall

variable {s t : NativeState κ} {e : SystemContractError}

/-- What a failed call leaves: the writes it made before its last checks, and else nothing. -/
theorem execute_error {call : RegistryCall} {ctx : ExecContext} {caller : Address}
    (hrange : s.world.balance caller ≤ u256Max) (h : call.execute Γ rules ctx caller s = (.error e, t)) :
    LeavesBy (call.writesFirst caller s) caller s t := by
  have hclean : ∀ {α : Type} {x : NativeM κ α}, x.FailsClean → x s = (.error e, t) → LeavesBy false caller s t :=
    fun hx hrun => leavesBy_false (.inl (hx.eq_of_error hrun))
  cases call with
  | addValidator target => exact addValidator_error (bind_pure_error_iff.mp h)
  | setValidatorStake target stake => exact setValidatorStakeOp_error (bind_pure_error_iff.mp h)
  | bondValidatorStake target amount => exact bondValidatorStake_error (bind_pure_error_iff.mp h)
  | unbondValidatorStake target amount => exact unbondValidatorStake_error hrange (bind_pure_error_iff.mp h)
  | removeValidator target => exact hclean (failsClean_removeValidator _ _) (bind_pure_error_iff.mp h)
  | setValidatorWeight target weight => exact hclean (failsClean_setValidatorWeightOp _ _ _) (bind_pure_error_iff.mp h)
  | registerProver params =>
    exact hclean (Atomic.failsClean (.require fun _ => .lift fun _ _ =>
      (failsClean_registerProver _ _ _ _).atomic.bind_total fun _ => .pure _)) h
  | getAlgorithmProposal params => exact hclean keepsState_getAlgorithmProposalCall.failsClean h
  | getValidators | isValidator => exact hclean keepsState_getValidators.failsClean (bind_pure_error_iff.mp h)
  | _ => exact hclean (atomic_execute (by exact trivial) ctx caller).failsClean h

end RegistryCall

end ShellChain
