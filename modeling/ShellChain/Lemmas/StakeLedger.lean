import ShellChain.Lemmas.LateFailures
import ShellChain.Lib.Ledger

/-!
# What the registry does to balances and stakes

The balances, the stakes and the stored total of a state are a ledger. Every operation on stakes rewrites the entry of its
target at most. It moves an amount between balance and stake and lets the total follow, or it leaves a torn entry: the
stake is written before the weight is checked, and an unbonding lowers the stake before it credits the balance.
-/

namespace ShellChain

open Effect RegistryCall Function WorldState

variable {κ : Type}

/-- The balances and the stakes of a state, with the stored total of the stakes. -/
def ledger (s : NativeState κ) : Ledger Address :=
  ⟨s.world.balance, s.world.registry.stakes, s.world.registry.totalStaked⟩

/-- A validator has the weight that its stake gives, and that is not zero. -/
def WeightDerived (s : NativeState κ) (validator : Address) : Prop :=
  s.world.registry.getValidatorWeight validator = stakeWeight s (s.world.registry.stakes validator) ∧
    1 ≤ stakeWeight s (s.world.registry.stakes validator)

/-- A call passes the checks before its first write, writes a stake that is not the stored one, and then fails. -/
def RegistryCall.tears (caller : Address) (s : NativeState κ) : RegistryCall → Bool
  | setValidatorStake target stake =>
    let r := s.world.registry
    (Native.setValidatorStakeChecks caller stake s).1.isOk &&
      Native.votesReach (r.withVote ⟨.setStake stake, target, caller, r.validators⟩) (.setStake stake) target r.validators &&
      decide (r.stakes target ≠ stake) && Native.stakeAffordable s target stake && weightRefused s stake
  | bondValidatorStake target amount =>
    RegistryCall.writesFirst caller s (.bondValidatorStake target amount) &&
      weightRefused s (s.world.registry.stakes target + amount)
  | unbondValidatorStake target amount =>
    RegistryCall.writesFirst caller s (.unbondValidatorStake target amount) &&
      (weightRefused s (s.world.registry.stakes target - amount) || decide (u256Max < s.world.balance caller + amount))
  | _ => false

/-- What an operation does to the entry of its target, by whether it tears it. -/
def LedgerStep (torn : Bool) (s : NativeState κ) (target : Address) (result : Except SystemContractError Bool)
    (t : NativeState κ) : Prop :=
  (torn = true → (ledger s).Torn (ledger t) target) ∧
    (torn = false → (ledger s).Moved (ledger t) target ∧ (result = .ok true → WeightDerived t target))

/-- The step of an operation, which tears an entry only where it fails. -/
def LedgerRun (torn : Bool) (s : NativeState κ) (target : Address) (result : Except SystemContractError Bool)
    (t : NativeState κ) : Prop :=
  LedgerStep torn s target result t ∧ (torn = true → ∃ e, result = .error e)

/-! ## Entries -/

section Entries

variable {s t : NativeState κ} {target : Address} {stake total : Nat}

theorem ledger_withStake (s : NativeState κ) (target : Address) (stake : Nat) : ledger (withStake s target stake) =
      (ledger s).rebook target ((ledger s).free target) stake (ledger s).total := by
  simp only [ledger, withStake, Ledger.rebook, update_eq_self]
  rfl

theorem ledger_staked (s : NativeState κ) (target : Address) (stake total : Nat) :
    ledger (staked s target stake total) = (ledger s).rebook target ((ledger s).free target) stake total := by
  simp only [ledger, staked, Ledger.rebook, update_eq_self]
  rfl

theorem balance_setBalance (w : WorldState κ) (a : Address) (amount : Nat) :
    (w.setBalance a amount).balance = update w.balance a amount := by
  funext b
  by_cases h : b = a
  · subst h
    simp [balance, setBalance, setAccount, account]
  · simp [balance, setBalance, setAccount, account, h]

theorem ledger_withFunds (s : NativeState κ) (a : Address) (amount : Nat) :
    ledger (Native.withFunds s a amount) = (ledger s).rebook a amount ((ledger s).bound a) (ledger s).total := by
  simp only [ledger, Native.withFunds, Ledger.rebook, balance_setBalance, update_eq_self]
  rfl

theorem rebook_rebook (L : Ledger Address) (a : Address) (free bound total free' bound' total' : Nat) :
    (L.rebook a free bound total).rebook a free' bound' total' = L.rebook a free' bound' total' := by
  simp [Ledger.rebook]

theorem weightDerived_staked (h : stakeWeight s stake ≠ 0) : WeightDerived (staked s target stake total) target := by
  have hstake : (staked s target stake total).world.registry.stakes target = stake := update_self ..
  have hweight : (staked s target stake total).world.registry.weights target = stakeWeight s stake :=
    update_self ..
  unfold WeightDerived
  rw [hstake, RegistryStorage.getValidatorWeight, hweight]
  change max (stakeWeight s stake) 1 = stakeWeight s stake ∧ 1 ≤ stakeWeight s stake
  omega

variable {result : Except SystemContractError Bool}

theorem ledgerRun_of_eq (h : ledger t = ledger s) (hresult : result ≠ .ok true) : LedgerRun false s target result t := by
  refine ⟨⟨(fun hfalse => nomatch hfalse), fun _ => ⟨?_, fun htrue => absurd htrue hresult⟩⟩, nofun⟩
  rw [h]
  exact ⟨_, _, _, ((ledger s).rebook_self target).symm, rfl, rfl⟩

/-- An entry that is rewritten is torn exactly when its numbers do not add up. -/
theorem ledgerRun_of_rebook {torn : Bool} {free bound : Nat} (h : ledger t = (ledger s).rebook target free bound total)
    (htorn : torn = false ↔ free + bound = (ledger s).free target + (ledger s).bound target ∧
      total + (ledger s).bound target = (ledger s).total + bound) (hweight : result = .ok true → WeightDerived t target)
    (herror : torn = true → ∃ e, result = .error e) : LedgerRun torn s target result t := by
  refine ⟨⟨fun htrue => ⟨free, bound, total, h, fun hsums => ?_⟩, fun hfalse => ⟨?_, hweight⟩⟩, herror⟩
  · rw [htorn.mpr hsums] at htrue
    cases htrue
  · obtain ⟨hamount, htotal⟩ := htorn.mp hfalse
    exact ⟨free, bound, total, h, hamount, htotal⟩

end Entries

namespace Native

variable {s t : NativeState κ} {caller target : Address} {amount stake : Nat} {x : Except SystemContractError Unit}

/-! ## Bonding -/

theorem bondValidatorStake_run (h : bondValidatorStake caller target amount s = (result, t)) :
    LedgerRun (tears caller s (.bondValidatorStake target amount)) s target result t := by
  simp only [tears, writesFirst]
  cases bondRun_of_run h with
  | refused hrefused =>
    rw [Bool.and_assoc (decide (amount ≠ 0)), hrefused, Bool.and_false, Bool.false_and]
    exact ledgerRun_of_eq rfl (by simp)
  | applied hself hchecks hcovered happlied =>
    subst hself
    simp only [hchecks, hcovered, decide_true, Bool.and_true]
    have hfunds := ledger_withFunds s caller (s.world.balance caller - amount)
    cases happlied with
    | torn hrefused =>
      have ht := ledger_withStake (withFunds s caller (s.world.balance caller - amount)) caller
        (s.world.registry.stakes caller + amount)
      rw [hfunds, rebook_rebook] at ht
      refine ledgerRun_of_rebook ht ?_ (by simp [Except.map]) fun _ => ⟨_, rfl⟩
      rw [show weightRefused s (s.world.registry.stakes caller + amount) = true from hrefused]
      simp only [Bool.and_true, decide_eq_false_iff_not, not_not, ledger, Ledger.rebook, update_self]
      omega
    | @whole total hkept hpositive hsum =>
      have ht := ledger_staked (withFunds s caller (s.world.balance caller - amount)) caller
        (s.world.registry.stakes caller + amount) total
      rw [hfunds, rebook_rebook] at ht
      refine ledgerRun_of_rebook ht ?_ (fun _ => weightDerived_staked hpositive) (by
        rw [show weightRefused s (s.world.registry.stakes caller + amount) = false from hkept]
        simp)
      rw [show weightRefused s (s.world.registry.stakes caller + amount) = false from hkept]
      change total + s.world.registry.stakes caller = s.world.registry.totalStaked + _ at hsum
      simp only [Bool.and_false, true_iff, ledger, Ledger.rebook, update_self]
      omega

theorem unbondValidatorStake_run (h : unbondValidatorStake caller target amount s = (result, t)) :
    LedgerRun (tears caller s (.unbondValidatorStake target amount)) s target result t := by
  simp only [tears, writesFirst]
  cases unbondRun_of_run h with
  | refused hrefused =>
    rw [hrefused, Bool.and_false, Bool.false_and]
    exact ledgerRun_of_eq rfl (by simp)
  | applied hself hchecks hcovered happlied hcredit =>
    subst hself
    simp only [hchecks, Bool.and_true]
    cases happlied with
    | torn hrefused =>
      rcases hcredit with ⟨hok, -⟩ | ⟨-, herror, rfl⟩
      · cases hok
      refine ledgerRun_of_rebook (ledger_withStake s caller _) ?_ (by
        obtain ⟨e, rfl⟩ := herror
        simp) fun _ => herror
      simp only [hrefused, Bool.true_or, Bool.and_true, decide_eq_false_iff_not, not_not, ledger]
      omega
    | @whole total hkept hpositive hsum =>
      have hstaked := ledger_staked s caller (s.world.registry.stakes caller - amount) total
      simp only [hkept, Bool.false_or]
      rcases hcredit with ⟨-, hfits, rfl, rfl⟩ | ⟨hoverflow, herror, rfl⟩
      · have ht := ledger_withFunds (staked s caller (s.world.registry.stakes caller - amount) total) caller
          (s.world.balance caller + amount)
        rw [hstaked, rebook_rebook] at ht
        refine ledgerRun_of_rebook ht ?_ (fun _ => weightDerived_staked hpositive) (by simp [hfits])
        simp only [Nat.not_lt.mpr hfits, decide_false, Bool.and_false, true_iff, ledger, Ledger.rebook, update_self]
        omega
      · refine ledgerRun_of_rebook hstaked ?_ (by
          obtain ⟨e, rfl⟩ := herror
          simp) fun _ => herror
        simp only [hoverflow rfl, decide_true, Bool.and_true, decide_eq_false_iff_not, not_not, ledger]
        omega

/-! ## Votes -/

/-- What setting a stake does to the ledger, after the vote. -/
theorem SetStakeRun.ledgerRun (h : SetStakeRun s target stake x t) :
    LedgerRun (decide (s.world.registry.stakes target ≠ stake) && stakeAffordable s target stake && weightRefused s stake)
      s target (x.map fun _ => true) t := by
  cases h with
  | refused hshort =>
    rw [hshort, Bool.and_false, Bool.false_and]
    exact ledgerRun_of_eq rfl (by simp [Except.map])
  | torn hpaid hrefused =>
    refine ledgerRun_of_rebook (ledger_withStake s target stake) ?_ (by simp [Except.map]) fun _ => ⟨_, rfl⟩
    simp only [hpaid, hrefused, Bool.and_true, decide_eq_false_iff_not, not_not, ledger]
    omega
  | @whole _ _ updated hkept hbalance happlied hpaid =>
    obtain _ | @⟨total, _, hpositive, hsum⟩ := happlied
    have hderived : WeightDerived (staked s target stake total) target := weightDerived_staked hpositive
    have ht := ledger_staked s target stake total
    rw [hkept, Bool.and_false]
    -- the balance is written only when it changes, which makes no difference to the entry
    have hledger : ledger t = (ledger s).rebook target updated stake total ∧ WeightDerived t target := by
      subst hpaid
      split
      · refine ⟨?_, hderived⟩
        rw [ledger_withFunds, ht, rebook_rebook]
        simp only [Ledger.rebook, update_self]
      · rename_i hsame
        exact ⟨by rw [ht, not_not.mp hsame]; rfl, hderived⟩
    refine ledgerRun_of_rebook hledger.1 ?_ (fun _ => hledger.2) (by simp)
    simp only [ledger, true_iff]
    omega

theorem setValidatorStakeOp_run (h : setValidatorStakeOp caller target stake s = (result, t)) :
    LedgerRun (tears caller s (.setValidatorStake target stake)) s target result t := by
  simp only [tears]
  cases votingRun_of_run (Voting.framed_setValidatorStake caller target stake) h with
  | refused hrefused =>
    rw [show (setValidatorStakeChecks caller stake s).1.isOk = false from hrefused, Bool.false_and, Bool.false_and,
      Bool.false_and, Bool.false_and]
    exact ledgerRun_of_eq rfl (by simp)
  | recorded hchecks hshort =>
    obtain ⟨rfl, -⟩ := setValidatorStakeChecks_ok hchecks
    simp only at hshort
    simp only [hshort, Bool.and_false, Bool.false_and]
    exact ledgerRun_of_eq rfl (by simp)
  | applied hchecks hreach happly =>
    have hrun := (setStakeRun_of_voted hchecks happly).ledgerRun
    obtain ⟨rfl, -⟩ := setValidatorStakeChecks_ok hchecks
    simp only at hreach
    rw [stakeAffordable_withValidatorVote] at hrun
    rw [show setValidatorStakeChecks caller stake s = _ from hchecks, hreach]
    exact hrun

/-! ## Members -/

theorem ledger_setValidators (validators : List Address) :
    (setValidators validators : NativeM κ Unit).Within (Same fun s => (ledger s, s.world.registry.stakingEnabled)) :=
  .require fun _ => .require fun _ => within_write fun _ => rfl

/-- A new member keeps the stake it has, and gets the weight of it. -/
theorem applyAddValidator_run {validators : List Address}
    (h : applyAddValidator target validators s = (x, t)) :
    ledger t = ledger s ∧ (x = .ok () → s.world.registry.stakingEnabled = true → WeightDerived t target) := by
  unfold applyAddValidator at h
  rcases hset : setValidators (validators ++ [target]) s with ⟨e | ⟨⟩, s₁⟩
  · obtain ⟨rfl, rfl⟩ := Prod.mk.inj ((bind_of_error hset).symm.trans h)
    exact ⟨congrArg Prod.fst ((ledger_setValidators _).of_run hset), nofun⟩
  obtain ⟨hledger, hstaking⟩ := Prod.mk.inj ((ledger_setValidators _).of_run hset)
  rw [bind_of_ok hset] at h
  replace h : (if s₁.world.registry.stakingEnabled then applyValidatorStake target (s₁.world.registry.stakes target)
    else setValidatorWeight target 1 : NativeM κ Unit) s₁ = (x, t) := h
  rw [← hledger, ← hstaking]
  split at h
  · rcases applyValidatorStake_run h with ⟨-, rfl, e, rfl⟩ | ⟨-, happlied⟩
    · exact ⟨rfl, nofun⟩
    cases happlied with
    | torn => exact ⟨by rw [withStake_self], nofun⟩
    | @whole total _ hpositive hsum =>
      refine ⟨?_, fun _ _ => weightDerived_staked hpositive⟩
      obtain rfl : total = s₁.world.registry.totalStaked := by omega
      rw [ledger_staked]
      exact (ledger s₁).rebook_self target
  case isFalse hdisabled =>
    have hweight : (setValidatorWeight target 1 : NativeM κ Unit).Within (Same ledger) :=
      .require fun _ => within_write fun _ => rfl
    exact ⟨hweight.of_run h, fun _ henabled => absurd henabled hdisabled⟩

theorem addValidator_run (h : addValidator caller target s = (result, t)) :
    ledger t = ledger s ∧ (result = .ok true → s.world.registry.stakingEnabled = true → WeightDerived t target) := by
  cases votingRun_of_run (Voting.framed_addValidator caller target) h with
  | refused | recorded => exact ⟨rfl, nofun⟩
  | @applied _ x _ _ _ happly =>
    obtain ⟨hledger, hweight⟩ := applyAddValidator_run happly
    refine ⟨hledger, fun hok => hweight ?_⟩
    cases x with
    | error e => cases hok
    | ok => rfl

theorem removeValidator_run (h : removeValidator caller target s = (result, t)) :
    ledger t = ledger s := by
  cases votingRun_of_run (Voting.framed_removeValidator caller target) h with
  | refused => rfl
  | recorded => rfl
  | applied _ _ happly => exact congrArg Prod.fst ((ledger_setValidators _).of_run happly)

end Native

end ShellChain
