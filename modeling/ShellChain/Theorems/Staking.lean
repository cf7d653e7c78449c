import Mathlib.Data.FinEnum
import ShellChain.Lemmas.StakeLedger
import ShellChain.SampleExecutor

/-!
# Conservation of stake

Runs of the calls that add and remove validators and that set, bond and unbond stakes, whether they succeed or fail. The
stored total stays the sum of all stakes, nothing is lost between balances and stakes, and a stake that was applied gives its
validator the weight that follows from it.

A failed call leaves a torn entry in two cases: the weight of a stake is found too large after the stake is written, or the
credit of an unbonding overflows the balance after the stake is lowered.
-/

namespace ShellChain

variable {κ : Type}

/-! ## Calls -/

/-- The operations on members and stakes. -/
inductive StakingOp
  | addValidator
  | removeValidator
  | setValidatorStake (stake : Nat)
  | bondValidatorStake (amount : Nat)
  | unbondValidatorStake (amount : Nat)
  deriving DecidableEq

/-- A call of one of them. -/
structure StakingCall where
  caller : Address
  target : Address
  op : StakingOp
  deriving DecidableEq

namespace StakingCall

def registryCall (c : StakingCall) : RegistryCall :=
  match c.op with
  | .addValidator => .addValidator c.target
  | .removeValidator => .removeValidator c.target
  | .setValidatorStake stake => .setValidatorStake c.target stake
  | .bondValidatorStake amount => .bondValidatorStake c.target amount
  | .unbondValidatorStake amount => .unbondValidatorStake c.target amount

/-- The operation; the result says whether it was applied, and a vote without the majority is not. -/
def execute (c : StakingCall) : NativeM κ Bool :=
  match c.op with
  | .addValidator => Native.addValidator c.caller c.target
  | .removeValidator => Native.removeValidator c.caller c.target
  | .setValidatorStake stake => Native.setValidatorStakeOp c.caller c.target stake
  | .bondValidatorStake amount => Native.bondValidatorStake c.caller c.target amount
  | .unbondValidatorStake amount => Native.unbondValidatorStake c.caller c.target amount

def changesMembers (c : StakingCall) : Bool :=
  match c.op with
  | .addValidator | .removeValidator => true
  | _ => false

/-- The operation derives the weight of its target when it is applied in a state. -/
def derivesWeight (c : StakingCall) (s : NativeState κ) : Bool :=
  match c.op with
  | .addValidator => s.world.registry.stakingEnabled
  | .removeValidator => false
  | _ => true

/-- The call fails after it wrote a stake. -/
def tears (c : StakingCall) (s : NativeState κ) : Bool :=
  c.registryCall.tears c.caller s

end StakingCall

/-- The calls one after another. What a failed call wrote stays. -/
def stakingSystem (κ : Type) : TransitionSystem (NativeState κ) StakingCall where
  step s c := (c.execute s).2

/-! ## Conservation -/

instance : Finite Address :=
  have hvectors : Finite (List.Vector UInt8 32) := inferInstance
  @Finite.of_injective Address (List.Vector UInt8 32) hvectors (fun a => ⟨a.bytes, a.length_eq⟩)
    fun _ _ h => Address.ext (congrArg Subtype.val h)

noncomputable instance : Fintype Address :=
  .ofFinite Address

/-- What a call keeps: the total is the sum of the stakes of all addresses, the sum of all balances and stakes is what it
was, a stake that was applied gives its weight, and a change of the members moves no amount at all. -/
structure StakeConserved (s : NativeState κ) (c : StakingCall) : Prop where
  total : (ledger (c.execute s).2).Balanced
  holdings : (ledger (c.execute s).2).holdings = (ledger s).holdings
  weight : (c.execute s).1 = .ok true → c.derivesWeight s = true → WeightDerived (c.execute s).2 c.target
  members : c.changesMembers = true → ledger (c.execute s).2 = ledger s

variable {c : StakingCall} {s : NativeState κ}

theorem stakeConserved_iff_of_ledgerStep (h : (ledger s).Balanced)
    (hstep : LedgerStep (c.tears s) s c.target (c.execute s).1 (c.execute s).2) (hmembers : c.changesMembers = false) :
    StakeConserved s c ↔ c.tears s = false := by
  constructor
  · intro hconserved
    by_contra htorn
    exact (hstep.1 (by simpa using htorn)).breaks h ⟨hconserved.total, hconserved.holdings⟩
  · intro hwhole
    obtain ⟨hmoved, hweight⟩ := hstep.2 hwhole
    obtain ⟨htotal, hholdings⟩ := hmoved.keeps h
    exact ⟨htotal, hholdings, fun hok _ => hweight hok, fun htrue => by simp [hmembers] at htrue⟩

theorem stakeConserved_of_ledger_eq (h : (ledger s).Balanced) (hledger : ledger (c.execute s).2 = ledger s)
    (hweight : (c.execute s).1 = .ok true → c.derivesWeight s = true → WeightDerived (c.execute s).2 c.target) :
    StakeConserved s c :=
  ⟨by rwa [hledger], by rw [hledger], hweight, fun _ => hledger⟩

/-- One call in a state whose total is the sum of the stakes: it conserves them exactly when it does not tear an entry. -/
theorem stakeConserved_iff (h : (ledger s).Balanced) (c : StakingCall) : StakeConserved s c ↔ c.tears s = false := by
  obtain ⟨caller, target, op⟩ := c
  cases op with
  | addValidator =>
    have hrun : Native.addValidator caller target s = (_, _) := rfl
    obtain ⟨hledger, hweight⟩ := Native.addValidator_run hrun
    exact iff_of_true (stakeConserved_of_ledger_eq h hledger hweight) rfl
  | removeValidator =>
    have hrun : Native.removeValidator caller target s = (_, _) := rfl
    have hledger := Native.removeValidator_run hrun
    exact iff_of_true (stakeConserved_of_ledger_eq h hledger fun _ hfalse => nomatch hfalse) rfl
  | setValidatorStake stake => exact stakeConserved_iff_of_ledgerStep h (Native.setValidatorStakeOp_run rfl).1 rfl
  | bondValidatorStake amount => exact stakeConserved_iff_of_ledgerStep h (Native.bondValidatorStake_run rfl).1 rfl
  | unbondValidatorStake amount => exact stakeConserved_iff_of_ledgerStep h (Native.unbondValidatorStake_run rfl).1 rfl

/-- For every run of calls from a state whose total is the sum of the stakes: every call of the run conserves the stakes
exactly when no call of the run fails after it wrote one. -/
theorem stakes_conserved_iff {s : NativeState κ} (h : (ledger s).Balanced) (calls : List StakingCall) :
    (stakingSystem κ).Admits StakeConserved s calls ↔
      (stakingSystem κ).Admits (fun s c => c.tears s = false) s calls :=
  TransitionSystem.admits_iff_of_invariant (I := fun s => (ledger s).Balanced)
    (fun _ c hbalanced => stakeConserved_iff hbalanced c) (fun _ _ _ hconserved => hconserved.total) h

/-! ## A run that conserves, and two torn entries -/

namespace BondedValidator

/-- The state with one validator, staking on with a unit of one, and a balance and a stake of the validator. -/
def staking (maxWeight balance stake : Nat) : NativeState Unit :=
  let s := withBalance (nativeGenesis [nativeAddress 1]) (nativeAddress 1) balance
  { s with world := s.world.mapRegistry fun r => { r with
      stakingEnabled := true, stakeUnit := 1, maxWeight := maxWeight
      stakes := Function.update r.stakes (nativeAddress 1) stake, totalStaked := stake } }

theorem staking_balanced (maxWeight balance stake : Nat) : (ledger (staking maxWeight balance stake)).Balanced := by
  have hzero : (ledger (nativeGenesis [nativeAddress 1])).Balanced := Finset.sum_const_zero.symm
  refine (Ledger.balanced_rebook_iff hzero (nativeAddress 1) balance stake stake).mpr ?_
  change stake + 0 = 0 + stake
  omega

/-- The validator bonds, unbonds, sets its own stake, fails to unbond everything, and fails to remove itself. -/
def calls : List StakingCall :=
  [.bondValidatorStake 5, .unbondValidatorStake 2, .setValidatorStake 4, .unbondValidatorStake 4, .removeValidator].map
    fun op => ⟨nativeAddress 1, nativeAddress 1, op⟩

theorem calls_conserve :
    (ledger (staking 10 100 0)).Balanced ∧ (stakingSystem Unit).Admits StakeConserved (staking 10 100 0) calls := by
  have hwhole : (stakingSystem Unit).Admits (fun s c => c.tears s = false) (staking 10 100 0) calls := by decide +kernel
  exact ⟨staking_balanced 10 100 0, (stakes_conserved_iff (staking_balanced 10 100 0) calls).mpr hwhole⟩

end BondedValidator

namespace TornEntryCex

open BondedValidator

/-- An unbonding of a validator whose balance is nearly full. -/
def unbond : StakingCall :=
  ⟨nativeAddress 1, nativeAddress 1, .unbondValidatorStake 5⟩

/-- A bond whose weight is above the largest, in a state that stores no bound of its own. -/
def bond : StakingCall :=
  ⟨nativeAddress 1, nativeAddress 1, .bondValidatorStake 2000000⟩

/-- The stake and the balance of the validator, and the total. -/
def entry (s : NativeState Unit) : Nat × Nat × Nat :=
  (s.world.registry.stakes (nativeAddress 1), s.world.balance (nativeAddress 1), s.world.registry.totalStaked)

/-- The unbonding fails and takes the stake all the same; the bond fails and leaves a stake that the total does not
count. -/
theorem amounts_not_conserved :
    let full := staking 10 (u256Max - 3) 10
    let unbounded := staking 0 3000000 0
    (ledger full).Balanced ∧ (ledger unbounded).Balanced ∧
      (unbond.execute full).1.isOk = false ∧ entry full = (10, u256Max - 3, 10) ∧
      entry (unbond.execute full).2 = (5, u256Max - 3, 5) ∧ ¬ StakeConserved full unbond ∧
      (bond.execute unbounded).1.isOk = false ∧ entry (bond.execute unbounded).2 = (2000000, 1000000, 0) ∧
      ¬ StakeConserved unbounded bond := by
  intro full unbounded
  have hfull : (ledger full).Balanced := staking_balanced _ _ _
  have hunbounded : (ledger unbounded).Balanced := staking_balanced _ _ _
  have htorn : unbond.tears full = true ∧ bond.tears unbounded = true := by decide +kernel
  have hruns : (unbond.execute full).1.isOk = false ∧ entry full = (10, u256Max - 3, 10) ∧
      entry (unbond.execute full).2 = (5, u256Max - 3, 5) ∧ (bond.execute unbounded).1.isOk = false ∧
      entry (bond.execute unbounded).2 = (2000000, 1000000, 0) := by
    decide +kernel
  obtain ⟨hunbond, hbefore, hafter, hbond, huncounted⟩ := hruns
  refine ⟨hfull, hunbounded, hunbond, hbefore, hafter, ?_, hbond, huncounted, ?_⟩
  · rw [stakeConserved_iff hfull, htorn.1]
    exact nofun
  · rw [stakeConserved_iff hunbounded, htorn.2]
    exact nofun

end TornEntryCex

end ShellChain
