import ShellChain.Lemmas.LateFailures
import ShellChain.SampleExecutor

/-!
# What a failed native call leaves behind

The executor charges the nonce and the gas of a native call that fails, and does not take back what the call wrote. A vote
whose operation then fails, and a stake whose weight is refused, stay.
-/

namespace ShellChain

open Effect ValidationView RegistryCall

variable {κ : Type} {vm : Vm κ} {ctx : ExecContext} {stx : SignedTransaction} {target : Address}

/-! ## The charge -/

/-- The state with the nonce of the caller advanced and its gas charged. -/
def chargedState (s : NativeState κ) (caller : Address) (cost : Nat) : NativeState κ :=
  { s with world := s.world.setAccount caller { s.world.account caller with
      nonce := (s.world.account caller).nonce + 1, balance := (s.world.account caller).balance - cost } }

variable {e e' : Executor κ} {caller : Address} {s t : NativeState κ}

theorem tryWorld_ok {f : WorldState κ → Option (WorldState κ)} {error : ExecutorError}
    (h : (tryWorld f error : ExecutorM κ Unit) e = (.ok (), e')) :
    ∃ w, f e.state.world = some w ∧ e' = e.mapWorld fun _ => w := by
  unfold tryWorld at h
  cases hf : f e.state.world with
  | none =>
    rw [hf] at h
    cases congrArg Prod.fst h
  | some w =>
    rw [hf] at h
    exact ⟨w, rfl, (congrArg Prod.snd h).symm⟩

theorem account_setAccount_self (w : WorldState κ) (a : Address) (record : Account) :
    (w.setAccount a record).account a = record := by
  simp [WorldState.account, WorldState.setAccount]

theorem setAccount_setAccount (w : WorldState κ) (a : Address) (first second : Account) :
    (w.setAccount a first).setAccount a second = w.setAccount a second := by
  simp [WorldState.setAccount]

theorem chargeSystemCall_ok {gasUsed price : Nat}
    (h : (Vm.chargeSystemCall caller gasUsed price : ExecutorM κ Unit) e = (.ok (), e')) :
    e'.state = chargedState e.state caller (saturatingMul gasUsed price) := by
  unfold Vm.chargeSystemCall at h
  obtain ⟨_, e₁, hnonce, hcharge⟩ := bind_ok_iff.mp h
  obtain ⟨w, hw, rfl⟩ := tryWorld_ok hnonce
  obtain ⟨w', hw', rfl⟩ := tryWorld_ok hcharge
  simp only [WorldState.incrementNonce, checkedAdd, Option.map_eq_some_iff] at hw
  obtain ⟨nonce, hnext, rfl⟩ := hw
  split at hnext
  · cases hnext
    simp only [Executor.mapWorld, WorldState.subBalance, WorldState.balance, WorldState.setBalance,
      account_setAccount_self, setAccount_setAccount] at hw'
    split at hw'
    · cases hw'
      rfl
    · cases hw'
  · cases hnext

theorem LeavesBy.charged_iff {writes : Bool} (h : LeavesBy writes caller s t) (cost : Nat) :
    chargedState t caller cost = chargedState s caller cost ↔ writes = false := by
  cases writes with
  | false =>
    refine ⟨fun _ => rfl, fun _ => ?_⟩
    rcases h.2 rfl with rfl | rfl
    · rfl
    · simp only [chargedState, account_setAccount_self, setAccount_setAccount]
  | true =>
    refine ⟨fun heq => ?_, fun hfalse => nomatch hfalse⟩
    exact absurd (congrArg (fun u => u.world.registry) heq) (h.1 rfl)

/-! ## The call -/

namespace Vm

/-- The call of a transaction reaches the operations of the registry: it sends no value, and during emergency governance it
needs no governance signature, or has one for a change of the validators. -/
def reachesRegistry (vm : Vm κ) (ctx : ExecContext) (target : Address) (stx : SignedTransaction) (s : NativeState κ) :
    Bool :=
  let selector := stx.tx.data.take 4
  decide (target = ValidationView.validatorRegistryAddr) && decide (stx.tx.value = 0) &&
    (!emergencyGovernanceActive ctx || !isGovernanceMutation vm.toCtx selector ||
      (!isRegistryMutation vm.toCtx selector && vm.governanceAuthorised ctx stx false s))

/-- A transaction calls an operation of the registry that passes its checks before the first write. -/
def writesFirst (vm : Vm κ) (ctx : ExecContext) (target : Address) (stx : SignedTransaction) (s : NativeState κ) : Bool :=
  vm.reachesRegistry ctx target stx s &&
    match RegistryCall.decode vm.toCtx stx.tx.data with
    | .ok call => call.writesFirst stx.sender s
    | .error _ => false

variable {s t : NativeState κ} {error : SystemContractError}
  {caller : Address} {input : Bytes} {rules : NativeRules} {Γ : Ctx} {e e' : Executor κ}

/-- A registry call without the detour of emergency governance. -/
theorem executeSystemContractCallAtBlock_error (hrange : s.world.balance caller ≤ u256Max)
    (h : executeSystemContractCallAtBlock Γ rules ctx target caller input s = (.error error, t)) :
    LeavesBy (decide (target = validatorRegistryAddr) && match decode Γ input with
      | .ok call => call.writesFirst caller s
      | .error _ => false) caller s t := by
  unfold executeSystemContractCallAtBlock at h
  by_cases hregistry : target = validatorRegistryAddr
  · rw [if_pos hregistry] at h
    simp only [hregistry, decide_true, Bool.true_and]
    unfold executeValidatorRegistry at h
    cases hdecode : decode Γ input with
    | error e =>
      rw [hdecode, lift_error_bind] at h
      exact leavesBy_false (.inl (congrArg Prod.snd h).symm)
    | ok call =>
      rw [hdecode, lift_ok_bind] at h
      exact execute_error hrange h
  · rw [if_neg hregistry] at h
    simp only [hregistry, decide_false, Bool.false_and]
    refine leavesBy_false (.inl ?_)
    split at h
    · refine FailsClean.eq_of_error (x := executeAccountManager Γ ctx caller input) ?_ h
      exact (Atomic.lift fun call _ => (call.atomic_execute ctx caller).bind_total fun _ => .pure _).failsClean
    · exact (congrArg Prod.snd h).symm

/-- What the call of a transaction leaves when it fails. -/
theorem systemCall_error (hrange : e.state.world.balance stx.sender ≤ u256Max)
    (h : vm.systemCall ctx target stx e = (.ok (.error error), e')) :
    LeavesBy (vm.writesFirst ctx target stx e.state) stx.sender e.state e'.state := by
  unfold systemCall at h
  by_cases hvalue : stx.tx.value = 0
  case neg =>
    rw [if_pos hvalue] at h
    obtain ⟨-, rfl⟩ := pure_ok_iff.mp h
    simp only [writesFirst, reachesRegistry, hvalue, decide_false, Bool.and_false, Bool.false_and]
    exact leavesBy_false (.inl rfl)
  rw [if_neg (not_not.mpr hvalue)] at h
  simp only [runNative, Prod.mk.injEq, Except.ok.injEq] at h
  obtain ⟨herror, rfl⟩ := h
  have hrun : vm.executeSignedSystemContractCall ctx target stx stx.tx.data e.state =
      (.error error, (vm.executeSignedSystemContractCall ctx target stx stx.tx.data e.state).2) :=
    Prod.ext herror rfl
  generalize (vm.executeSignedSystemContractCall ctx target stx stx.tx.data e.state).2 = t at hrun
  simp only [writesFirst, reachesRegistry, hvalue, decide_true, Bool.and_true]
  unfold executeSignedSystemContractCall at hrun
  by_cases hemergency : target = validatorRegistryAddr ∧ emergencyGovernanceActive ctx = true
  case neg =>
    rw [if_neg hemergency] at hrun
    have hleaves := executeSystemContractCallAtBlock_error hrange hrun
    by_cases hregistry : target = validatorRegistryAddr
    · have hinactive : emergencyGovernanceActive ctx = false := by
        simpa [hregistry] using hemergency
      simpa only [hregistry, hinactive, Bool.not_false, Bool.true_or, Bool.true_and, Bool.and_true] using hleaves
    · simpa only [hregistry, decide_false, Bool.false_and] using hleaves
  rw [if_pos hemergency] at hrun
  obtain ⟨hregistry, hactive⟩ := hemergency
  simp only [hregistry, hactive, decide_true, Bool.not_true, Bool.false_or, Bool.true_and]
  unfold decodeSelector at hrun
  by_cases hshort : stx.tx.data.length < 4
  case pos =>
    rw [if_pos hshort, lift_error_bind] at hrun
    have hdecode : decode vm.toCtx stx.tx.data = .error .inputTooShort := by
      simp only [decode, decodeSelector, if_pos hshort]
      rfl
    simp only [hdecode, Bool.and_false]
    exact leavesBy_false (.inl (congrArg Prod.snd hrun).symm)
  rw [if_neg hshort, lift_ok_bind] at hrun
  by_cases hgovernance : isGovernanceMutation vm.toCtx (stx.tx.data.take 4) = true
  case neg =>
    rw [if_neg hgovernance] at hrun
    simpa only [hgovernance, hregistry, decide_true, Bool.not_false, Bool.true_or, Bool.true_and] using
      executeSystemContractCallAtBlock_error hrange hrun
  rw [if_pos hgovernance, read_bind_run, require_bind] at hrun
  simp only [hgovernance, Bool.not_true, Bool.false_or]
  cases hmutation : isRegistryMutation vm.toCtx (stx.tx.data.take 4) with
  | true =>
    simp only [Bool.not_true, Bool.false_and]
    refine leavesBy_false (.inl ?_)
    split at hrun
    · exact (atomic_executeAuthenticatedGovernanceCall _ _ _ _).failsClean.eq_of_error hrun
    · exact (congrArg Prod.snd hrun).symm
  | false =>
    rw [hmutation] at hrun
    split at hrun
    case isTrue hauthorised =>
      have hleaves := executeSystemContractCallAtBlock_error hrange hrun
      simpa only [hauthorised, hregistry, decide_true, Bool.not_false, Bool.true_and] using hleaves
    case isFalse hrefused =>
      simp only [hrefused, Bool.and_false, Bool.false_and]
      exact leavesBy_false (.inl (congrArg Prod.snd hrun).symm)

end Vm

/-- For every transaction to a native contract, in every state: when its receipt says that it failed, the state after it is
the one before with the nonce of the caller advanced and its gas charged exactly when the call is not one that passes its
checks before its first write and changes something with it. -/
theorem failed_call_clean_iff {txIndex cumulativeGas : Nat} {e e' : Executor κ} {result : TxExecutionResult}
    (htarget : stx.tx.recipient = some target) (hsystem : Vm.isSystemContract target = true)
    (hrange : e.state.world.balance stx.sender ≤ u256Max)
    (h : vm.executeTx ctx stx txIndex cumulativeGas e = (.ok result, e')) (hstatus : result.receipt.status = 0) :
    e'.state = chargedState e.state stx.sender (saturatingMul result.gasUsed (vm.systemGasPrice ctx stx.tx)) ↔
      vm.writesFirst ctx target stx e.state = false := by
  unfold Vm.executeTx at h
  rw [htarget] at h
  simp only [Option.isNone_some, Bool.false_eq_true, and_false, if_false, Option.filter, hsystem, if_true] at h
  split at h
  · cases congrArg Prod.fst h
  unfold Vm.executeSystemContractTx at h
  obtain ⟨outcome, e₁, hcall, h⟩ := bind_ok_iff.mp h
  cases outcome with
  | ok outcome =>
    obtain ⟨_, _, _, h⟩ := bind_ok_iff.mp h
    obtain ⟨rfl, -⟩ := pure_ok_iff.mp h
    cases hstatus
  | error error =>
    obtain ⟨_, e₂, hcharge, h⟩ := bind_ok_iff.mp h
    obtain ⟨rfl, rfl⟩ := pure_ok_iff.mp h
    rw [chargeSystemCall_ok hcharge]
    exact (Vm.systemCall_error hrange hcall).charged_iff _

/-! ## A refused call and a late one -/

namespace RefusedCall

/-- One validator that can pay for gas, with staking on. -/
def start : NativeState Unit :=
  withBalance { nativeGenesis [nativeAddress 1] with
    world := (nativeGenesis [nativeAddress 1]).world.mapRegistry fun r => { r with
      stakingEnabled := true, stakeUnit := 1, maxWeight := 10 } } (nativeAddress 1) 100000

/-- A call to add a validator by an account that is none. -/
def call : SignedTransaction :=
  nativeTx (nativeAddress 2) ValidationView.validatorRegistryAddr
    (addressInput "addValidator(address)" (nativeAddress 3))

/-- The state in which the caller can pay. -/
def funded : NativeState Unit :=
  withBalance start (nativeAddress 2) 50000

def statusOf (x : Except ExecutorError TxExecutionResult × Executor Unit) : Option Nat :=
  x.1.toOption.map fun result => result.receipt.status

/-- A call that is refused leaves the charge only. -/
theorem refused_call_clean : ∃ result e',
    nativeVm.executeTx (nativeContext 0) call 0 0 (freshExecutor funded) = (.ok result, e') ∧
      result.receipt.status = 0 ∧
      e'.state = chargedState funded (nativeAddress 2) (saturatingMul result.gasUsed 1) := by
  have hstatus : statusOf (nativeVm.executeTx (nativeContext 0) call 0 0 (freshExecutor funded)) = some 0 := by
    decide +kernel
  have hwrites : nativeVm.writesFirst (nativeContext 0) ValidationView.validatorRegistryAddr call funded = false := by
    decide +kernel
  have hrange : (freshExecutor funded).state.world.balance call.sender ≤ u256Max := by decide +kernel
  rcases hrun : nativeVm.executeTx (nativeContext 0) call 0 0 (freshExecutor funded) with ⟨error | result, e'⟩
  · rw [hrun] at hstatus
    cases hstatus
  · rw [hrun] at hstatus
    have hzero : result.receipt.status = 0 := Option.some.inj hstatus
    exact ⟨result, e', rfl, hzero,
      (failed_call_clean_iff rfl (by decide) hrange hrun hzero).mpr hwrites⟩

end RefusedCall

namespace LateFailureCex

open RefusedCall

/-- The only validator sets the stake of an account without balance. -/
def call : SignedTransaction :=
  nativeTx (nativeAddress 1) ValidationView.validatorRegistryAddr
    (calldata "setValidatorStake(address,uint256)" [(nativeAddress 2).bytes, word 5])

def key : ValidatorVoteKey :=
  ⟨.setStake 5, nativeAddress 2, nativeAddress 1, [nativeAddress 1]⟩

/-- The receipt says that the call failed, and its vote is stored. -/
theorem vote_survives :
    let x := nativeVm.executeTx (nativeContext 0) call 0 0 (freshExecutor start)
    statusOf x = some 0 ∧ start.world.registry.votes key = false ∧ x.2.state.world.registry.votes key = true := by
  decide +kernel

end LateFailureCex

end ShellChain
