import ShellChain.Lemmas.Recovery
import ShellChain.SampleContracts

/-!
# Recoveries are backed by guardians

An account is recovered with the key that a threshold of its guardians voted for, after its timelock. The sum of the head and
the timelock saturates, so that the wait is cut short only at the last block number there is.
-/

namespace ShellChain

variable {κ : Type} {Γ : Ctx}

/-- In every run of account manager calls, an account is only recovered with a key and an algorithm that a threshold of its
guardians voted for since it was last recovered or its recovery cancelled. The guardians, the threshold and the timelock
were in force for the whole life of the recovery, and the head is as many blocks above the head at the vote that reached
the threshold as the timelock says, or is the last block number. -/
theorem recovered_by_guardians {start : NativeState κ} (hproposals : ∀ account, start.recovery.proposals account = none)
    (hguardians : ∀ account config, start.recovery.guardians account = some config → config.Valid)
    (calls : List NativeCall) (c : NativeCall) (account : Address) {s : NativeState κ} {life : List (NativeStep κ)}
    (hs : (managerSystem Γ κ).run start calls = s)
    (hlife : recoveryLife Γ account ((managerSystem Γ κ).withTrace.run (start, []) calls).2 = life)
    (hexecuted : acceptedAccountCall Γ (s, c) = some (.executeRecovery account)) :
    ∃ config key algo signatureType v,
      (∀ x ∈ life, x.1.recovery.guardians account = some config) ∧ s.recovery.guardians account = some config ∧
      (∀ w ∈ recoveryVotes Γ account life, w.pubkey = key ∧ w.algo = algo ∧ w.guardian ∈ config.guardians) ∧
      config.threshold ≤ (votersOf (recoveryVotes Γ account life)).card ∧
      ReachedBy config.threshold (recoveryVotes Γ account life) v ∧
      min (v.headNumber + config.timelock) u64Max ≤ c.ctx.headNumber ∧
      SignatureType.fromU8 algo = some signatureType ∧
      (managerSystem Γ κ).step s c =
        { Native.withKey s account (Native.pubkeyHash Γ c.ctx key signatureType) key with
          recovery := { s.recovery with proposals := Function.update s.recovery.proposals account none } } := by
  have hstart : RecoveriesBacked Γ (start, []) := ⟨hguardians, fun a => by rw [RecoveryBacked, hproposals a]; rfl⟩
  have hbacked := (TransitionSystem.invariant_run_of_step (fun _ c h => h.step c) hstart calls).backed account
  rw [TransitionSystem.run_withTrace_fst, hs, hlife] at hbacked
  rcases managerSystem_step_cases (Γ := Γ) s c with ⟨hnone, -⟩ | ⟨call, haccepted, -, hok⟩
  · rw [hexecuted] at hnone
    cases hnone
  rw [hexecuted] at haccepted
  cases haccepted
  obtain ⟨p, signatureType, hp, hset, hmature, halgo, hstep⟩ := executeRecovery_ok hok
  unfold RecoveryBacked at hbacked
  rw [hp] at hbacked
  obtain ⟨config, hconfig, hall, -, hproposal⟩ := hbacked
  rcases hproposal.maturity with ⟨hzero, -⟩ | ⟨v, hreached, hm⟩
  · exact absurd hzero hset
  refine ⟨config, p.newPubkey, p.newAlgo, signatureType, v, hall, hconfig, ?_, hreached.le_card, hreached, ?_,
    halgo, hstep⟩
  · intro w hw
    refine ⟨(hproposal.same w hw).1, (hproposal.same w hw).2, hproposal.members _ ?_⟩
    rw [← List.mem_toFinset, hproposal.voters]
    exact List.mem_toFinset.mpr (List.mem_map_of_mem hw)
  · rw [hm] at hmature
    exact hmature

/-! ## A recovery by two guardians -/

namespace TwoGuardians

def account : Address :=
  nativeAddress 1

/-- The account names two guardians, and both vote for the key. -/
def calls (timelock head : Nat) : List NativeCall :=
  [⟨nativeContext 0, account, setGuardiansInput [nativeAddress 2, nativeAddress 3] 2 timelock⟩,
    ⟨nativeContext head, nativeAddress 2, submitRecoveryInput account [7, 7]⟩,
    ⟨nativeContext head, nativeAddress 3, submitRecoveryInput account [7, 7]⟩]

/-- The recovery is executed at a head. -/
def recover (head : Nat) : NativeCall :=
  ⟨nativeContext head, nativeAddress 4, calldata "executeRecovery(address)" [account.bytes]⟩

/-- The account is recovered with the key of both guardians once the timelock of 100 blocks has passed. -/
theorem recovered_after_timelock :
    ∃ (config : GuardianConfig) (v : RecoveryVote),
      ReachedBy config.threshold (recoveryVotes nativeCtx account (recoveryLife nativeCtx account
        ((managerSystem nativeCtx Unit).withTrace.run (nativeGenesis [], []) (calls 100 5)).2)) v ∧
      min (v.headNumber + config.timelock) u64Max ≤ 105 := by
  have h := recovered_by_guardians (Γ := nativeCtx)
    (fun a => (rfl : (nativeGenesis []).recovery.proposals a = none)) (fun _ _ h => nomatch h)
    (calls 100 5) (recover 105) account rfl rfl (by decide +kernel)
  obtain ⟨config, _, _, _, v, _, _, _, _, hreached, hmin, _⟩ := h
  exact ⟨config, v, hreached, hmin⟩

end TwoGuardians

namespace EarlyRecoveryCex

open TwoGuardians

/-- Ten blocks before the last block number, a timelock of 100 blocks ends after ten. -/
theorem recovered_before_timelock :
    (acceptedAccountCall nativeCtx ((managerSystem nativeCtx Unit).run (nativeGenesis []) (calls 100 (u64Max - 10)),
        recover u64Max) = some (.executeRecovery account) ∧
      recoveryVotes nativeCtx account (recoveryLife nativeCtx account
        ((managerSystem nativeCtx Unit).withTrace.run (nativeGenesis [], []) (calls 100 (u64Max - 10))).2) =
        [⟨nativeAddress 2, [7, 7], SignatureType.mlDsa65.asU8, u64Max - 10⟩,
          ⟨nativeAddress 3, [7, 7], SignatureType.mlDsa65.asU8, u64Max - 10⟩] ∧
      ((managerSystem nativeCtx Unit).run (nativeGenesis []) (calls 100 (u64Max - 10))).recovery.guardians account =
        some ⟨[nativeAddress 2, nativeAddress 3], 2, 100⟩) ∧
      ¬ (u64Max - 10) + 100 ≤ (recover u64Max).ctx.headNumber := by
  decide +kernel

end EarlyRecoveryCex

end ShellChain
