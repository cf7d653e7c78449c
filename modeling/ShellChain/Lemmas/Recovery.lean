import ShellChain.SystemContracts
import Mathlib.Data.Finset.Card

/-!
# Recoveries along a run

The calls of the account manager as a transition system. The life of a recovery is the part of the run since the first vote
after the last time the account was recovered or the recovery was cancelled. `RecoveryBacked` says what the stored proposal
has to do with it: the votes are those of the life, the guardians have not changed in it, and the maturity is counted from
the vote that reached the threshold.
-/

namespace ShellChain

open Effect Native Function List

variable {κ : Type} {Γ : Ctx}

/-! ## The system -/

/-- The calls of the account manager. -/
def managerSystem (Γ : Ctx) (κ : Type) : TransitionSystem (NativeState κ) NativeCall where
  step s c := (executeAccountManager Γ c.ctx c.caller c.input s).2

/-- The call of the account manager, when it succeeds. -/
def acceptedAccountCall (Γ : Ctx) (x : NativeStep κ) : Option AccountCall :=
  match AccountCall.decode Γ x.2.caller x.2.input with
  | .error _ => none
  | .ok call =>
    match (call.execute Γ x.2.ctx x.2.caller x.1).1 with
    | .error _ => none
    | .ok _ => some call

/-! ## The operations fail clean -/

theorem Native.atomic_rotateKey (ctx : ExecContext) (caller : Address) (pubkey : Bytes) (algoId : UInt8) :
    (rotateKey Γ ctx caller pubkey algoId : NativeM κ Unit).Atomic (Same fun s => s.world.registry) := by
  refine .require fun _ => ?_
  cases SignatureType.fromU8 algoId with
  | none => exact .fail _
  | some algo => exact .write fun _ => rfl

/-- A failed call of the account manager writes nothing, and no call writes to the registry of validators. -/
theorem AccountCall.atomic_execute (ctx : ExecContext) (caller : Address) (call : AccountCall) :
    (call.execute Γ ctx caller : NativeM κ Unit).Atomic (Same fun s => s.world.registry) := by
  cases call with
  | rotateKey pubkey algoId => exact atomic_rotateKey ctx caller pubkey algoId
  | setValidationCode | setGuardians => exact .read fun _ => .require fun _ => .write fun _ => rfl
  | clearValidationCode => exact .write fun _ => rfl
  | submitRecovery account newPubkey newAlgo =>
    refine .read fun config => ?_
    cases config with
    | none => exact .fail _
    | some config =>
      refine .require fun _ => .read fun stored => .require fun _ => ?_
      split
      · exact .pure _
      · exact .write fun _ => rfl
  | executeRecovery account =>
    refine .read fun proposal => ?_
    cases proposal with
    | none => exact .fail _
    | some proposal =>
      exact .require fun _ => .require fun _ => (atomic_rotateKey _ _ _ _).bind_total fun _ => .write fun _ => rfl
  | cancelRecovery account => exact .require fun _ => .read fun _ => .require fun _ => .write fun _ => rfl

/-- A step either fails and changes nothing, or is an operation of the account manager that succeeds. -/
theorem managerSystem_step_cases (s : NativeState κ) (c : NativeCall) :
    (acceptedAccountCall Γ (s, c) = none ∧ (managerSystem Γ κ).step s c = s) ∨
      ∃ call, acceptedAccountCall Γ (s, c) = some call ∧ AccountCall.decode Γ c.caller c.input = .ok call ∧
        call.execute Γ c.ctx c.caller s = (.ok (), (managerSystem Γ κ).step s c) := by
  cases hdecode : AccountCall.decode Γ c.caller c.input with
  | error e =>
    left
    simp only [acceptedAccountCall, managerSystem, executeAccountManager, hdecode, lift_error_bind]
    exact ⟨trivial, rfl⟩
  | ok call =>
    have hstep : (managerSystem Γ κ).step s c = (call.execute Γ c.ctx c.caller s).2 := by
      simp only [managerSystem, executeAccountManager, hdecode, lift_ok_bind, bind_pure_snd]
    rw [hstep]
    rcases hrun : call.execute Γ c.ctx c.caller s with ⟨e | _, s'⟩
    · exact .inl ⟨by simp only [acceptedAccountCall, hdecode, hrun],
        (call.atomic_execute c.ctx c.caller).failsClean.eq_of_error hrun⟩
    · exact .inr ⟨call, by simp only [acceptedAccountCall, hdecode, hrun], rfl, hrun⟩

/-! ## What a call does to recoveries -/

section Effects

variable {ctx : ExecContext} {caller : Address} {s s' : NativeState κ}

theorem setGuardians_ok {config : GuardianConfig} (h : setGuardians caller config s = (.ok (), s')) :
    s.recovery.proposals caller = none ∧ s'.recovery =
      { s.recovery with guardians := update s.recovery.guardians caller (some config) } := by
  simp only [setGuardians, recoveryProposal, bind_ok_iff, read_ok_iff, require_ok_iff, write_ok_iff,
    Option.isNone_iff_eq_none] at h
  obtain ⟨_, _, ⟨rfl, rfl⟩, _, _, ⟨hnone, rfl⟩, rfl⟩ := h
  exact ⟨hnone, rfl⟩

variable {account : Address} {pubkey : Bytes}

theorem submitRecovery_ok {head : Nat} {algo : UInt8}
    (h : submitRecovery head caller account pubkey algo s = (.ok (), s')) :
    ∃ config, s.recovery.guardians account = some config ∧ caller ∈ config.guardians ∧
      ∃ p, p = (s.recovery.proposals account).getD ⟨pubkey, algo, [], 0⟩ ∧ p.newPubkey = pubkey ∧ p.newAlgo = algo ∧
        ((caller ∈ p.votes ∧ s' = s) ∨ (caller ∉ p.votes ∧ s' = { s with recovery := { s.recovery with
          proposals := update s.recovery.proposals account (some (withVote p config caller head)) } })) := by
  simp only [submitRecovery, guardianConfig, bind_ok_iff, read_ok_iff] at h
  obtain ⟨_, _, ⟨rfl, rfl⟩, h⟩ := h
  cases hconfig : s.recovery.guardians account with
  | none =>
    rw [hconfig] at h
    simp only [fail_ok_iff] at h
  | some config =>
    rw [hconfig] at h
    simp only [recoveryProposal, bind_ok_iff, read_ok_iff, require_ok_iff, decide_eq_true_eq] at h
    obtain ⟨_, _, ⟨hmem, rfl⟩, _, _, ⟨rfl, rfl⟩, _, _, ⟨hsame, rfl⟩, h⟩ := h
    refine ⟨config, rfl, hmem, _, rfl, hsame.1, hsame.2, ?_⟩
    split at h
    case isTrue hvoted => exact .inl ⟨hvoted, (pure_ok_iff.mp h).2.symm⟩
    case isFalse hnew => exact .inr ⟨hnew, (write_ok_iff.mp h).symm⟩

theorem rotateKey_ok {algoId : UInt8} (h : rotateKey Γ ctx caller pubkey algoId s = (.ok (), s')) :
    ∃ algo, SignatureType.fromU8 algoId = some algo ∧ s' = withKey s caller (pubkeyHash Γ ctx pubkey algo) pubkey := by
  simp only [rotateKey, bind_ok_iff, require_ok_iff] at h
  obtain ⟨_, _, ⟨_, rfl⟩, h⟩ := h
  cases halgo : SignatureType.fromU8 algoId with
  | none =>
    rw [halgo] at h
    simp only [fail_ok_iff] at h
  | some algo =>
    rw [halgo] at h
    exact ⟨algo, rfl, (write_ok_iff.mp h).symm⟩

theorem executeRecovery_ok (h : executeRecovery Γ ctx account s = (.ok (), s')) :
    ∃ p algo, s.recovery.proposals account = some p ∧ p.maturityBlock ≠ 0 ∧ p.maturityBlock ≤ ctx.headNumber ∧
      SignatureType.fromU8 p.newAlgo = some algo ∧
      s' = { withKey s account (pubkeyHash Γ ctx p.newPubkey algo) p.newPubkey with
        recovery := { s.recovery with proposals := update s.recovery.proposals account none } } := by
  simp only [executeRecovery, recoveryProposal, bind_ok_iff, read_ok_iff] at h
  obtain ⟨_, _, ⟨rfl, rfl⟩, h⟩ := h
  cases hproposal : s.recovery.proposals account with
  | none =>
    rw [hproposal] at h
    simp only [fail_ok_iff] at h
  | some p =>
    rw [hproposal] at h
    simp only [putRecoveryProposal, bind_ok_iff, require_ok_iff, decide_eq_true_eq, write_ok_iff] at h
    obtain ⟨_, _, ⟨hset, rfl⟩, _, _, ⟨hmature, rfl⟩, _, t, hkey, rfl⟩ := h
    obtain ⟨algo, halgo, rfl⟩ := rotateKey_ok hkey
    exact ⟨p, algo, rfl, hset, hmature, halgo, rfl⟩

theorem cancelRecovery_ok (h : cancelRecovery caller account s = (.ok (), s')) :
    s'.recovery = { s.recovery with proposals := update s.recovery.proposals account none } := by
  simp only [cancelRecovery, recoveryProposal, putRecoveryProposal, bind_ok_iff, read_ok_iff,
    require_ok_iff, write_ok_iff] at h
  obtain ⟨_, _, ⟨_, rfl⟩, _, _, ⟨rfl, rfl⟩, _, _, ⟨_, rfl⟩, rfl⟩ := h
  rfl

theorem setValidationCode_ok {codeHash : ShellHash} (h : setValidationCode caller codeHash s = (.ok (), s')) :
    s'.recovery = s.recovery := by
  simp only [setValidationCode, writeValidationCode, bind_ok_iff, read_ok_iff, require_ok_iff, write_ok_iff] at h
  obtain ⟨_, _, ⟨rfl, rfl⟩, _, _, ⟨_, rfl⟩, rfl⟩ := h
  rfl

theorem clearValidationCode_ok (h : clearValidationCode caller s = (.ok (), s')) : s'.recovery = s.recovery := by
  simp only [clearValidationCode, writeValidationCode, write_ok_iff] at h
  subst h
  rfl

end Effects

/-! ## The life of a recovery -/

/-- A vote for a recovery, with the head of the chain at the time. -/
structure RecoveryVote where
  guardian : Address
  pubkey : Bytes
  algo : UInt8
  headNumber : Nat
  deriving DecidableEq

/-- What a step means for the recovery of an account. -/
inductive RecoveryEvent
  | submitted (vote : RecoveryVote)
  | cleared
  | other

/-- What a step means for the recovery of an account: a call that fails means nothing. -/
def recoveryEvent (Γ : Ctx) (account : Address) (x : NativeStep κ) : RecoveryEvent :=
  match acceptedAccountCall Γ x with
  | some (.submitRecovery a pubkey algo) =>
    if a = account then .submitted ⟨x.2.caller, pubkey, algo, x.2.ctx.headNumber⟩ else .other
  | some (.executeRecovery a) => if a = account then .cleared else .other
  | some (.cancelRecovery a) => if a = account then .cleared else .other
  | _ => .other

/-- The life of the recovery with one more step: it starts with a vote and ends when the recovery is cleared. -/
def lifeNext (Γ : Ctx) (account : Address) (life : List (NativeStep κ)) (x : NativeStep κ) : List (NativeStep κ) :=
  match recoveryEvent Γ account x with
  | .submitted _ => life ++ [x]
  | .cleared => []
  | .other => if life.isEmpty then [] else life ++ [x]

/-- The steps since the first vote for the recovery of an account after it was last cleared. -/
def recoveryLife (Γ : Ctx) (account : Address) (trace : List (NativeStep κ)) : List (NativeStep κ) :=
  trace.foldl (lifeNext Γ account) []

/-- The votes among some steps. -/
def recoveryVotes (Γ : Ctx) (account : Address) (life : List (NativeStep κ)) : List RecoveryVote :=
  life.filterMap fun x => match recoveryEvent Γ account x with
    | .submitted vote => some vote
    | _ => none

def votersOf (votes : List RecoveryVote) : Finset Address :=
  (votes.map RecoveryVote.guardian).toFinset

/-- The vote with which a number of guardians was reached. -/
def ReachedBy (threshold : Nat) (votes : List RecoveryVote) (v : RecoveryVote) : Prop :=
  ∃ pre post, votes = pre ++ v :: post ∧ (votersOf pre).card < threshold ∧ threshold ≤ (votersOf (pre ++ [v])).card

/-- The bounds that `setGuardians` checks and a recovery relies on. -/
def GuardianConfig.Valid (config : GuardianConfig) : Prop :=
  0 < config.threshold ∧ minRecoveryTimelock ≤ config.timelock

/-- A stored proposal agrees with the votes of its life. -/
structure ProposalBacked (config : GuardianConfig) (votes : List RecoveryVote) (p : RecoveryProposal) : Prop where
  same : ∀ v ∈ votes, v.pubkey = p.newPubkey ∧ v.algo = p.newAlgo
  voters : p.votes.toFinset = votersOf votes
  nodup : p.votes.Nodup
  members : ∀ g ∈ p.votes, g ∈ config.guardians
  maturity : (p.maturityBlock = 0 ∧ p.votes.length < config.threshold) ∨
    ∃ v, ReachedBy config.threshold votes v ∧ p.maturityBlock = saturatingAdd v.headNumber config.timelock

/-- The stored recovery of an account agrees with its life. -/
def RecoveryBacked (Γ : Ctx) (account : Address) (r : RecoveryStore) (life : List (NativeStep κ)) : Prop :=
  match r.proposals account with
  | none => life = []
  | some p => ∃ config, r.guardians account = some config ∧
      (∀ x ∈ life, x.1.recovery.guardians account = some config) ∧ life ≠ [] ∧
      ProposalBacked config (recoveryVotes Γ account life) p

/-! ## Votes and the stored proposal -/

theorem votersOf_concat (votes : List RecoveryVote) (v : RecoveryVote) :
    votersOf (votes ++ [v]) = insert v.guardian (votersOf votes) := by
  ext g
  simp [votersOf]

variable {threshold : Nat} {v : RecoveryVote} {votes : List RecoveryVote} {account : Address} {life : List (NativeStep κ)}
  {x : NativeStep κ}

theorem ReachedBy.append (h : ReachedBy threshold votes v) (more : List RecoveryVote) :
    ReachedBy threshold (votes ++ more) v := by
  obtain ⟨pre, post, rfl, hlt, hle⟩ := h
  exact ⟨pre, post ++ more, by simp, hlt, hle⟩

theorem ReachedBy.le_card (h : ReachedBy threshold votes v) : threshold ≤ (votersOf votes).card := by
  obtain ⟨pre, post, rfl, -, hle⟩ := h
  refine hle.trans (Finset.card_le_card ?_)
  intro g hg
  simp only [votersOf, map_append, mem_toFinset, mem_append] at hg ⊢
  exact hg.imp_right fun hg => map_subset _ (by simp) hg

namespace ProposalBacked

variable {config : GuardianConfig} {votes : List RecoveryVote} {p : RecoveryProposal} {v : RecoveryVote}

theorem card_voters (h : ProposalBacked config votes p) : (votersOf votes).card = p.votes.length := by
  rw [← h.voters, toFinset_card_of_nodup h.nodup]

theorem fresh (pubkey : Bytes) (algo : UInt8) (hconfig : config.Valid) : ProposalBacked config [] ⟨pubkey, algo, [], 0⟩ :=
  ⟨nofun, rfl, .nil, nofun, .inl ⟨rfl, hconfig.1⟩⟩

/-- A vote that is already stored changes nothing. -/
theorem again (h : ProposalBacked config votes p) (hv : v.pubkey = p.newPubkey ∧ v.algo = p.newAlgo)
    (hvoted : v.guardian ∈ p.votes) : ProposalBacked config (votes ++ [v]) p where
  same := forall_mem_append.mpr ⟨h.same, forall_mem_singleton.mpr hv⟩
  voters := by
    rw [votersOf_concat, Finset.insert_eq_of_mem (h.voters ▸ mem_toFinset.mpr hvoted), h.voters]
  nodup := h.nodup
  members := h.members
  maturity := h.maturity.imp_right fun ⟨w, hw, hm⟩ => ⟨w, hw.append _, hm⟩

/-- A new vote is stored, and starts the timelock if it reaches the threshold. -/
theorem vote (h : ProposalBacked config votes p) (hconfig : config.Valid)
    (hv : v.pubkey = p.newPubkey ∧ v.algo = p.newAlgo) (hmember : v.guardian ∈ config.guardians)
    (hnew : v.guardian ∉ p.votes) : ProposalBacked config (votes ++ [v]) (withVote p config v.guardian v.headNumber) := by
  have hvotes : (withVote p config v.guardian v.headNumber).votes = p.votes ++ [v.guardian] := by
    unfold withVote
    dsimp only
    split <;> rfl
  have hkey : (withVote p config v.guardian v.headNumber).newPubkey = p.newPubkey ∧
      (withVote p config v.guardian v.headNumber).newAlgo = p.newAlgo := by
    unfold withVote
    dsimp only
    split <;> exact ⟨rfl, rfl⟩
  have hcard : (votersOf (votes ++ [v])).card = p.votes.length + 1 := by
    rw [votersOf_concat, Finset.card_insert_of_notMem, h.card_voters]
    rwa [← h.voters, mem_toFinset]
  refine ⟨?_, ?_, ?_, ?_, ?_⟩
  · rw [hkey.1, hkey.2]
    exact forall_mem_append.mpr ⟨h.same, forall_mem_singleton.mpr hv⟩
  · rw [hvotes, votersOf_concat, ← h.voters, toFinset_append]
    ext g
    simp
  · rw [hvotes, ← concat_eq_append]
    exact h.nodup.concat hnew
  · rw [hvotes]
    exact forall_mem_append.mpr ⟨h.members, forall_mem_singleton.mpr hmember⟩
  · rw [hvotes, length_append, length_singleton]
    rcases h.maturity with ⟨hzero, hlt⟩ | ⟨w, hw, hm⟩
    · by_cases hreach : config.threshold ≤ p.votes.length + 1
      · -- this vote reaches the threshold
        right
        refine ⟨v, ⟨votes, [], rfl, by rwa [h.card_voters], by rwa [hcard]⟩, ?_⟩
        simp [withVote, hzero, hreach]
      · left
        refine ⟨?_, by omega⟩
        simp [withVote, hzero, hreach]
    · -- the timelock runs since an earlier vote
      right
      have hset : p.maturityBlock ≠ 0 := by
        have htimelock : 0 < config.timelock := Nat.lt_of_lt_of_le (by decide) hconfig.2
        rw [hm, saturatingAdd, u64Max]
        omega
      refine ⟨w, hw.append _, ?_⟩
      simp only [withVote, hset, false_and, if_false]
      exact hm

end ProposalBacked

/-! ## One step -/

theorem recoveryVotes_concat_submitted (h : recoveryEvent Γ account x = .submitted v) :
    recoveryVotes Γ account (life ++ [x]) = recoveryVotes Γ account life ++ [v] := by
  simp [recoveryVotes, h]

namespace RecoveryBacked

variable {account : Address} {c : NativeCall} {life : List (NativeStep κ)} {r' : RecoveryStore}

/-- A step that means nothing for the recovery keeps it backed if the stored records stay. -/
theorem keep (h : RecoveryBacked Γ account s.recovery life) (hother : recoveryEvent Γ account (s, c) = .other)
    (hp : r'.proposals account = s.recovery.proposals account)
    (hg : s.recovery.proposals account ≠ none → r'.guardians account = s.recovery.guardians account) :
    RecoveryBacked Γ account r' (lifeNext Γ account life (s, c)) := by
  unfold RecoveryBacked at h ⊢
  simp only [lifeNext, hother]
  rw [hp]
  cases hstored : s.recovery.proposals account with
  | none =>
    rw [hstored] at h
    simp [show life = [] from h]
  | some p =>
    rw [hstored] at h
    obtain ⟨config, hconfig, hall, hne, hbacked⟩ := h
    rw [if_neg (by simpa using hne)]
    refine ⟨config, by rw [hg (by simp [hstored]), hconfig], ?_, by simp, ?_⟩
    · exact forall_mem_append.mpr ⟨hall, forall_mem_singleton.mpr hconfig⟩
    · simpa [recoveryVotes, hother] using hbacked

/-- A step that clears the recovery ends its life. -/
theorem clear (hcleared : recoveryEvent Γ account (s, c) = .cleared) (hp : r'.proposals account = none) :
    RecoveryBacked Γ account r' (lifeNext Γ account life (s, c)) := by
  unfold RecoveryBacked
  simp only [lifeNext, hcleared, hp]

/-- A vote keeps the recovery backed. -/
theorem submit {pubkey : Bytes} {algo : UInt8} {s' : NativeState κ} (h : RecoveryBacked Γ account s.recovery life)
    (hvalid : ∀ config, s.recovery.guardians account = some config → config.Valid)
    (hsubmitted : recoveryEvent Γ account (s, c) = .submitted ⟨c.caller, pubkey, algo, c.ctx.headNumber⟩)
    (hok : submitRecovery c.ctx.headNumber c.caller account pubkey algo s = (.ok (), s')) :
    RecoveryBacked Γ account s'.recovery (lifeNext Γ account life (s, c)) := by
  obtain ⟨config, hconfig, hmember, p, hp, hkey, halgo, hs'⟩ := submitRecovery_ok hok
  -- before the vote the proposal is backed, the first vote finding the empty one
  have hbefore : (∀ x ∈ life, x.1.recovery.guardians account = some config) ∧
      ProposalBacked config (recoveryVotes Γ account life) p := by
    unfold RecoveryBacked at h
    cases hstored : s.recovery.proposals account with
    | none =>
      rw [hstored] at h hp
      rw [show life = [] from h, hp]
      exact ⟨by simp, .fresh pubkey algo (hvalid config hconfig)⟩
    | some q =>
      rw [hstored] at h hp
      obtain ⟨config', hconfig', hall, -, hbacked⟩ := h
      cases Option.some.inj (hconfig.symm.trans hconfig')
      rw [hp]
      exact ⟨hall, hbacked⟩
  obtain ⟨hall, hbacked⟩ := hbefore
  have hall' : ∀ x ∈ life ++ [(s, c)], x.1.recovery.guardians account = some config :=
    forall_mem_append.mpr ⟨hall, forall_mem_singleton.mpr hconfig⟩
  simp only [lifeNext, hsubmitted]
  unfold RecoveryBacked
  rcases hs' with ⟨hvoted, rfl⟩ | ⟨hnew, rfl⟩
  · cases hstored : s'.recovery.proposals account with
    | none =>
      rw [hp, hstored] at hvoted
      cases hvoted
    | some q =>
      rw [hstored] at hp
      cases hp
      refine ⟨config, hconfig, hall', by simp, ?_⟩
      rw [recoveryVotes_concat_submitted hsubmitted]
      exact hbacked.again ⟨hkey.symm, halgo.symm⟩ hvoted
  · simp only [update_self]
    refine ⟨config, hconfig, hall', by simp, ?_⟩
    rw [recoveryVotes_concat_submitted hsubmitted]
    exact hbacked.vote (v := ⟨c.caller, pubkey, algo, c.ctx.headNumber⟩) (hvalid config hconfig)
      ⟨hkey.symm, halgo.symm⟩ hmember hnew

end RecoveryBacked

/-! ## Runs -/

/-- The guardians that a call sets have passed the checks of their bounds. -/
theorem valid_of_decode {caller : Address} {input : Bytes} {config : GuardianConfig}
    (h : AccountCall.decode Γ caller input = .ok (.setGuardians config)) : config.Valid := by
  have hparams : decodeSetGuardians caller (input.drop 4) = .ok config := by
    simp only [AccountCall.decode, Checks.bind_ok_iff] at h
    obtain ⟨selector, -, h⟩ := h
    split_ifs at h
    all_goals first
      | exact absurd h Checks.throw_ne_ok
      | simp [Checks.map_ok_iff, Checks.pure_ok_iff] at h
    exact h
  simp only [decodeSetGuardians, Checks.bind_ok_iff, Checks.ensure_ok_iff, Checks.pure_ok_iff, decide_eq_true_eq] at hparams
  obtain ⟨_, _, _, _, threshold, _, _, _, _, _, _, _, _, _, _, _, _, hthreshold, _, htimelock, _, _, rfl⟩ := hparams
  exact ⟨Nat.pos_of_ne_zero hthreshold.1, htimelock⟩

/-- Every recovery agrees with its life, and the guardians in force are valid. -/
structure RecoveriesBacked (Γ : Ctx) (p : NativeState κ × List (NativeStep κ)) : Prop where
  valid : ∀ account config, p.1.recovery.guardians account = some config → config.Valid
  backed : ∀ account, RecoveryBacked Γ account p.1.recovery (recoveryLife Γ account p.2)

theorem recoveryLife_concat (account : Address) (trace : List (NativeStep κ)) (x : NativeStep κ) :
    recoveryLife Γ account (trace ++ [x]) = lifeNext Γ account (recoveryLife Γ account trace) x := by
  simp [recoveryLife]

section Step

variable {s s' : NativeState κ} {c : NativeCall} {call : AccountCall}

/-- A call that succeeds keeps every recovery backed. -/
theorem RecoveryBacked.execute (h : RecoveryBacked Γ account s.recovery life)
    (hvalid : ∀ config, s.recovery.guardians account = some config → config.Valid)
    (haccepted : acceptedAccountCall Γ (s, c) = some call) (hok : call.execute Γ c.ctx c.caller s = (.ok (), s')) :
    RecoveryBacked Γ account s'.recovery (lifeNext Γ account life (s, c)) := by
  have hevent := recoveryEvent.eq_def Γ account (s, c)
  rw [haccepted] at hevent
  cases call with
  | rotateKey pubkey algoId =>
    obtain ⟨algo, -, rfl⟩ := rotateKey_ok hok
    exact h.keep hevent rfl fun _ => rfl
  | setValidationCode codeHash =>
    rw [setValidationCode_ok hok]
    exact h.keep hevent rfl fun _ => rfl
  | clearValidationCode =>
    rw [clearValidationCode_ok hok]
    exact h.keep hevent rfl fun _ => rfl
  | setGuardians config =>
    obtain ⟨hnone, hs'⟩ := setGuardians_ok hok
    rw [hs']
    refine h.keep hevent rfl fun hactive => ?_
    -- the guardians of an account with an active recovery are those of another account
    have hne : account ≠ c.caller := by
      rintro rfl
      exact hactive hnone
    exact update_of_ne hne _ _
  | submitRecovery a pubkey algo =>
    by_cases ha : a = account
    · subst ha
      exact h.submit hvalid (hevent.trans (if_pos rfl)) hok
    · obtain ⟨_, _, _, p, _, _, _, ⟨_, rfl⟩ | ⟨_, rfl⟩⟩ := submitRecovery_ok hok
      · exact h.keep (hevent.trans (if_neg ha)) rfl fun _ => rfl
      · exact h.keep (hevent.trans (if_neg ha)) (update_of_ne (Ne.symm ha) _ _) fun _ => rfl
  | executeRecovery a =>
    obtain ⟨p, algo, _, _, _, _, rfl⟩ := executeRecovery_ok hok
    by_cases ha : a = account
    · subst ha
      exact clear (hevent.trans (if_pos rfl)) (update_self ..)
    · exact h.keep (hevent.trans (if_neg ha)) (update_of_ne (Ne.symm ha) _ _) fun _ => rfl
  | cancelRecovery a =>
    rw [cancelRecovery_ok hok]
    by_cases ha : a = account
    · subst ha
      exact clear (hevent.trans (if_pos rfl)) (update_self ..)
    · exact h.keep (hevent.trans (if_neg ha)) (update_of_ne (Ne.symm ha) _ _) fun _ => rfl

/-- A call that succeeds leaves valid guardians. -/
theorem valid_of_execute (hvalid : ∀ account config, s.recovery.guardians account = some config → config.Valid)
    (hdecode : AccountCall.decode Γ c.caller c.input = .ok call) (hok : call.execute Γ c.ctx c.caller s = (.ok (), s')) :
    ∀ account config, s'.recovery.guardians account = some config → config.Valid := by
  cases call with
  | rotateKey pubkey algoId =>
    obtain ⟨algo, -, rfl⟩ := rotateKey_ok hok
    exact hvalid
  | setValidationCode codeHash =>
    rw [setValidationCode_ok hok]
    exact hvalid
  | clearValidationCode =>
    rw [clearValidationCode_ok hok]
    exact hvalid
  | setGuardians config =>
    rw [(setGuardians_ok hok).2]
    intro account config' hconfig
    rcases update_eq_some.mp hconfig with ⟨rfl, rfl⟩ | ⟨-, hconfig⟩
    · exact valid_of_decode hdecode
    · exact hvalid account config' hconfig
  | submitRecovery a pubkey algo =>
    obtain ⟨_, _, _, p, _, _, _, ⟨_, rfl⟩ | ⟨_, rfl⟩⟩ := submitRecovery_ok hok
    · exact hvalid
    · exact hvalid
  | executeRecovery a =>
    obtain ⟨p, algo, _, _, _, _, rfl⟩ := executeRecovery_ok hok
    exact hvalid
  | cancelRecovery a =>
    rw [cancelRecovery_ok hok]
    exact hvalid

end Step

/-- One step keeps every recovery backed. -/
theorem RecoveriesBacked.step {p : NativeState κ × List (NativeStep κ)} (h : RecoveriesBacked Γ p) (c : NativeCall) :
    RecoveriesBacked Γ ((managerSystem Γ κ).withTrace.step p c) := by
  rcases managerSystem_step_cases (Γ := Γ) p.1 c with ⟨hnone, hstep⟩ | ⟨call, haccepted, hdecode, hok⟩
  · refine ⟨by simpa only [TransitionSystem.withTrace, hstep] using h.valid, fun account => ?_⟩
    simp only [TransitionSystem.withTrace, hstep, recoveryLife_concat]
    refine (h.backed account).keep ?_ rfl fun _ => rfl
    simp only [recoveryEvent, hnone]
  · refine ⟨valid_of_execute h.valid hdecode hok, fun account => ?_⟩
    simp only [TransitionSystem.withTrace, recoveryLife_concat]
    exact (h.backed account).execute (h.valid account) haccepted hok

end ShellChain
