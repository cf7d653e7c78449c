import ShellChain.Lemmas.Penalties
import ShellChain.Sample

/-!
# One penalty for one offence

The challenge lifecycle remembers the id of a challenge and slashes for it once, until it drops the record. The handler of
equivocation evidence remembers nothing, so evidence delivered twice is penalized twice. A node that starts again takes both
from the snapshot that it stored.
-/

namespace ShellChain

open ChallengeLifecycle List

/-- The offence an input proves and has stored. -/
def provenBy (Γ : Ctx) : PenaltyInput → Option Offence
  | .evidence e pubkey true => provenOffence Γ e pubkey
  | _ => none

/-- The challenge an input raises. -/
def raises : PenaltyInput → Option ShellHash
  | .challenge id _ _ _ _ => some id
  | _ => none

/-- The input proves no offence that evidence has proved before, and raises no challenge that was raised before and is no
longer tracked. -/
def FreshOffence (Γ : Ctx) (p : PenaltyNode × List PenaltyInput) (i : PenaltyInput) : Prop :=
  (∀ o ∈ provenBy Γ i, ∀ j ∈ p.2, provenBy Γ j ≠ some o) ∧
    ∀ id ∈ raises i, (∀ j ∈ p.2, raises j ≠ some id) ∨ id ∈ p.1.lifecycle.challenges

/-- What holds in every run of the penalty handlers: the disk has the current snapshot, the engine has the penalties of the
snapshot, and they are those of the log. -/
structure PenaltyNode.Synced (E : SlashingEngine) (σ : PenaltyNode) : Prop where
  disk : σ.disk = σ.lifecycle
  restored : σ.penalties = σ.lifecycle.penalties.getD .none
  replayed : σ.penalties = (σ.log.map (·.offender)).foldl E.applySlash .none

/-- An equivocation was proved, and a challenge was raised and is not open. -/
def Accounted (Γ : Ctx) (c : ChallengeLifecycle) (hist : List PenaltyInput) : Offence → Prop
  | .equivocation a n => ∃ j ∈ hist, provenBy Γ j = some (.equivocation a n)
  | .challenge id => (∃ j ∈ hist, raises j = some id) ∧ ¬ c.IsOpen id

/-- What holds in every run of fresh offences, with the inputs taken so far: the offences of the log are distinct and
accounted for, and every tracked challenge was raised. -/
structure PenaltyNode.Once (Γ : Ctx) (σ : PenaltyNode) (hist : List PenaltyInput) : Prop where
  nodup : (σ.log.map (·.offence)).Nodup
  accounted : ∀ o ∈ σ.log.map (·.offence), Accounted Γ σ.lifecycle hist o
  tracked : ∀ id ∈ σ.lifecycle.challenges, ∃ j ∈ hist, raises j = some id
  keyed : σ.lifecycle.Keyed

theorem PenaltyNode.Synced.start (E : SlashingEngine) : PenaltyNode.start.Synced E :=
  ⟨rfl, rfl, rfl⟩

/-- Every input keeps the engine, the snapshot and the log in step. -/
theorem synced_step (Γ : Ctx) (E : SlashingEngine) (σ : PenaltyNode) (i : PenaltyInput) (hs : σ.Synced E) :
    ((penaltySystem Γ E).step σ i).Synced E := by
  rcases penaltySystem_step Γ E σ i with h | h
  · rw [h]
    exact hs
  · generalize (penaltySystem Γ E).step σ i = σ' at h ⊢
    cases h with
    | evidence e pubkey offence ho =>
      refine ⟨rfl, rfl, ?_⟩
      rw [map_append, foldl_append, ← hs.replayed]
      rfl
    | challenge _ _ _ _ _ _ _ hp | response _ _ _ _ hp => exact ⟨rfl, by rw [hp]; exact hs.restored, hs.replayed⟩
    | advance n penalties next hpen hc hp =>
      refine ⟨rfl, ?_, ?_⟩
      · simp only [hp]
        split
        · rename_i hnil
          rw [hpen, hnil]
          exact hs.restored
        · rfl
      · rw [map_append, foldl_append, ← hs.replayed]
        exact hpen
    | restart => exact ⟨rfl, rfl, by simp only [hs.disk]; exact hs.restored.symm.trans hs.replayed⟩
    | stop => exact ⟨hs.disk, hs.restored, hs.replayed⟩

/-- In every run the penalties of the engine are the slashes of the log, in order. -/
theorem synced_run (Γ : Ctx) (E : SlashingEngine) (l : List PenaltyInput) : ((penaltySystem Γ E).run .start l).Synced E :=
  TransitionSystem.invariant_run_of_step (synced_step Γ E) (.start E) l

/-! ## Fresh offences -/

section Once

variable {Γ : Ctx} {E : SlashingEngine} {σ : PenaltyNode} {hist : List PenaltyInput}

theorem Accounted.mono {c c' : ChallengeLifecycle} {o : Offence} (h : Accounted Γ c hist o) (i : PenaltyInput)
    (hopen : ∀ id, o = .challenge id → c'.IsOpen id → c.IsOpen id) : Accounted Γ c' (hist ++ [i]) o := by
  cases o with
  | equivocation a n =>
    obtain ⟨j, hj, hp⟩ := h
    exact ⟨j, mem_append_left _ hj, hp⟩
  | challenge id =>
    obtain ⟨⟨j, hj, hr⟩, hnot⟩ := h
    exact ⟨⟨j, mem_append_left _ hj, hr⟩, fun hid => hnot (hopen id rfl hid)⟩

/-- More history does not undo the invariant. -/
theorem PenaltyNode.Once.mono (ho : σ.Once Γ hist) (i : PenaltyInput) : σ.Once Γ (hist ++ [i]) where
  nodup := ho.nodup
  accounted o h := (ho.accounted o h).mono i fun _ _ => id
  tracked id h := by
    obtain ⟨j, hj, hr⟩ := ho.tracked id h
    exact ⟨j, mem_append_left _ hj, hr⟩
  keyed := ho.keyed

/-- Evidence of an offence not proved before adds an offence the log does not have. -/
theorem once_evidence (ho : σ.Once Γ hist) (e : EquivocationProof) (pubkey : Option Bytes) (offence : Offence)
    (hproved : provenOffence Γ e pubkey = some offence) (hf : FreshOffence Γ (σ, hist) (.evidence e pubkey true))
    (penalties : PenaltyState) :
    (⟨penalties, { σ.lifecycle with penalties := some penalties }, { σ.lifecycle with penalties := some penalties },
      σ.log ++ [⟨offence, e.offender⟩], σ.stopped⟩ : PenaltyNode).Once Γ (hist ++ [.evidence e pubkey true]) := by
  have hm := ho.mono (.evidence e pubkey true)
  obtain ⟨a, n, rfl⟩ : ∃ a n, offence = .equivocation a n := by
    unfold provenOffence at hproved
    split at hproved
    · cases hproved
    · split at hproved
      · cases hproved
        exact ⟨_, _, rfl⟩
      · cases hproved
  have hlast : provenBy Γ (.evidence e pubkey true) = some (.equivocation a n) := hproved
  refine ⟨?_, fun o hmem => ?_, hm.tracked, hm.keyed⟩
  · rw [map_append, nodup_append]
    refine ⟨ho.nodup, nodup_singleton _, ?_⟩
    rintro o hmem o' hmem' rfl
    rw [map_singleton, mem_singleton] at hmem'
    subst hmem'
    obtain ⟨j, hj, hp⟩ := ho.accounted _ hmem
    exact hf.1 _ hlast j hj hp
  · rw [map_append, mem_append, map_singleton, mem_singleton] at hmem
    rcases hmem with hmem | rfl
    · exact hm.accounted o hmem
    · exact ⟨_, mem_append_right _ mem_cons_self, hlast⟩

/-- A record is written of a challenge that was raised; if it is open, the challenge is not in the log. -/
theorem PenaltyNode.Once.record (ho : σ.Once Γ hist) (i : PenaltyInput) {next : ChallengeLifecycle} {r : ChallengeRecord}
    (hc : next.challenges = σ.lifecycle.challenges.insert r.challengeId r)
    (hraised : ∃ j ∈ hist ++ [i], raises j = some r.challengeId)
    (hopen : r.status = .opened → .challenge r.challengeId ∉ σ.log.map (·.offence)) :
    ({ σ with lifecycle := next, disk := next } : PenaltyNode).Once Γ (hist ++ [i]) := by
  have hm := ho.mono i
  refine ⟨hm.nodup, fun o hlog => (ho.accounted o hlog).mono _ ?_, fun id hid => ?_, fun id r' hr' => ?_⟩
  · rintro id rfl ⟨r', hr', hstatus⟩
    rw [hc] at hr'
    rcases AList.lookup_insert_eq_some.mp hr' with ⟨rfl, rfl⟩ | ⟨-, hold⟩
    · exact absurd hlog (hopen hstatus)
    · exact ⟨r', hold, hstatus⟩
  · simp only [hc, AList.mem_insert] at hid
    rcases hid with rfl | hid
    · exact hraised
    · exact hm.tracked id hid
  · rcases AList.lookup_insert_eq_some.mp (hc ▸ hr') with ⟨rfl, rfl⟩ | ⟨-, hold⟩
    · rfl
    · exact ho.keyed id r' hold

/-- The challenges that time out were open, so they are not in the log, and they are not open afterwards. -/
theorem once_advance (ho : σ.Once Γ hist) (n : Nat) (penalties : PenaltyState) (next : ChallengeLifecycle)
    (hc : next.challenges = (σ.lifecycle.checkTimeouts n).1.challenges) :
    (⟨penalties, next, next, σ.log ++ PenaltyNode.timeoutPenalties (σ.lifecycle.checkTimeouts n).2, σ.stopped⟩ :
      PenaltyNode).Once Γ (hist ++ [.advance n true]) := by
  have hm := ho.mono (.advance n true)
  -- what a penalty of this check says: its id is tracked, open and past its deadline
  have htimed : ∀ o ∈ (PenaltyNode.timeoutPenalties (σ.lifecycle.checkTimeouts n).2).map (·.offence),
      ∃ id r, o = .challenge id ∧ σ.lifecycle.challenges.lookup id = some r ∧ r.timedOut n = true := by
    intro o hmem
    simp only [PenaltyNode.timeoutPenalties, map_map, mem_map, mem_filter] at hmem
    obtain ⟨r, ⟨hr, -⟩, rfl⟩ := hmem
    simp only [checkTimeouts, mem_map, mem_filter] at hr
    obtain ⟨r', ⟨⟨e, he, rfl⟩, ht⟩, rfl⟩ := hr
    have hlookup := AList.mem_lookup_iff.2 he
    exact ⟨_, e.2, rfl, by rw [challengeId_afterTimeout, ho.keyed _ _ hlookup]; exact hlookup, ht⟩
  have hstays : ∀ id, next.IsOpen id →
      ∃ r, σ.lifecycle.challenges.lookup id = some r ∧ r.status = .opened ∧ r.timedOut n = false := by
    rintro id ⟨r, hr, hopen⟩
    rw [hc, lookup_checkTimeouts, Option.filter_eq_some_iff, Option.map_eq_some_iff] at hr
    obtain ⟨⟨r', hr', rfl⟩, -⟩ := hr
    unfold ChallengeRecord.afterTimeout at hopen
    split at hopen
    · cases hopen
    · rename_i htimed
      exact ⟨r', hr', hopen, by simpa using htimed⟩
  refine ⟨?_, fun o hmem => ?_, fun id hid => ?_, fun id r hr => ?_⟩
  · rw [map_append, nodup_append]
    refine ⟨ho.nodup, nodup_offence_timeoutPenalties (nodup_checkTimeouts_snd ho.keyed), ?_⟩
    rintro o hmem o' hmem' rfl
    obtain ⟨id, r, rfl, hr, ht⟩ := htimed o hmem'
    exact (ho.accounted _ hmem).2 ⟨r, hr, (of_decide_eq_true ht).1⟩
  · rw [map_append, mem_append] at hmem
    rcases hmem with hmem | hmem
    · refine (ho.accounted o hmem).mono _ fun id _ hid => ?_
      obtain ⟨r, hr, hopen, -⟩ := hstays id hid
      exact ⟨r, hr, hopen⟩
    · obtain ⟨id, r, rfl, hr, ht⟩ := htimed o hmem
      refine ⟨hm.tracked id (AList.lookup_isSome.1 (by rw [hr]; rfl)), fun hid => ?_⟩
      obtain ⟨r', hr', -, hnot⟩ := hstays id hid
      rw [← Option.some.inj (hr.symm.trans hr'), ht] at hnot
      cases hnot
  · rw [← AList.lookup_isSome, Option.isSome_iff_exists] at hid
    obtain ⟨r, hr⟩ := hid
    simp only [hc, lookup_checkTimeouts, Option.filter_eq_some_iff, Option.map_eq_some_iff] at hr
    obtain ⟨⟨r', hr', -⟩, -⟩ := hr
    exact hm.tracked id (AList.lookup_isSome.1 (by rw [hr']; rfl))
  · exact ho.keyed.checkTimeouts id r (hc ▸ hr)

/-- One fresh input keeps the offences of the log distinct. -/
theorem once_step (p : PenaltyNode × List PenaltyInput) (i : PenaltyInput) (hp : p.1.Synced E ∧ p.1.Once Γ p.2)
    (hf : FreshOffence Γ p i) : ((penaltySystem Γ E).withHistory.step p i).1.Synced E ∧
      ((penaltySystem Γ E).withHistory.step p i).1.Once Γ ((penaltySystem Γ E).withHistory.step p i).2 := by
  obtain ⟨σ, hist⟩ := p
  obtain ⟨hs, ho⟩ := hp
  refine ⟨synced_step Γ E σ i hs, ?_⟩
  show ((penaltySystem Γ E).step σ i).Once Γ (hist ++ [i])
  rcases penaltySystem_step Γ E σ i with h | h
  · rw [h]
    exact ho.mono i
  · generalize (penaltySystem Γ E).step σ i = σ' at h ⊢
    cases h with
    | evidence e pubkey offence hproved => exact once_evidence ho e pubkey offence hproved hf _
    | challenge id challenger prover headNumber next hmem _ _ hc =>
      -- a challenge that is opened was not raised before, so it is not in the log
      refine ho.record _ (r := ⟨id, prover, challenger, headNumber, .opened⟩) hc
        ⟨_, mem_append_right _ mem_cons_self, rfl⟩ fun _ hlog => ?_
      obtain ⟨j, hj, hraised⟩ := (ho.accounted _ hlog).1
      exact absurd hraised ((hf.2 id rfl).resolve_right hmem j hj)
    | response id r next hr _ hc =>
      obtain rfl := ho.keyed id r hr
      refine ho.record _ (r := { r with status := .resolved }) hc ?_ fun hopen => ?_
      · exact (ho.mono _).tracked r.challengeId (AList.lookup_isSome.1 (by rw [hr]; rfl))
      · cases hopen
    | advance n penalties next _ hc _ => exact once_advance ho n penalties next hc
    | restart =>
      have hm := ho.mono .restart
      have hd : σ.disk = σ.lifecycle := hs.disk
      exact ⟨hm.nodup, by simpa only [hd] using hm.accounted, by simpa only [hd] using hm.tracked,
        by simpa only [hd] using hm.keyed⟩
    | stop =>
      have hm := ho.mono .restart
      exact ⟨hm.nodup, hm.accounted, hm.tracked, hm.keyed⟩

end Once

/-- In every run of fresh offences the log has no offence twice. -/
theorem once_run (Γ : Ctx) (E : SlashingEngine) (l : List PenaltyInput)
    (hl : (penaltySystem Γ E).withHistory.Admits (FreshOffence Γ) (.start, []) l) :
    (((penaltySystem Γ E).run .start l).log.map (·.offence)).Nodup := by
  have hstart : PenaltyNode.start.Once Γ [] :=
    ⟨nodup_nil, nofun, nofun, nofun⟩
  have h := TransitionSystem.invariant_run
    (I := fun p : PenaltyNode × List PenaltyInput => p.1.Synced E ∧ p.1.Once Γ p.2) once_step ⟨.start E, hstart⟩ hl
  rw [TransitionSystem.run_withHistory] at h
  exact h.2.nodup

/-- In every run in which evidence proves no offence twice and no challenge is raised again after its record was dropped: the
penalties of the engine are the slashes of the log, no offence is in the log twice, and a run of this kind with the same
set of penalties ends with the same penalty state. -/
theorem penalized_once (Γ : Ctx) (E : SlashingEngine) (l : List PenaltyInput)
    (hl : (penaltySystem Γ E).withHistory.Admits (FreshOffence Γ) (.start, []) l) :
    ((penaltySystem Γ E).run .start l).penalties =
        (((penaltySystem Γ E).run .start l).log.map (·.offender)).foldl E.applySlash .none ∧
      (((penaltySystem Γ E).run .start l).log.map (·.offence)).Nodup ∧
      ∀ l', (penaltySystem Γ E).withHistory.Admits (FreshOffence Γ) (.start, []) l' →
        ((penaltySystem Γ E).run .start l).log.toFinset = ((penaltySystem Γ E).run .start l').log.toFinset →
        ((penaltySystem Γ E).run .start l).penalties.Same ((penaltySystem Γ E).run .start l').penalties := by
  refine ⟨(synced_run Γ E l).replayed, once_run Γ E l hl, ?_⟩
  intro l' hl' hset
  have hnodup := List.Nodup.of_map _ (once_run Γ E l hl)
  have hnodup' := List.Nodup.of_map _ (once_run Γ E l' hl')
  have hperm := List.perm_of_nodup_nodup_toFinset_eq hnodup hnodup' hset
  rw [(synced_run Γ E l).replayed, (synced_run Γ E l').replayed]
  exact E.same_of_perm (hperm.map _) .none

/-! ## Restarts -/

section Restarts

variable {Γ : Ctx} {E : SlashingEngine} {σ : PenaltyNode}

/-- The weights of an engine, which clamps them when it takes them. -/
def SlashingEngine.Clamped (E : SlashingEngine) : Prop :=
  ∀ a weight, E.baseWeights.lookup a = some weight → weight ≤ maxValidatorWeight

/-- Weight is taken only from slashed authorities, and not more than a validator can have. -/
def PenaltyState.Fits (p : PenaltyState) : Prop :=
  ∀ a taken, p.reductions.lookup a = some taken → a ∈ p.slashed ∧ taken ≤ maxValidatorWeight

theorem PenaltyState.Fits.applySlash {p : PenaltyState} (hp : p.Fits) (hE : E.Clamped) (offender : Address) :
    (E.applySlash p offender).Fits := by
  intro a taken h
  rcases AList.lookup_insert_eq_some.mp h with ⟨rfl, rfl⟩ | ⟨-, h⟩
  · refine ⟨Finset.mem_insert_self _ _, (Nat.min_le_right _ _).trans ?_⟩
    cases hbase : E.baseWeights.lookup a with
    | none => exact Nat.le_of_ble_eq_true rfl
    | some weight => exact hE a weight hbase
  · exact ⟨Finset.mem_insert_of_mem (hp a taken h).1, (hp a taken h).2⟩

/-- The node runs, and has room for what it tracks. -/
structure PenaltyNode.Running (σ : PenaltyNode) : Prop where
  size_le : σ.lifecycle.challenges.size ≤ maxTrackedChallenges
  running : σ.stopped = false

/-- The snapshot of a synced node with room for it loads. -/
theorem PenaltyNode.Synced.loads (hs : σ.Synced E) (hE : E.Clamped)
    (hsize : σ.lifecycle.challenges.size ≤ maxTrackedChallenges) : σ.disk.loads maxValidatorWeight = true := by
  have hfits : σ.penalties.Fits := by
    rw [hs.replayed]
    exact foldlRecOn _ _ (fun a taken h => by cases h) fun p hp o _ => hp.applySlash hE o
  rw [hs.restored] at hfits
  rw [hs.disk, ChallengeLifecycle.loads, Bool.and_eq_true]
  refine ⟨decide_eq_true hsize, ?_⟩
  cases hp : σ.lifecycle.penalties with
  | none => rfl
  | some p =>
    rw [hp] at hfits
    exact all_eq_true.mpr fun e he => decide_eq_true (hfits e.1 e.2 (AList.mem_lookup_iff.mpr he))

/-- Every input leaves a synced node running. -/
theorem running_step (hE : E.Clamped) (hs : σ.Synced E) (hr : σ.Running) (i : PenaltyInput) :
    ((penaltySystem Γ E).step σ i).Running := by
  rcases penaltySystem_step Γ E σ i with h | h
  · rw [h]
    exact hr
  · generalize (penaltySystem Γ E).step σ i = σ' at h ⊢
    cases h with
    | evidence => exact ⟨hr.size_le, hr.running⟩
    | challenge id _ _ _ next hmem hroom _ hc =>
      refine ⟨?_, hr.running⟩
      simpa only [hc, AList.size, AList.entries_insert_of_notMem hmem, length_cons] using Nat.succ_le_of_lt hroom
    | response id r next hlookup _ hc =>
      refine ⟨?_, hr.running⟩
      rw [hc, AList.size_insert_of_mem (AList.lookup_isSome.mp (by rw [hlookup]; rfl))]
      exact hr.size_le
    | advance n penalties next _ hc _ =>
      refine ⟨?_, hr.running⟩
      rw [hc, checkTimeouts]
      refine (length_filter_le _ _).trans ?_
      rw [AList.mapVal, length_map]
      exact hr.size_le
    | restart => exact ⟨by simpa only [hs.disk] using hr.size_le, rfl⟩
    | stop hrefused => exact absurd (hs.loads hE hr.size_le) (by rw [hrefused]; exact Bool.false_ne_true)

/-- A restart of a synced and running node changes nothing. -/
theorem PenaltyNode.Synced.restart_eq (hs : σ.Synced E) (hr : σ.Running) (hE : E.Clamped) :
    (penaltySystem Γ E).step σ .restart = σ := by
  have hloads := hs.loads hE hr.size_le
  obtain ⟨hdisk, hrestored, -⟩ := hs
  obtain ⟨-, hrunning⟩ := hr
  rw [hdisk] at hloads
  cases σ
  dsimp only at hdisk hrestored hrunning hloads
  simp [penaltySystem, handle, PenaltyNode.restart, hloads, hdisk, ← hrestored, hrunning]

/-- With clamped weights no start fails, and every run ends in the state in which it ends without its restarts. -/
theorem restarts_unnoticed (Γ : Ctx) (E : SlashingEngine) (hE : E.Clamped) (l : List PenaltyInput) :
    ((penaltySystem Γ E).run .start l).stopped = false ∧
      (penaltySystem Γ E).run .start (l.filter (· ≠ .restart)) = (penaltySystem Γ E).run .start l := by
  have hrunning : ∀ l, ((penaltySystem Γ E).run .start l).Synced E ∧ ((penaltySystem Γ E).run .start l).Running :=
    TransitionSystem.invariant_run_of_step (I := fun σ => σ.Synced E ∧ σ.Running)
      (fun σ i h => ⟨synced_step Γ E σ i h.1, running_step hE h.1 h.2 i⟩) ⟨.start E, Nat.zero_le _, rfl⟩
  refine ⟨(hrunning l).2.running, ?_⟩
  induction l using reverseRecOn with
  | nil => rfl
  | append_singleton l i ih =>
    rw [filter_append, TransitionSystem.run_append, TransitionSystem.run_append, ih]
    by_cases hi : i = .restart
    · subst hi
      exact ((hrunning l).1.restart_eq (hrunning l).2 hE).symm
    · simp [hi]

end Restarts

namespace PenaltyCex

/-- An authority with a one-byte key. -/
def offender : Address :=
  sampleAddress [1]

/-- Its weight is a thousand, and a slash takes ten percent. -/
def engine : SlashingEngine :=
  ⟨[⟨offender, 1000⟩].toAList, 1000⟩

/-- A header of height five by the authority. -/
def header (root : UInt8) : BlockHeader :=
  { (default : BlockHeader) with number := 5, proposer := offender, parentHash := .repeatByte root }

/-- The two headers with their seals. -/
def proof : EquivocationProof :=
  ⟨offender, header 1, header 2, (header 1).hash sampleCtx, (header 2).hash sampleCtx,
    some ⟨.mlDsa65, sampleSign [1] ((header 1).hash sampleCtx).bytes⟩,
    some ⟨.mlDsa65, sampleSign [1] ((header 2).hash sampleCtx).bytes⟩⟩

def evidence : PenaltyInput :=
  .evidence proof (some [1]) true

/-- A challenge of a block by this authority is raised at a height. -/
def challenge (headNumber : Nat) : PenaltyInput :=
  .challenge (.repeatByte 9) (.repeatByte 3) offender headNumber true

/-- Evidence, an open challenge and its timeout, with a restart after each. -/
theorem restarts_unnoticed_two_offences :
    (penaltySystem sampleCtx engine).run .start [evidence, challenge 5, .advance 7205 true] =
      (penaltySystem sampleCtx engine).run .start
        [evidence, .restart, challenge 5, .restart, .advance 7205 true, .restart] := by
  have hclamped : engine.Clamped := by
    intro a weight h
    have hmem : (⟨a, weight⟩ : Σ _, Nat) ∈ [⟨offender, 1000⟩] := AList.mem_lookup_iff.mp h
    cases mem_singleton.mp hmem
    decide
  exact (restarts_unnoticed sampleCtx engine hclamped
    [evidence, .restart, challenge 5, .restart, .advance 7205 true, .restart]).2

/-- Evidence, an unanswered challenge and a restart: each offence is penalized once. -/
theorem penalized_once_two_offences :
    (((penaltySystem sampleCtx engine).run .start
      [evidence, challenge 5, .restart, .advance 7205 true]).log.map (·.offence)).Nodup :=
  (penalized_once sampleCtx engine [evidence, challenge 5, .restart, .advance 7205 true] (by
    refine ⟨⟨fun _ _ _ hj => absurd hj List.not_mem_nil, nofun⟩, ⟨nofun, fun id _ => Or.inl ?_⟩, ⟨nofun, nofun⟩,
      ⟨nofun, nofun⟩, trivial⟩
    intro j hj
    rw [show j = evidence from List.mem_singleton.1 hj]
    exact nofun)).2.1

/-- Evidence delivered twice is penalized twice, and so is a challenge raised again after its record was dropped. -/
theorem penalized_twice :
    ¬ (((penaltySystem sampleCtx engine).run .start [evidence, evidence]).log.map (·.offence)).Nodup ∧
    ((penaltySystem sampleCtx engine).run .start [evidence]).penalties.reductions.lookup offender = some 100 ∧
    ((penaltySystem sampleCtx engine).run .start [evidence, evidence]).penalties.reductions.lookup offender = some 190 ∧
    ¬ (((penaltySystem sampleCtx engine).run .start
      [challenge 0, .advance 7200 true, .advance 14400 true, challenge 14400, .advance 21600 true]).log.map
        (·.offence)).Nodup := by
  refine ⟨?_, ?_, ?_, ?_⟩ <;> decide +kernel

end PenaltyCex

end ShellChain
