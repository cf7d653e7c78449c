import ShellChain.Penalties

/-!
# Lemmas on penalties

The weight taken from an authority after a list of slashes depends only on how often it occurs in the list, so the order of
slashes does not matter. Then what each operation of the challenge lifecycle does to the record of an id.
-/

namespace ShellChain

open List PenaltyNode

/-! ## Slashes commute -/

/-- Two penalty states with the same slashed authorities and the same weight taken from each. -/
def PenaltyState.Same (p q : PenaltyState) : Prop :=
  p.slashed = q.slashed ∧ ∀ a, p.reductions.lookup a = q.reductions.lookup a

namespace SlashingEngine

variable (E : SlashingEngine)

/-- The weight taken from an authority after one more slash, from the weight taken before. -/
def nextReduction (offender : Address) (taken : Option Nat) : Nat :=
  let currentWeight := ((E.baseWeights.lookup offender).map fun baseWeight => baseWeight - taken.getD 0).getD 1
  min (saturatingAdd (taken.getD 0) (currentWeight * E.slashWeightBps / 10000 % 2 ^ 64))
    ((E.baseWeights.lookup offender).getD 1)

/-- The weight taken from an authority by a list of slashes depends on the number of its occurrences alone. -/
theorem lookup_foldl_applySlash (l : List Address) (p : PenaltyState) (a : Address) :
    (l.foldl E.applySlash p).reductions.lookup a =
      (fun taken => some (E.nextReduction a taken))^[l.count a] (p.reductions.lookup a) := by
  induction l generalizing p with
  | nil => rfl
  | cons o l ih =>
    rw [foldl_cons, ih]
    by_cases h : a = o
    · subst h
      rw [count_cons_self, Function.iterate_succ_apply]
      exact congrArg _ (AList.lookup_insert _)
    · rw [count_cons_of_ne (Ne.symm h)]
      exact congrArg _ (AList.lookup_insert_ne h)

theorem slashed_foldl_applySlash (l : List Address) (p : PenaltyState) :
    (l.foldl E.applySlash p).slashed = l.toFinset ∪ p.slashed := by
  induction l generalizing p with
  | nil => simp
  | cons o l ih =>
    rw [foldl_cons, ih, toFinset_cons]
    ext a
    simp only [applySlash, Finset.mem_union, Finset.mem_insert]
    tauto

/-- Slashes in another order lead to the same penalties. -/
theorem same_of_perm {l l' : List Address} (h : l.Perm l') (p : PenaltyState) :
    (l.foldl E.applySlash p).Same (l'.foldl E.applySlash p) := by
  refine ⟨?_, fun a => ?_⟩
  · rw [slashed_foldl_applySlash, slashed_foldl_applySlash, toFinset_eq_of_perm _ _ h]
  · rw [lookup_foldl_applySlash, lookup_foldl_applySlash, h.count_eq]

end SlashingEngine

/-! ## The record of an id -/

namespace ChallengeLifecycle

variable {c : ChallengeLifecycle}

/-- The records are filed under their own ids. -/
def Keyed (c : ChallengeLifecycle) : Prop :=
  ∀ id r, c.challenges.lookup id = some r → r.challengeId = id

/-- The challenge with this id is tracked as open. -/
def IsOpen (c : ChallengeLifecycle) (id : ShellHash) : Prop :=
  ∃ r, c.challenges.lookup id = some r ∧ r.status = .opened

theorem lookup_checkTimeouts (c : ChallengeLifecycle) (n : Nat) (id : ShellHash) :
    (c.checkTimeouts n).1.challenges.lookup id =
      ((c.challenges.lookup id).map (ChallengeRecord.afterTimeout n)).filter (·.isKept n) := by
  rw [checkTimeouts, AList.lookup_retain, AList.lookup_mapVal]

theorem challengeId_afterTimeout (n : Nat) (r : ChallengeRecord) : (r.afterTimeout n).challengeId = r.challengeId := by
  unfold ChallengeRecord.afterTimeout
  split <;> rfl

theorem Keyed.checkTimeouts {n : Nat} (hk : c.Keyed) : (c.checkTimeouts n).1.Keyed := by
  intro id r hr
  rw [lookup_checkTimeouts, Option.filter_eq_some_iff, Option.map_eq_some_iff] at hr
  obtain ⟨⟨r', hr', rfl⟩, -⟩ := hr
  rw [challengeId_afterTimeout]
  exact hk id r' hr'

/-- No id times out twice in one check. -/
theorem nodup_checkTimeouts_snd {n : Nat} (hk : c.Keyed) : ((c.checkTimeouts n).2.map (·.challengeId)).Nodup := by
  have hids : (c.checkTimeouts n).2.map (·.challengeId) =
      (((c.challenges.entries.filter fun e => e.2.timedOut n)).map Sigma.fst) := by
    have hfilter : (c.challenges.entries.map Sigma.snd).filter (fun r => r.timedOut n) =
        (c.challenges.entries.filter fun e => e.2.timedOut n).map Sigma.snd := by
      rw [filter_map]
      rfl
    rw [checkTimeouts, hfilter, map_map, map_map]
    refine map_congr_left fun e he => ?_
    have hmem := (mem_filter.1 he).1
    rw [Function.comp_apply, Function.comp_apply, challengeId_afterTimeout]
    exact hk _ _ (AList.mem_lookup_iff.2 hmem)
  rw [hids]
  exact (c.challenges.nodupKeys.sublist filter_sublist : List.NodupKeys _)

end ChallengeLifecycle

/-! ## The penalties of a deadline check -/

theorem nodup_offence_timeoutPenalties {slashed : List ChallengeRecord} (h : (slashed.map (·.challengeId)).Nodup) :
    ((timeoutPenalties slashed).map (·.offence)).Nodup := by
  have hmap : (timeoutPenalties slashed).map (·.offence) =
      ((slashed.filter fun r => r.prover ≠ Address.zero).map (·.challengeId)).map Offence.challenge := by
    rw [timeoutPenalties, map_map, map_map]
    rfl
  rw [hmap]
  refine List.Nodup.map (fun _ _ => Offence.challenge.inj) (h.sublist ?_)
  exact List.Sublist.map _ filter_sublist

/-! ## What an input does -/

/-- The step of the penalty handlers on each input that changes the node. -/
inductive PenaltyStep (Γ : Ctx) (E : SlashingEngine) (σ : PenaltyNode) : PenaltyInput → PenaltyNode → Prop
  /-- Proved evidence is penalized. -/
  | evidence (e : EquivocationProof) (pubkey : Option Bytes) (offence : Offence) :
    provenOffence Γ e pubkey = some offence →
    PenaltyStep Γ E σ (.evidence e pubkey true)
      ⟨E.applySlash σ.penalties e.offender, { σ.lifecycle with penalties := some (E.applySlash σ.penalties e.offender) },
        { σ.lifecycle with penalties := some (E.applySlash σ.penalties e.offender) }, σ.log ++ [⟨offence, e.offender⟩],
        σ.stopped⟩
  /-- A challenge that is not tracked is opened when there is room. -/
  | challenge (id : ShellHash) (challenger prover : Address) (headNumber : Nat) (next : ChallengeLifecycle) :
    id ∉ σ.lifecycle.challenges → σ.lifecycle.challenges.size < maxTrackedChallenges → next.penalties = σ.lifecycle.penalties →
    next.challenges = σ.lifecycle.challenges.insert id ⟨id, prover, challenger, headNumber, .opened⟩ →
    PenaltyStep Γ E σ (.challenge id challenger prover headNumber true) { σ with lifecycle := next, disk := next }
  /-- An open challenge is resolved. -/
  | response (id : ShellHash) (r : ChallengeRecord) (next : ChallengeLifecycle) :
    σ.lifecycle.challenges.lookup id = some r → next.penalties = σ.lifecycle.penalties →
    next.challenges = σ.lifecycle.challenges.insert id { r with status := .resolved } →
    PenaltyStep Γ E σ (.response id true) { σ with lifecycle := next, disk := next }
  /-- The challenges past their deadline are penalized. -/
  | advance (n : Nat) (penalties : PenaltyState) (next : ChallengeLifecycle) :
    penalties = ((PenaltyNode.timeoutPenalties (σ.lifecycle.checkTimeouts n).2).map (·.offender)).foldl E.applySlash σ.penalties →
    next.challenges = (σ.lifecycle.checkTimeouts n).1.challenges →
    next.penalties = (if (σ.lifecycle.checkTimeouts n).2 = [] then σ.lifecycle.penalties else some penalties) →
    PenaltyStep Γ E σ (.advance n true)
      ⟨penalties, next, next, σ.log ++ PenaltyNode.timeoutPenalties (σ.lifecycle.checkTimeouts n).2, σ.stopped⟩
  /-- The node starts from its disk. -/
  | restart : PenaltyStep Γ E σ .restart
      { σ with lifecycle := σ.disk, penalties := σ.disk.penalties.getD .none, stopped := false }
  /-- The node cannot start. -/
  | stop : σ.disk.loads maxValidatorWeight = false → PenaltyStep Γ E σ .restart { σ with stopped := true }

/-- An input leaves the node as it is or does one of these steps. -/
theorem penaltySystem_step (Γ : Ctx) (E : SlashingEngine) (σ : PenaltyNode) (i : PenaltyInput) :
    (penaltySystem Γ E).step σ i = σ ∨ PenaltyStep Γ E σ i ((penaltySystem Γ E).step σ i) := by
  simp only [penaltySystem]
  split
  · exact Or.inl rfl
  clear * -
  cases i with
  | evidence e pubkey writes =>
    cases writes with
    | false => left; simp only [handle]; split <;> rfl
    | true =>
      simp only [handle]
      split
      · exact Or.inl rfl
      · rename_i offence ho
        exact Or.inr (.evidence e pubkey offence ho)
  | challenge id challenger prover headNumber writes =>
    simp only [handle, ChallengeLifecycle.openChallenge]
    by_cases h : id ∈ σ.lifecycle.challenges ∨ maxTrackedChallenges ≤ σ.lifecycle.challenges.size
    · rw [if_pos h]
      exact Or.inl rfl
    · rw [if_neg h]
      cases writes with
      | false => exact Or.inl rfl
      | true => exact Or.inr (.challenge id challenger prover headNumber _ (fun hmem => h (Or.inl hmem))
        (Nat.lt_of_not_le fun hfull => h (Or.inr hfull)) rfl rfl)
  | response id writes =>
    simp only [handle, ChallengeLifecycle.resolveChallenge]
    cases hr : σ.lifecycle.challenges.lookup id with
    | none => exact Or.inl rfl
    | some r =>
      by_cases h : r.status ≠ .opened
      · simp only [if_pos h]
        exact Or.inl trivial
      · simp only [if_neg h]
        cases writes with
        | false => exact Or.inl rfl
        | true => exact Or.inr (.response id r _ hr rfl rfl)
  | advance n writes =>
    simp only [handle, slashTimedOutChallenges]
    by_cases hc : σ.timeoutsChange n = true ∧ writes = true
    · rw [if_pos hc, hc.2]
      refine Or.inr (.advance n _ _ rfl ?_ ?_)
      · split <;> rfl
      · split <;> rfl
    · rw [if_neg hc]
      exact Or.inl rfl
  | restart =>
    simp only [handle, restart]
    split
    · exact Or.inr .restart
    · rename_i hrefused
      exact Or.inr (.stop (Bool.eq_false_iff.mpr hrefused))

end ShellChain
