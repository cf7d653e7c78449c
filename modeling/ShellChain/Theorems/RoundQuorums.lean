import ShellChain.Lemmas.Finality
import ShellChain.Theorems.RoundCommits

/-!
# The quorums of a round

The votes a round has recorded are a function of the calls since its proposal: of each known validator, the first vote for
the proposed hash. The stored weight is the weight of the recorded voters, so that a commit carries the signatures of voters
who weigh more than two thirds of the total. The same holds of the voters of a view change, who weigh two thirds.
-/

namespace ShellChain

open WeightedQuorum WPoaRound List

/-! ## What the calls since a proposal say -/

/-- The signature of the first vote of a validator for a hash. -/
def signatureSince (a : Address) (h : ShellHash) (since : List RoundCall) : Option PQSignature :=
  since.findSome? (RoundCall.signatureOf a h)

/-- A new round of the validators after some calls. -/
def roundAfter (W : ValidatorWeights) (blockNumber view : Nat) (calls : List RoundCall) : WPoaRound :=
  (roundSystem.run (.new blockNumber view W.weights, []) calls).1

/-- The phase collects votes for the hash. -/
def RoundPhase.VotesOn (h : ShellHash) (p : RoundPhase) : Prop :=
  ∃ votes weight, p = .voting h votes weight

/-- The phase collects votes for a change to the view. -/
def RoundPhase.ChangesTo (v : Nat) (p : RoundPhase) : Prop :=
  ∃ votes weight, p = .viewChanging v votes weight

section

variable (W : ValidatorWeights) (blockNumber view : Nat)

/-- The calls since the proposal of `h` that opened the present voting phase. -/
def VotingSince (calls : List RoundCall) (h : ShellHash) (since : List RoundCall) : Prop :=
  ∃ before, calls = before ++ .blockProposed h :: since ∧ (roundAfter W blockNumber view before).phase = .idle ∧
    ∀ n, (roundAfter W blockNumber view (before ++ .blockProposed h :: since.take n)).phase.VotesOn h

/-- The calls since the start of the present view change. -/
def ChangingSince (calls : List RoundCall) (v : Nat) (since : List RoundCall) : Prop :=
  ∃ before, calls = before ++ .startViewChange v :: since ∧ (∀ v', .startViewChange v' ∉ since) ∧
    ∀ n, (roundAfter W blockNumber view (before ++ .startViewChange v :: since.take n)).phase.ChangesTo v

/-- The recorded votes are the first votes of the known validators. -/
def RecordsVotes (h : ShellHash) (since : List RoundCall) (votes : HashMap Address PQSignature) : Prop :=
  ∀ a, votes.lookup a = if (W.get a).isSome then signatureSince a h since else none

/-- The recorded voters are the known validators that have asked for the view. -/
def RecordsVoters (v : Nat) (since : List RoundCall) (voters : Finset Address) : Prop :=
  ∀ a, a ∈ voters ↔ (W.get a).isSome ∧ .viewChangeVote a v ∈ since

/-- What the phase of a round stores is accounted for by the calls since the phase began. -/
def PhaseRecords (calls : List RoundCall) : RoundPhase → Prop
  | .voting h votes weight =>
    (∃ since, VotingSince W blockNumber view calls h since ∧ RecordsVotes W h since votes) ∧
      weight = W.weightOfSet votes.keys.toFinset
  | .viewChanging v voters weight =>
    (∃ since, ChangingSince W blockNumber view calls v since ∧ RecordsVoters W v since voters) ∧
      weight = W.weightOfSet voters
  | _ => True

end

section

variable {W : ValidatorWeights} {blockNumber view : Nat} {calls since : List RoundCall} {c : RoundCall} {r : WPoaRound}

theorem roundAfter_concat (calls : List RoundCall) (c : RoundCall) :
    roundAfter W blockNumber view (calls ++ [c]) = ((roundAfter W blockNumber view calls).call c).1 := by
  simp [roundAfter, roundSystem]

/-! ## The weights of a round -/

theorem foldl_saturatingAdd (l : List Nat) (n : Nat) (h : n + l.sum ≤ u64Max) : l.foldl saturatingAdd n = n + l.sum := by
  induction l generalizing n with
  | nil => rfl
  | cons m l ih =>
    rw [sum_cons] at h ⊢
    have hstep : saturatingAdd n m = n + m := Nat.min_eq_left (by omega)
    rw [foldl_cons, hstep, ih _ (by omega), Nat.add_assoc]

variable {next : WPoaRound × List WPoaEvent} {voter : Address} {voters : Finset Address} {weight v voteWeight : Nat}
  {h : ShellHash} {votes : HashMap Address PQSignature}

theorem RoundStep.weights (h : RoundStep r c next) :
    next.1.validatorWeights = r.validatorWeights ∧ next.1.totalWeight = r.totalWeight := by
  cases h with
  | voted =>
    unfold recordVote
    split <;> exact ⟨rfl, rfl⟩
  | asked =>
    unfold recordViewChangeVote
    split <;> exact ⟨rfl, rfl⟩
  | _ => exact ⟨rfl, rfl⟩

/-- The weights of a round are those it was made with. -/
theorem roundAfter_weights (W : ValidatorWeights) (blockNumber view : Nat) (calls : List RoundCall) :
    (roundAfter W blockNumber view calls).validatorWeights = W.weights ∧
      (roundAfter W blockNumber view calls).totalWeight = W.total := by
  induction calls using reverseRecOn with
  | nil =>
    refine ⟨rfl, (foldl_saturatingAdd _ 0 ?_).trans (Nat.zero_add _)⟩
    exact (Nat.zero_add _).trans_le W.total_le
  | append_singleton calls c ih =>
    rw [roundAfter_concat]
    have hstep := (roundStep_call (roundAfter W blockNumber view calls) c).weights
    exact ⟨hstep.1.trans ih.1, hstep.2.trans ih.2⟩

/-- The weight of one more voter, which does not saturate. -/
theorem saturatingAdd_weight (hknown : W.get voter = some weight) (hnew : voter ∉ voters) :
    saturatingAdd (W.weightOfSet voters) weight = W.weightOfSet (insert voter voters) := by
  have hweight : W.weightOf voter = weight := by
    rw [ValidatorWeights.weightOf, weightOf, ← ValidatorWeights.get, hknown, Option.getD_some]
  have hsum : W.weightOfSet (insert voter voters) = weight + W.weightOfSet voters := by
    rw [ValidatorWeights.weightOfSet, Finset.sum_insert hnew, hweight]
    rfl
  have hle : W.weightOfSet (insert voter voters) ≤ W.total := sum_weightOf_le_total _ _
  have htotal : W.total ≤ u64Max := W.total_le
  rw [saturatingAdd, hsum, Nat.add_comm]
  exact Nat.min_eq_left (by omega)

/-! ## One more call in a phase -/

theorem signatureSince_concat (a : Address) (h : ShellHash) (since : List RoundCall) (c : RoundCall) :
    signatureSince a h (since ++ [c]) = (signatureSince a h since).or (c.signatureOf a h) := by
  simp [signatureSince, findSome?_append]

/-- A call that adds no first vote of a known validator leaves the record as it is. -/
theorem RecordsVotes.of_refused (hvotes : RecordsVotes W h since votes)
    (hrefused : ∀ a, (W.get a).isSome → votes.lookup a = none → c.signatureOf a h = none) :
    RecordsVotes W h (since ++ [c]) votes := by
  intro a
  rw [hvotes a, signatureSince_concat]
  by_cases hknown : (W.get a).isSome
  · rw [if_pos hknown, if_pos hknown]
    cases hsig : signatureSince a h since with
    | some sig => rfl
    | none =>
      have hnone : votes.lookup a = none := by rw [hvotes a, if_pos hknown, hsig]
      rw [hrefused a hknown hnone, Option.none_or]
  · rw [if_neg hknown, if_neg hknown]

/-- The first vote of a known validator is added to the record. -/
theorem RecordsVotes.insert (hvotes : RecordsVotes W h since votes) (hknown : (W.get voter).isSome) (hnew : voter ∉ votes)
    (sig : PQSignature) : RecordsVotes W h (since ++ [.vote voter h sig]) (votes.insert voter sig) := by
  intro a
  rw [signatureSince_concat]
  by_cases ha : a = voter
  · subst ha
    have hnone : signatureSince a h since = none := by
      rw [← AList.lookup_eq_none, hvotes a, if_pos hknown] at hnew
      exact hnew
    rw [AList.lookup_insert, if_pos hknown, hnone]
    simp [RoundCall.signatureOf]
  · rw [AList.lookup_insert_ne ha, hvotes a]
    simp [RoundCall.signatureOf, Ne.symm ha]

theorem RecordsVoters.of_refused (hvoters : RecordsVoters W v since voters)
    (hrefused : ∀ a, (W.get a).isSome → c = .viewChangeVote a v → a ∈ voters) : RecordsVoters W v (since ++ [c]) voters := by
  intro a
  rw [mem_append, mem_singleton, and_or_left, ← hvoters a]
  constructor
  · exact Or.inl
  · rintro (hmem | ⟨hknown, rfl⟩)
    · exact hmem
    · exact hrefused a hknown rfl

theorem RecordsVoters.insert (hvoters : RecordsVoters W v since voters) (hknown : (W.get voter).isSome) :
    RecordsVoters W v (since ++ [.viewChangeVote voter v]) (insert voter voters) := by
  intro a
  rw [Finset.mem_insert, hvoters a, mem_append, mem_singleton]
  constructor
  · rintro (rfl | ⟨hknown', hmem⟩)
    · exact ⟨hknown, .inr rfl⟩
    · exact ⟨hknown', .inl hmem⟩
  · rintro ⟨hknown', hmem | heq⟩
    · exact .inr ⟨hknown', hmem⟩
    · cases heq
      exact .inl rfl

/-- A phase that goes on with one more call. -/
theorem phase_concat {P : RoundPhase → Prop} {before : List RoundCall} {start : RoundCall}
    (h : ∀ n, P (roundAfter W blockNumber view (before ++ start :: since.take n)).phase)
    (hnext : P (roundAfter W blockNumber view (before ++ start :: since ++ [c])).phase) (n : Nat) :
    P (roundAfter W blockNumber view (before ++ start :: (since ++ [c]).take n)).phase := by
  by_cases hn : n ≤ since.length
  · rw [take_append_of_le_length hn]
    exact h n
  · rw [take_of_length_le (by simp; omega), ← cons_append, ← append_assoc]
    exact hnext

theorem VotingSince.concat (hsince : VotingSince W blockNumber view calls h since)
    (hphase : (roundAfter W blockNumber view (calls ++ [c])).phase.VotesOn h) :
    VotingSince W blockNumber view (calls ++ [c]) h (since ++ [c]) := by
  obtain ⟨before, rfl, hidle, hvoting⟩ := hsince
  exact ⟨before, by simp, hidle, phase_concat hvoting hphase⟩

theorem ChangingSince.concat (hsince : ChangingSince W blockNumber view calls v since)
    (hstart : ∀ v', c ≠ .startViewChange v') (hphase : (roundAfter W blockNumber view (calls ++ [c])).phase.ChangesTo v) :
    ChangingSince W blockNumber view (calls ++ [c]) v (since ++ [c]) := by
  obtain ⟨before, rfl, hfresh, hchanging⟩ := hsince
  refine ⟨before, by simp, fun v' hmem => ?_, phase_concat hchanging hphase⟩
  rcases mem_append.mp hmem with hmem | hmem
  · exact hfresh v' hmem
  · exact hstart v' (mem_singleton.mp hmem).symm

/-! ## What every phase of a run records -/

/-- An ignored call keeps the account of the phase. -/
theorem PhaseRecords.of_ignored {p : RoundPhase} (hrecords : PhaseRecords W blockNumber view calls p)
    (hp : r.phase = p) (hnext : roundAfter W blockNumber view (calls ++ [c]) = r) (hweights : r.validatorWeights = W.weights)
    (hignores : r.Ignores c) : PhaseRecords W blockNumber view (calls ++ [c]) p := by
  cases p with
  | voting h votes weight =>
    obtain ⟨⟨since, hsince, hvotes⟩, hweight⟩ := hrecords
    refine ⟨⟨since ++ [c], hsince.concat ⟨_, _, hnext ▸ hp⟩, hvotes.of_refused fun a ha => ?_⟩, hweight⟩
    exact hignores.vote h votes weight hp a (hweights ▸ ha)
  | viewChanging v voters weight =>
    obtain ⟨⟨since, hsince, hvoters⟩, hweight⟩ := hrecords
    refine ⟨⟨since ++ [c], hsince.concat hignores.start ⟨_, _, hnext ▸ hp⟩, hvoters.of_refused fun a ha => ?_⟩, hweight⟩
    exact hignores.view v voters weight hp a (hweights ▸ ha)
  | _ => trivial

/-- The record and the weight that the first vote of a known validator leads to. -/
theorem counted_vote (sig : PQSignature) (hrecords : PhaseRecords W blockNumber view calls (.voting h votes voteWeight))
    (hknown : W.get voter = some weight) (hnew : voter ∉ votes) : (∃ since, VotingSince W blockNumber view calls h since ∧
      RecordsVotes W h (since ++ [.vote voter h sig]) (votes.insert voter sig)) ∧
    saturatingAdd voteWeight weight = W.weightOfSet (votes.insert voter sig).keys.toFinset := by
  obtain ⟨⟨since, hsince, hvotes⟩, rfl⟩ := hrecords
  refine ⟨⟨since, hsince, hvotes.insert (by rw [hknown]; rfl) hnew sig⟩, ?_⟩
  have hkeys : (votes.insert voter sig).keys.toFinset = insert voter votes.keys.toFinset := by
    ext a
    simp only [mem_toFinset, Finset.mem_insert]
    exact AList.mem_insert votes
  rw [hkeys]
  exact saturatingAdd_weight hknown fun hmem => hnew (AList.mem_keys.mpr (mem_toFinset.mp hmem))

theorem counted_viewChangeVote (hrecords : PhaseRecords W blockNumber view calls (.viewChanging v voters voteWeight))
    (hknown : W.get voter = some weight) (hnew : voter ∉ voters) :
    (∃ since, ChangingSince W blockNumber view calls v since ∧
      RecordsVoters W v (since ++ [.viewChangeVote voter v]) (insert voter voters)) ∧
    saturatingAdd voteWeight weight = W.weightOfSet (insert voter voters) := by
  obtain ⟨⟨since, hsince, hvoters⟩, rfl⟩ := hrecords
  exact ⟨⟨since, hsince, hvoters.insert (by rw [hknown]; rfl)⟩, saturatingAdd_weight hknown hnew⟩

theorem PhaseRecords.step (hrecords : PhaseRecords W blockNumber view calls r.phase)
    (hweights : r.validatorWeights = W.weights) (hr : roundAfter W blockNumber view calls = r)
    (hnext : roundAfter W blockNumber view (calls ++ [c]) = next.1) (hstep : RoundStep r c next) :
    PhaseRecords W blockNumber view (calls ++ [c]) next.1.phase := by
  cases hstep with
  | ignored _ hignores => exact hrecords.of_ignored rfl hnext hweights hignores
  | proposed hidle =>
    refine ⟨⟨[], ⟨calls, rfl, hr ▸ hidle, fun n => ?_⟩, fun a => by simp [signatureSince]⟩, rfl⟩
    rw [take_nil, hnext]
    exact ⟨_, _, rfl⟩
  | @voted voter h sig weight votes voteWeight hknown hphase hfresh =>
    rw [hphase] at hrecords
    rw [hweights] at hknown
    obtain ⟨⟨since, hsince, hvotes⟩, hweight⟩ := counted_vote sig hrecords hknown hfresh
    unfold recordVote at hnext ⊢
    split at hnext
    · next hquorum =>
      rw [if_pos hquorum]
      trivial
    · next hquorum =>
      rw [if_neg hquorum]
      exact ⟨⟨since ++ [.vote voter h sig], hsince.concat ⟨_, _, congrArg phase hnext⟩, hvotes⟩, hweight⟩
  | @asked voter v weight voters voteWeight hknown hphase hfresh =>
    rw [hphase] at hrecords
    rw [hweights] at hknown
    obtain ⟨⟨since, hsince, hvoters⟩, hweight⟩ := counted_viewChangeVote hrecords hknown hfresh
    unfold recordViewChangeVote at hnext ⊢
    split at hnext
    · next hquorum =>
      rw [if_pos hquorum]
      trivial
    · next hquorum =>
      rw [if_neg hquorum]
      exact ⟨⟨since ++ [.viewChangeVote voter v], hsince.concat (by simp) ⟨_, _, congrArg phase hnext⟩, hvoters⟩, hweight⟩
  | started =>
    refine ⟨⟨[], ⟨calls, rfl, by simp, fun n => ?_⟩, fun a => by simp⟩, rfl⟩
    rw [take_nil, hnext]
    exact ⟨_, _, rfl⟩

/-- After any calls, what the phase stores is accounted for by the calls since it began. -/
theorem phaseRecords_roundAfter (W : ValidatorWeights) (blockNumber view : Nat) (calls : List RoundCall) :
    PhaseRecords W blockNumber view calls (roundAfter W blockNumber view calls).phase := by
  induction calls using reverseRecOn with
  | nil => trivial
  | append_singleton calls c ih =>
    have hnext : roundAfter W blockNumber view (calls ++ [c]) = _ := roundAfter_concat calls c
    rw [hnext]
    exact ih.step (roundAfter_weights W blockNumber view calls).1 rfl hnext (roundStep_call _ c)

/-! ## The quorums -/

/-- A commit is the event of a counted vote whose weight passes two thirds of the total. -/
theorem commit_quorum {quorum : HashMap Address PQSignature}
    (hevent : .blockCommitted h quorum ∈ ((roundAfter W blockNumber view calls).call c).2) :
    ∃ since, VotingSince W blockNumber view calls h since ∧ RecordsVotes W h (since ++ [c]) quorum ∧
      2 * W.total / 3 + 1 ≤ W.weightOfSet quorum.keys.toFinset := by
  have hweights := roundAfter_weights W blockNumber view calls
  have hrecords := phaseRecords_roundAfter W blockNumber view calls
  have hstep := roundStep_call (roundAfter W blockNumber view calls) c
  generalize (roundAfter W blockNumber view calls).call c = next at hevent hstep
  cases hstep with
  | ignored hrefused => exact absurd hevent (not_committed_of_refusal hrefused)
  | @voted voter h' sig weight votes voteWeight hknown hphase hfresh =>
    rw [hphase] at hrecords
    rw [hweights.1] at hknown
    obtain ⟨⟨since, hsince, hvotes⟩, hweight⟩ := counted_vote sig hrecords hknown hfresh
    rw [recordVote, hweights.2] at hevent
    split at hevent
    · next hquorum =>
      obtain ⟨rfl, rfl⟩ := WPoaEvent.blockCommitted.inj (mem_singleton.mp hevent)
      refine ⟨since, hsince, hvotes, ?_⟩
      rw [hweight, FinalityState.strictQuorumWeight_eq (Nat.pos_of_ne_zero hquorum.1) W.total_le] at hquorum
      exact hquorum.2
    · cases hevent
  | asked =>
    rw [recordViewChangeVote] at hevent
    split at hevent <;> simp at hevent
  | _ => simp at hevent

/-- A view change is ready at the event of a counted vote whose weight reaches two thirds of the total. -/
theorem viewChange_quorum (hevent : .viewChangeReady v ∈ ((roundAfter W blockNumber view calls).call c).2) :
    ∃ since voters, ChangingSince W blockNumber view calls v since ∧ RecordsVoters W v (since ++ [c]) voters ∧
      (2 * W.total + 2) / 3 ≤ W.weightOfSet voters := by
  have hweights := roundAfter_weights W blockNumber view calls
  have hrecords := phaseRecords_roundAfter W blockNumber view calls
  have hstep := roundStep_call (roundAfter W blockNumber view calls) c
  generalize (roundAfter W blockNumber view calls).call c = next at hevent hstep
  cases hstep with
  | ignored hrefused => exact absurd (hrefused _ hevent) (by simp [WPoaEvent.isRefusal])
  | voted =>
    rw [recordVote] at hevent
    split at hevent <;> simp at hevent
  | @asked voter v' weight voters voteWeight hknown hphase hfresh =>
    rw [hphase] at hrecords
    rw [hweights.1] at hknown
    obtain ⟨⟨since, hsince, hvoters⟩, hweight⟩ := counted_viewChangeVote hrecords hknown hfresh
    rw [recordViewChangeVote, viewChangeQuorumWeight, hweights.2] at hevent
    split at hevent
    · next hquorum =>
      obtain rfl := WPoaEvent.viewChangeReady.inj (mem_singleton.mp hevent)
      refine ⟨since, _, hsince, hvoters, ?_⟩
      have htotal : W.total ≤ u64Max := W.total_le
      rw [hweight] at hquorum
      have hquorum := hquorum.2
      omega
    · cases hevent
  | _ => simp at hevent

/-- In every run of a round whose weights have a sum within the word size: the stored weight is that of the recorded voters;
a commit carries the first signatures for its hash of the known validators since its proposal, who weigh more than two thirds
of the total; a ready view change has known voters of two thirds of the total; and votes by unknown validators, repeated votes
and votes for another hash leave the round as it is. -/
theorem round_commits_with_quorum (W : ValidatorWeights) (blockNumber view : Nat) (calls : List RoundCall) :
    (∀ h votes weight, (roundAfter W blockNumber view calls).phase = .voting h votes weight →
      weight = W.weightOfSet votes.keys.toFinset) ∧
    (∀ c h quorum, .blockCommitted h quorum ∈ ((roundAfter W blockNumber view calls).call c).2 →
      ∃ since, VotingSince W blockNumber view calls h since ∧ RecordsVotes W h (since ++ [c]) quorum ∧
        2 * W.total / 3 + 1 ≤ W.weightOfSet quorum.keys.toFinset) ∧
    (∀ c v, .viewChangeReady v ∈ ((roundAfter W blockNumber view calls).call c).2 →
      ∃ since voters, ChangingSince W blockNumber view calls v since ∧ RecordsVoters W v (since ++ [c]) voters ∧
        (2 * W.total + 2) / 3 ≤ W.weightOfSet voters) ∧
    ∀ voter h sig, (W.get voter = none ∨ ((roundAfter W blockNumber view calls).recordedVote voter).isSome ∨
        ∀ votes weight, (roundAfter W blockNumber view calls).phase ≠ .voting h votes weight) →
      ((roundAfter W blockNumber view calls).call (.vote voter h sig)).1 = roundAfter W blockNumber view calls := by
  refine ⟨fun h votes weight hphase => ?_, fun _ _ _ => commit_quorum, fun _ _ => viewChange_quorum,
    fun voter h sig hrefused => ?_⟩
  · have hrecords := phaseRecords_roundAfter W blockNumber view calls
    rw [hphase] at hrecords
    exact hrecords.2
  · have hstep := roundStep_vote (roundAfter W blockNumber view calls) voter h sig
    rw [WPoaRound.call]
    generalize (roundAfter W blockNumber view calls).onVote voter h sig = next at hstep
    cases hstep with
    | ignored => rfl
    | voted hknown hphase hfresh =>
      rcases hrefused with hunknown | hrecorded | hother
      · rw [(roundAfter_weights W blockNumber view calls).1, ← ValidatorWeights.get, hunknown] at hknown
        cases hknown
      · rw [WPoaRound.recordedVote, hphase] at hrecorded
        exact absurd (AList.lookup_isSome.mp hrecorded) hfresh
      · exact absurd hphase (hother _ _)

end

end ShellChain
