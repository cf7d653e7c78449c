import ShellChain.Votes

/-!
# The commits of a round

A round commits a block when the votes for its proposal reach the quorum. Votes and proposals leave a committed round as it
is, but a view change can be started in every phase, the committed one included.
-/

namespace ShellChain

open List WPoaRound

/-! ## Runs of a round -/

/-- A call to a round. -/
inductive RoundCall
  | blockProposed (blockHash : ShellHash)
  | vote (voter : Address) (blockHash : ShellHash) (sig : PQSignature)
  | viewChangeVote (voter : Address) (newView : Nat)
  | startViewChange (newView : Nat)

/-- What a call does to a round, and the events it reports. -/
def WPoaRound.call (r : WPoaRound) : RoundCall → WPoaRound × List WPoaEvent
  | .blockProposed blockHash => r.onBlockProposed blockHash
  | .vote voter blockHash sig => r.onVote voter blockHash sig
  | .viewChangeVote voter newView => r.onViewChangeVote voter newView
  | .startViewChange newView => (r.startViewChange newView, [])

/-- A round with the events it has reported, oldest first. -/
def roundSystem : TransitionSystem (WPoaRound × List WPoaEvent) RoundCall where
  step s c := ((s.1.call c).1, s.2 ++ (s.1.call c).2)

/-- The event reports a vote that was not counted. -/
def WPoaEvent.isRefusal : WPoaEvent → Bool
  | .duplicateVote _ => true
  | .wrongBlockHash _ _ => true
  | _ => false

/-! ## What a call does -/

/-- The signature that a call hands in as the vote of a validator for a hash. -/
def RoundCall.signatureOf (a : Address) (h : ShellHash) : RoundCall → Option PQSignature
  | .vote voter blockHash sig => if voter = a ∧ blockHash = h then some sig else none
  | _ => none

section

variable {r : WPoaRound}

/-- The call starts no view change and is no first vote of a known validator that the phase counts. -/
structure WPoaRound.Ignores (r : WPoaRound) (c : RoundCall) : Prop where
  start : ∀ v, c ≠ .startViewChange v
  vote : ∀ h votes weight, r.phase = .voting h votes weight → ∀ a, (r.validatorWeights.lookup a).isSome →
    votes.lookup a = none → c.signatureOf a h = none
  view : ∀ v voters weight, r.phase = .viewChanging v voters weight → ∀ a, (r.validatorWeights.lookup a).isSome →
    c = .viewChangeVote a v → a ∈ voters

/-- What a call does to a round: it is ignored, or it opens a phase, or it is a vote that is recorded. -/
inductive RoundStep (r : WPoaRound) : RoundCall → WPoaRound × List WPoaEvent → Prop
  | ignored {c events} (refused : ∀ e ∈ events, e.isRefusal = true) (ignores : r.Ignores c) : RoundStep r c (r, events)
  | proposed {h} (idle : r.phase = .idle) :
    RoundStep r (.blockProposed h) ({ r with phase := .voting h ∅ 0 }, [.proposeAccepted h, .voteNeeded h])
  | voted {voter h sig weight votes voteWeight} (known : r.validatorWeights.lookup voter = some weight)
    (phase : r.phase = .voting h votes voteWeight) (fresh : voter ∉ votes) :
    RoundStep r (.vote voter h sig) (r.recordVote h (votes.insert voter sig) (saturatingAdd voteWeight weight))
  | asked {voter v weight voters voteWeight} (known : r.validatorWeights.lookup voter = some weight)
    (phase : r.phase = .viewChanging v voters voteWeight) (fresh : voter ∉ voters) :
    RoundStep r (.viewChangeVote voter v) (r.recordViewChangeVote v (insert voter voters) (saturatingAdd voteWeight weight))
  | started {v} : RoundStep r (.startViewChange v) (r.startViewChange v, [])

variable {voter : Address}

theorem ignores_vote {h : ShellHash} {sig : PQSignature}
    (hreason : r.validatorWeights.lookup voter = none ∨ ∀ votes weight, r.phase = .voting h votes weight → voter ∈ votes) :
    r.Ignores (.vote voter h sig) := by
  refine ⟨by simp, fun h' votes weight hphase a ha hnone => if_neg ?_, by simp⟩
  rintro ⟨rfl, rfl⟩
  rcases hreason with hunknown | hvoted
  · rw [hunknown] at ha
    cases ha
  · exact AList.lookup_eq_none.mp hnone (hvoted votes weight hphase)

theorem ignores_viewChangeVote {v : Nat}
    (hreason : r.validatorWeights.lookup voter = none ∨ ∀ voters weight, r.phase = .viewChanging v voters weight →
      voter ∈ voters) : r.Ignores (.viewChangeVote voter v) := by
  refine ⟨by simp, fun _ _ _ _ _ _ _ => rfl, ?_⟩
  rintro v' voters weight hphase a ha ⟨⟩
  rcases hreason with hunknown | hvoted
  · rw [hunknown] at ha
    cases ha
  · exact hvoted voters weight hphase

theorem roundStep_vote (r : WPoaRound) (voter : Address) (h : ShellHash) (sig : PQSignature) :
    RoundStep r (.vote voter h sig) (r.onVote voter h sig) := by
  unfold onVote
  cases hknown : r.validatorWeights.lookup voter with
  | none => exact .ignored (by simp) (ignores_vote (.inl hknown))
  | some weight =>
    cases hphase : r.phase with
    | voting expected votes voteWeight =>
      have hignores : (h = expected → voter ∈ votes) → r.Ignores (.vote voter h sig) := by
        intro hvoted
        refine ignores_vote (.inr ?_)
        rw [hphase]
        rintro _ _ ⟨⟩
        exact hvoted rfl
      by_cases hhash : h = expected
      · subst hhash
        by_cases hvoter : voter ∈ votes
        · simp only [hvoter, ne_eq, not_true_eq_false, if_false, if_true]
          exact .ignored (by simp [WPoaEvent.isRefusal]) (hignores fun _ => hvoter)
        · simp only [hvoter, ne_eq, not_true_eq_false, if_false]
          exact .voted hknown hphase hvoter
      · simp only [ne_eq, hhash, not_false_eq_true, if_true]
        exact .ignored (by simp [WPoaEvent.isRefusal]) (hignores fun heq => absurd heq hhash)
    | _ => exact .ignored (by simp) (ignores_vote (.inr (by simp [hphase])))

theorem roundStep_viewChangeVote (r : WPoaRound) (voter : Address) (v : Nat) :
    RoundStep r (.viewChangeVote voter v) (r.onViewChangeVote voter v) := by
  unfold onViewChangeVote
  cases hknown : r.validatorWeights.lookup voter with
  | none => exact .ignored (by simp) (ignores_viewChangeVote (.inl hknown))
  | some weight =>
    cases hphase : r.phase with
    | viewChanging expected voters voteWeight =>
      have hignores : (expected = v → voter ∈ voters) → r.Ignores (.viewChangeVote voter v) := by
        intro hvoted
        refine ignores_viewChangeVote (.inr ?_)
        rw [hphase]
        rintro _ _ ⟨⟩
        exact hvoted rfl
      by_cases hview : expected = v
      · subst hview
        by_cases hvoter : voter ∈ voters
        · simp only [hvoter, ne_eq, not_true_eq_false, if_false, if_true]
          exact .ignored (by simp) (hignores fun _ => hvoter)
        · simp only [hvoter, ne_eq, not_true_eq_false, if_false]
          exact .asked hknown hphase hvoter
      · simp only [ne_eq, hview, not_false_eq_true, if_true]
        exact .ignored (by simp) (hignores fun heq => absurd heq hview)
    | _ => exact .ignored (by simp) (ignores_viewChangeVote (.inr (by simp [hphase])))

theorem roundStep_call (r : WPoaRound) (c : RoundCall) : RoundStep r c (r.call c) := by
  cases c with
  | blockProposed h =>
    simp only [call, onBlockProposed]
    split
    · next hidle => exact .proposed hidle
    · exact .ignored (by simp) ⟨by simp, fun _ _ _ _ _ _ _ => rfl, by simp⟩
  | vote voter h sig => exact roundStep_vote r voter h sig
  | viewChangeVote voter v => exact roundStep_viewChangeVote r voter v
  | startViewChange v => exact .started

/-- What a call can do to the phase of a round. -/
inductive PhaseStep : RoundPhase → RoundCall → RoundPhase → List WPoaEvent → Prop
  | unchanged {p c events} (refused : ∀ e ∈ events, e.isRefusal = true) : PhaseStep p c p events
  | proposed {h} : PhaseStep .idle (.blockProposed h) (.voting h ∅ 0) [.proposeAccepted h, .voteNeeded h]
  | counted {h votes weight c votes' weight'} : PhaseStep (.voting h votes weight) c (.voting h votes' weight') []
  | committed {h votes weight c quorum} : PhaseStep (.voting h votes weight) c (.committed h) [.blockCommitted h quorum]
  | requested {v votes weight c votes' weight'} :
    PhaseStep (.viewChanging v votes weight) c (.viewChanging v votes' weight') []
  | ready {v votes weight c} : PhaseStep (.viewChanging v votes weight) c .idle [.viewChangeReady v]
  | started {p v} : PhaseStep p (.startViewChange v) (.viewChanging v ∅ 0) []

theorem phaseStep_call (c : RoundCall) : PhaseStep r.phase c (r.call c).1.phase (r.call c).2 := by
  have hstep := roundStep_call r c
  generalize r.call c = next at hstep ⊢
  cases hstep with
  | ignored refused => exact .unchanged refused
  | proposed idle =>
    rw [idle]
    exact .proposed
  | voted _ phase =>
    rw [phase, recordVote]
    split
    · exact .committed
    · exact .counted
  | asked _ phase =>
    rw [phase, recordViewChangeVote]
    split
    · exact .ready
    · exact .requested
  | started => exact .started

end

/-! ## One commit without a view change -/

/-- No view change is started in the committed phase. -/
def KeepsCommit (s : WPoaRound × List WPoaEvent) : RoundCall → Prop
  | .startViewChange _ => ∀ h, s.1.phase ≠ .committed h
  | _ => True

/-- The round is in the phase of every commit it has reported. -/
def CommitHeld (s : WPoaRound × List WPoaEvent) : Prop :=
  ∀ h quorum, .blockCommitted h quorum ∈ s.2 → s.1.phase = .committed h

variable {events : List WPoaEvent} {h : ShellHash} {quorum : HashMap Address PQSignature} {c : RoundCall} {p p' : RoundPhase}

theorem not_committed_of_refusal (hrefused : ∀ e ∈ events, e.isRefusal = true) : .blockCommitted h quorum ∉ events :=
  fun hmem => nomatch hrefused _ hmem

/-- A commit among the events of a call is its only event, and the proposal was being voted on. -/
theorem PhaseStep.commit_inv {front rest : List WPoaEvent}
    (hstep : PhaseStep p c p' (front ++ .blockCommitted h quorum :: rest)) :
    front = [] ∧ rest = [] ∧ p' = .committed h ∧ ∃ votes weight, p = .voting h votes weight := by
  generalize hevents : front ++ WPoaEvent.blockCommitted h quorum :: rest = events at hstep
  have hmem : .blockCommitted h quorum ∈ events := by simp [← hevents]
  cases hstep with
  | unchanged hrefused => exact absurd hmem (not_committed_of_refusal hrefused)
  | proposed => simp at hmem
  | counted => nomatch hmem
  | committed =>
    obtain ⟨rfl, hcons⟩ | ⟨_, _, hnil⟩ := append_eq_cons_iff.mp hevents
    · obtain ⟨hcommit, rfl⟩ := cons.inj hcons
      cases hcommit
      exact ⟨rfl, rfl, rfl, _, _, rfl⟩
    · simp at hnil
  | requested => nomatch hmem
  | ready => simp at hmem
  | started => nomatch hmem

theorem commitHeld_step (s : WPoaRound × List WPoaEvent) (c : RoundCall) (hs : CommitHeld s) (hc : KeepsCommit s c) :
    CommitHeld (roundSystem.step s c) := by
  intro h quorum hmem
  have hstep := phaseStep_call (r := s.1) c
  change WPoaEvent.blockCommitted h quorum ∈ s.2 ++ (s.1.call c).2 at hmem
  change (s.1.call c).1.phase = .committed h
  generalize hnext : (s.1.call c).1.phase = next at hstep ⊢
  generalize (s.1.call c).2 = events at hstep hmem
  rcases mem_append.mp hmem with hold | hnew
  · -- a committed round is left unchanged by every call but the start of a view change
    have hphase := hs h quorum hold
    rw [hphase] at hstep
    cases hstep with
    | unchanged => rfl
    | started => exact absurd hphase (hc h)
  · obtain ⟨front, rest, rfl⟩ := append_of_mem hnew
    exact hstep.commit_inv.2.2.1

/-! ## Commits across view changes -/

/-- What a round that has committed and then reported `events` has done to get into its phase. -/
def SinceCommit : RoundPhase → List WPoaEvent → Prop
  | .idle, events => ∃ v, .viewChangeReady v ∈ events
  | .proposing _, _ => False
  | .voting h _ _, events => (∃ v, .viewChangeReady v ∈ events) ∧ .proposeAccepted h ∈ events
  | .committed _, _ => True
  | .viewChanging _ _ _, _ => True

/-- The events after each commit account for the phase, and those between two commits for the later one. -/
structure CommitsOrdered (s : WPoaRound × List WPoaEvent) : Prop where
  phase : ∀ before h quorum events, s.2 = before ++ .blockCommitted h quorum :: events → SinceCommit s.1.phase events
  between : ∀ before h quorum between h' quorum' after,
    s.2 = before ++ .blockCommitted h quorum :: (between ++ .blockCommitted h' quorum' :: after) →
      (∃ v, .viewChangeReady v ∈ between) ∧ .proposeAccepted h' ∈ between

/-- An element of a list that goes on stands in the old part or in the new one. -/
theorem append_split {α : Type} {log events before rest : List α} {a : α} (h : log ++ events = before ++ a :: rest) :
    (∃ mid, log = before ++ a :: mid ∧ rest = mid ++ events) ∨ ∃ front, events = front ++ a :: rest ∧ before = log ++ front := by
  rcases append_eq_append_iff.mp h with ⟨front, rfl, hevents⟩ | ⟨back, rfl, hback⟩
  · exact .inr ⟨front, hevents, rfl⟩
  · match back, hback with
    | [], hback => exact .inr ⟨[], by simpa using hback.symm, by simp⟩
    | b :: back, hback =>
      obtain ⟨rfl, rfl⟩ := cons.inj hback
      exact .inl ⟨back, rfl, rfl⟩

/-- Refused votes do not change what has been done since a commit. -/
theorem SinceCommit.append (h : SinceCommit p events) (more : List WPoaEvent) : SinceCommit p (events ++ more) := by
  cases p with
  | idle =>
    obtain ⟨v, hv⟩ := h
    exact ⟨v, mem_append_left _ hv⟩
  | proposing => exact h
  | voting =>
    obtain ⟨⟨v, hv⟩, hp⟩ := h
    exact ⟨⟨v, mem_append_left _ hv⟩, mem_append_left _ hp⟩
  | committed => trivial
  | viewChanging => trivial

theorem SinceCommit.step {more : List WPoaEvent} (h : SinceCommit p events) (hstep : PhaseStep p c p' more) :
    SinceCommit p' (events ++ more) := by
  cases hstep with
  | unchanged => exact h.append _
  | proposed =>
    obtain ⟨v, hv⟩ := h
    exact ⟨⟨v, mem_append_left _ hv⟩, mem_append_right _ mem_cons_self⟩
  | counted =>
    obtain ⟨⟨v, hv⟩, hp⟩ := h
    exact ⟨⟨v, mem_append_left _ hv⟩, mem_append_left _ hp⟩
  | committed => trivial
  | requested => trivial
  | ready => exact ⟨_, mem_append_right _ mem_cons_self⟩
  | started => trivial

theorem commitsOrdered_step (s : WPoaRound × List WPoaEvent) (c : RoundCall) (hs : CommitsOrdered s) :
    CommitsOrdered (roundSystem.step s c) := by
  have hstep := phaseStep_call (r := s.1) c
  refine ⟨fun before h quorum events hlog => ?_, fun before h quorum between h' quorum' after hlog => ?_⟩
  · change s.2 ++ (s.1.call c).2 = _ at hlog
    change SinceCommit (s.1.call c).1.phase events
    rcases append_split hlog with ⟨mid, hold, rfl⟩ | ⟨front, hnew, -⟩
    · exact (hs.phase _ _ _ _ hold).step hstep
    · rw [hnew] at hstep
      rw [hstep.commit_inv.2.2.1]
      trivial
  · change s.2 ++ (s.1.call c).2 = _ at hlog
    rcases append_split hlog with ⟨mid, hold, hmid⟩ | ⟨front, hnew, -⟩
    · rcases append_split hmid.symm with ⟨mid', rfl, -⟩ | ⟨front, hnew, rfl⟩
      · exact hs.between _ _ _ _ _ _ _ hold
      · rw [hnew] at hstep
        obtain ⟨rfl, -, -, votes, weight, hphase⟩ := hstep.commit_inv
        have hsince := hs.phase _ _ _ _ hold
        rw [hphase] at hsince
        rw [append_nil]
        exact hsince
    · rw [hnew] at hstep
      exact absurd hstep.commit_inv.2.1 (by simp)

/-- From any round, calls that start no view change in the committed phase commit one hash at most; and between two commits
of a run there are always a view change a quorum has asked for and the proposal of the block that is committed next. -/
theorem commits_of_round (r : WPoaRound) (calls : List RoundCall) :
    (roundSystem.Admits KeepsCommit (r, []) calls → ∀ h quorum h' quorum',
      .blockCommitted h quorum ∈ (roundSystem.run (r, []) calls).2 →
      .blockCommitted h' quorum' ∈ (roundSystem.run (r, []) calls).2 → h = h') ∧
    ∀ before h quorum between h' quorum' after,
      (roundSystem.run (r, []) calls).2 =
        before ++ .blockCommitted h quorum :: (between ++ .blockCommitted h' quorum' :: after) →
      (∃ v, .viewChangeReady v ∈ between) ∧ .proposeAccepted h' ∈ between := by
  constructor
  · intro hcalls h quorum h' quorum' hmem hmem'
    have hheld := TransitionSystem.invariant_run (I := CommitHeld) commitHeld_step
      (fun _ _ hmem => absurd hmem List.not_mem_nil) hcalls
    have hphase := hheld h quorum hmem
    rw [hheld h' quorum' hmem'] at hphase
    exact (RoundPhase.committed.inj hphase).symm
  · have hstart : CommitsOrdered (r, []) :=
      ⟨fun _ _ _ _ hlog => by simp at hlog, fun _ _ _ _ _ _ _ hlog => by simp at hlog⟩
    exact (TransitionSystem.invariant_run_of_step commitsOrdered_step hstart calls).between

/-! ## Two commits of one round -/

namespace SecondCommitCex

def validator : Address :=
  .repeatByte 1

def round : WPoaRound :=
  .new 1 0 [⟨validator, 1⟩].toAList

/-- A signature. -/
def sig : PQSignature :=
  ⟨.mlDsa65, [1]⟩

/-- The validator commits a block, changes the view and commits another one. -/
def calls : List RoundCall :=
  [.blockProposed (.repeatByte 1), .vote validator (.repeatByte 1) sig, .startViewChange 1, .viewChangeVote validator 1,
    .blockProposed (.repeatByte 2), .vote validator (.repeatByte 2) sig]

def committedHashes (events : List WPoaEvent) : List ShellHash :=
  events.filterMap fun
    | .blockCommitted h _ => some h
    | _ => none

theorem two_hashes_committed :
    committedHashes (roundSystem.run (round, []) calls).2 = [.repeatByte 1, .repeatByte 2] ∧
      ShellHash.repeatByte 1 ≠ .repeatByte 2 := by
  decide +kernel

/-- The validator changes the view before it commits, and gets another proposal afterwards. -/
def oneCommit : List RoundCall :=
  [.startViewChange 1, .viewChangeVote validator 1, .blockProposed (.repeatByte 1), .vote validator (.repeatByte 1) sig,
    .blockProposed (.repeatByte 2)]

/-- The signatures of a commit. -/
def ownVote : HashMap Address PQSignature :=
  [⟨validator, sig⟩].toAList

/-- What the round reports between its two commits. -/
def between : List WPoaEvent :=
  [.viewChangeReady 1, .proposeAccepted (.repeatByte 2), .voteNeeded (.repeatByte 2)]

/-- One hash is committed where the view change comes first, and a view change stands between the two commits. -/
theorem one_hash_committed :
    (∀ h signatures, .blockCommitted h signatures ∈ (roundSystem.run (round, []) oneCommit).2 → h = .repeatByte 1) ∧
      (∃ v, .viewChangeReady v ∈ between) ∧ .proposeAccepted (.repeatByte 2) ∈ between := by
  have hkeeps : roundSystem.Admits KeepsCommit (round, []) oneCommit :=
    ⟨fun h => RoundPhase.noConfusion, trivial, trivial, trivial, trivial, trivial⟩
  have hcommit : .blockCommitted (.repeatByte 1) ownVote ∈ (roundSystem.run (round, []) oneCommit).2 :=
    .tail _ (.tail _ (.tail _ mem_cons_self))
  have hlog : (roundSystem.run (round, []) calls).2 = [.proposeAccepted (.repeatByte 1), .voteNeeded (.repeatByte 1)] ++
      .blockCommitted (.repeatByte 1) ownVote :: (between ++ .blockCommitted (.repeatByte 2) ownVote :: []) := rfl
  exact ⟨fun h signatures hmem => (commits_of_round round oneCommit).1 hkeeps h signatures _ ownVote hmem hcommit,
    (commits_of_round round calls).2 _ _ _ _ _ _ _ hlog⟩

end SecondCommitCex

end ShellChain
