import ShellChain.ViewChange

/-!
# The weights behind an advanced view

A request to leave the view is counted with the weight its validator has when it arrives, and the sum is compared with a
quorum that is refreshed on every request. The sum is at most the current weight of the recorded validators as long as no
change lowers one of their weights. The vote path counts the signatures again under the current weights before it commits,
the view-change path does not.
-/

namespace ShellChain

namespace ViewChangeState

/-- The validators whose requests are recorded for a view. -/
def requesters (s : ViewChangeState) (view : Nat) : Finset Address :=
  ((s.messages view).map ViewChangeMessage.validator).toFinset

def collectedWeight (s : ViewChangeState) (view : Nat) : Nat :=
  (s.pendingViewChangeWeights.lookup view).getD 0

theorem requesters_pushMessage (s : ViewChangeState) (msg : ViewChangeMessage) (w : Nat) :
    (s.pushMessage msg w).requesters msg.view = insert msg.validator (s.requesters msg.view) := by
  ext v
  simp [requesters, messages, pushMessage]

/-- A request that does not conflict is the first one of its validator. -/
theorem notMem_requesters {s : ViewChangeState} {msg : ViewChangeMessage} (h : ¬ s.conflicts msg = true) :
    msg.validator ∉ s.requesters msg.view := by
  intro hmem
  obtain ⟨existing, hexisting, heq⟩ := List.mem_map.mp (List.mem_toFinset.mp hmem)
  refine h (Bool.or_eq_true_iff.mpr (.inl (List.any_eq_true.mpr ⟨existing, hexisting, ?_⟩)))
  exact decide_eq_true heq

/-- A request is refused, or it is added to those of the current view with the weight of its validator. -/
theorem recordViewChange_cases (s : ViewChangeState) (msg : ViewChangeMessage) : s.recordViewChange msg = (s, false) ∨
      ∃ w, msg.view = s.currentView ∧ s.validatorWeights.lookup msg.validator = some w ∧
        msg.validator ∉ s.requesters msg.view ∧ s.recordViewChange msg =
          (s.pushMessage msg w, decide (max s.quorumWeight 1 ≤ (s.pushMessage msg w).collectedWeight msg.view)) := by
  unfold recordViewChange
  split
  · exact .inl rfl
  · next hview =>
    split
    · exact .inl rfl
    · cases hw : s.validatorWeights.lookup msg.validator with
      | none => exact .inl rfl
      | some w =>
        simp only []
        split
        · exact .inl rfl
        · split
          · exact .inl rfl
          · next hconflict => exact .inr ⟨w, Decidable.not_not.mp hview, rfl, notMem_requesters hconflict, rfl⟩

end ViewChangeState

namespace WPoaEngine

open ViewChangeState

/-- The tracker as it counts a request: with the weights and the quorum of this moment. -/
def refreshed (e : WPoaEngine) : ViewChangeState :=
  e.viewChangeState.configureQuorum e.validatorWeights e.totalWeight

/-- The validators recorded for the view that a request makes the engine leave. -/
def advancedBy (e : WPoaEngine) (msg : ViewChangeMessage) : Option (Finset Address) :=
  if (e.handleViewChangeMessage msg e.totalWeight).2 then some ((e.refreshed.recordViewChange msg).1.requesters msg.view)
  else none

/-- The validators hold two thirds of the total weight, rounded up. -/
def QuorumNow (e : WPoaEngine) (vs : Finset Address) : Prop :=
  (2 * e.totalWeight + 2) / 3 ≤ ∑ v ∈ vs, e.weightOf v

instance (e : WPoaEngine) (vs : Finset Address) : Decidable (e.QuorumNow vs) :=
  inferInstanceAs (Decidable (_ ≤ _))

/-- No change lowers the weight of a validator whose request is recorded for the current view. -/
def KeepsRequests (e : WPoaEngine) (i : EngineInput) : Prop :=
  ∀ v ∈ e.viewChangeState.requesters e.viewChangeState.currentView, e.weightOf v ≤ (engineSystem.step e i).weightOf v

instance (e : WPoaEngine) (i : EngineInput) : Decidable (e.KeepsRequests i) :=
  inferInstanceAs (Decidable (∀ v ∈ _, _))

/-- The weight collected for the current view is at most the current weight of the recorded validators. -/
def Backed (e : WPoaEngine) : Prop :=
  e.viewChangeState.collectedWeight e.viewChangeState.currentView ≤
    ∑ v ∈ e.viewChangeState.requesters e.viewChangeState.currentView, e.weightOf v

variable {e : WPoaEngine} {msg : ViewChangeMessage}

theorem backed_of_no_weights (h : e.viewChangeState.pendingViewChangeWeights = ∅) : e.Backed := by
  unfold Backed collectedWeight
  rw [h]
  exact Nat.zero_le _

/-- What the handler does: nothing, or it refreshes the tracker, or it also adds the request, and then advances the view when
the collected weight is a quorum. -/
theorem handleViewChangeMessage_cases (e : WPoaEngine) (msg : ViewChangeMessage) :
    e.handleViewChangeMessage msg e.totalWeight = (e, false) ∨
      e.handleViewChangeMessage msg e.totalWeight = ({ e with viewChangeState := e.refreshed }, false) ∨
      ∃ w, msg.view = e.viewChangeState.currentView ∧ e.validatorWeights.lookup msg.validator = some w ∧
        msg.validator ∉ e.viewChangeState.requesters msg.view ∧
        let pushed := e.refreshed.pushMessage msg w
        e.refreshed.recordViewChange msg =
          (pushed, decide (max e.refreshed.quorumWeight 1 ≤ pushed.collectedWeight msg.view)) ∧
        e.handleViewChangeMessage msg e.totalWeight =
          if max e.refreshed.quorumWeight 1 ≤ pushed.collectedWeight msg.view then
            ({ e with viewChangeState := pushed.advanceView }, true)
          else ({ e with viewChangeState := pushed }, false) := by
  have hrecord := recordViewChange_cases e.refreshed msg
  unfold handleViewChangeMessage
  split
  · exact .inl rfl
  · refine .inr ?_
    rcases hrecord with hrecord | ⟨w, hview, hw, hnew, hrecord⟩
    · refine .inl ?_
      unfold refreshed at hrecord
      simp only [hrecord, Bool.false_eq_true, if_false]
      rfl
    · refine .inr ⟨w, hview, hw, hnew, hrecord, ?_⟩
      unfold refreshed at hrecord
      simp only [hrecord, decide_eq_true_eq]
      rfl

/-- The request of a validator adds its current weight on both sides. -/
theorem Backed.push (h : e.Backed) {w : Nat} (hview : msg.view = e.viewChangeState.currentView)
    (hw : e.validatorWeights.lookup msg.validator = some w) (hnew : msg.validator ∉ e.viewChangeState.requesters msg.view) :
    (e.refreshed.pushMessage msg w).collectedWeight msg.view ≤
      ∑ v ∈ (e.refreshed.pushMessage msg w).requesters msg.view, e.weightOf v := by
  have hsum : ∑ v ∈ insert msg.validator (e.viewChangeState.requesters msg.view), e.weightOf v =
      e.weightOf msg.validator + ∑ v ∈ e.viewChangeState.requesters msg.view, e.weightOf v := Finset.sum_insert hnew
  have hweight : e.weightOf msg.validator = w := by
    rw [weightOf, WeightedQuorum.weightOf, hw, Option.getD_some]
  have hcollected : (e.refreshed.pushMessage msg w).collectedWeight msg.view =
      saturatingAdd (e.viewChangeState.collectedWeight msg.view) w := by
    simp [collectedWeight, pushMessage, refreshed, configureQuorum]
  have hadd := saturatingAdd_le (e.viewChangeState.collectedWeight msg.view) w
  rw [Backed, ← hview] at h
  rw [requesters_pushMessage, hcollected]
  change _ ≤ ∑ v ∈ insert msg.validator (e.viewChangeState.requesters msg.view), e.weightOf v
  rw [hsum, hweight]
  omega

/-- One input that lowers no recorded weight keeps the collected weight backed. -/
theorem backed_step (e : WPoaEngine) (i : EngineInput) (h : e.Backed) (hi : e.KeepsRequests i) :
    (engineSystem.step e i).Backed := by
  -- a change of the weights keeps the tracker, so that the recorded validators are the same before and after it
  have hweights : (engineSystem.step e i).viewChangeState = e.viewChangeState → (engineSystem.step e i).Backed := by
    intro hstate
    unfold Backed
    rw [hstate]
    exact Nat.le_trans h (Finset.sum_le_sum hi)
  cases i with
  | slash offender => exact hweights rfl
  | setAuthorities authorities weights =>
    refine hweights ?_
    change ((e.setAuthoritiesWithWeights authorities weights).getD e).viewChangeState = e.viewChangeState
    unfold setAuthoritiesWithWeights
    split <;> rfl
  | blockProgress nowMs => exact backed_of_no_weights rfl
  | viewChange msg =>
    change (e.handleViewChangeMessage msg e.totalWeight).1.Backed
    rcases e.handleViewChangeMessage_cases msg with heq | heq | ⟨w, hview, hw, hnew, -, heq⟩
    · rw [heq]
      exact h
    · rw [heq]
      exact h
    · rw [heq]
      split
      · exact backed_of_no_weights rfl
      · have hpush := h.push hview hw hnew
        rw [hview] at hpush
        exact hpush

/-- A request that advances the view of a backed engine completes a current quorum. -/
theorem quorumNow_of_backed (h : e.Backed) {vs : Finset Address} (hadvanced : e.advancedBy msg = some vs) :
    e.QuorumNow vs := by
  unfold advancedBy at hadvanced
  rcases e.handleViewChangeMessage_cases msg with heq | heq | ⟨w, hview, hw, hnew, hrecord, heq⟩
  · rw [heq] at hadvanced
    cases hadvanced
  · rw [heq] at hadvanced
    cases hadvanced
  · rw [heq, hrecord] at hadvanced
    split at hadvanced
    · next hquorum =>
      simp only [if_true, Option.some.injEq] at hadvanced
      subst hadvanced
      have hpush := h.push hview hw hnew
      have hweight : e.refreshed.quorumWeight = (2 * max e.totalWeight 1 + 2) / 3 := rfl
      rw [hweight] at hquorum
      unfold QuorumNow
      omega
    · cases hadvanced

/-- In every run in which no change lowers the weight of a validator whose request is recorded, the validators recorded for a
view that is left hold two thirds of the current total weight. -/
theorem quorumNow_of_keepsRequests (authorities : List Address) (weights : List Nat) (slashWeightBps chainId nowMs : Nat)
    (inputs : List EngineInput)
    (hinputs : engineSystem.Admits KeepsRequests (.new authorities weights slashWeightBps chainId nowMs) inputs)
    (msg : ViewChangeMessage) (vs : Finset Address)
    (hadvanced : (engineSystem.run (.new authorities weights slashWeightBps chainId nowMs) inputs).advancedBy msg = some vs) :
    (engineSystem.run (.new authorities weights slashWeightBps chainId nowMs) inputs).QuorumNow vs := by
  have hstart : (WPoaEngine.new authorities weights slashWeightBps chainId nowMs).Backed := by
    refine backed_of_no_weights ?_
    unfold WPoaEngine.new
    split <;> rfl
  exact quorumNow_of_backed (TransitionSystem.invariant_run backed_step hstart hinputs) hadvanced

end WPoaEngine

/-! ## A request of a removed validator -/

namespace RemovedRequesterCex

def validator (n : UInt8) : Address :=
  .repeatByte n

/-- Three validators, one of which holds most of the weight. -/
def start : WPoaEngine :=
  .new [validator 1, validator 2, validator 3] [60, 20, 20] 1000 0 0

/-- The request of a validator to leave the first view of height seven. -/
def request (n : UInt8) : ViewChangeMessage :=
  ⟨0, 7, 0, .zero, validator n, [n]⟩

/-- The first validator asks for a view change and is then replaced by another one. -/
def replaced : WPoaEngine :=
  engineSystem.run start
    [.viewChange (request 1), .setAuthorities [validator 2, validator 3, validator 4] [20, 20, 20]]

theorem removed_requester_counts :
    replaced.advancedBy (request 2) = some {validator 1, validator 2} ∧ replaced.totalWeight = 60 ∧
      replaced.weightOf (validator 1) = 0 ∧ replaced.weightOf (validator 2) = 20 ∧
      ¬ replaced.QuorumNow {validator 1, validator 2} := by
  decide +kernel

/-- The first validator asks for a view change, and another one is slashed. -/
def kept : List EngineInput :=
  [.viewChange (request 1), .slash (validator 3)]

theorem slashed_other_quorum : (engineSystem.run start kept).QuorumNow {validator 1, validator 2} :=
  WPoaEngine.quorumNow_of_keepsRequests [validator 1, validator 2, validator 3] [60, 20, 20] 1000 0 0 kept
    (by decide +kernel) (request 2) {validator 1, validator 2} (by decide +kernel)

end RemovedRequesterCex

end ShellChain
