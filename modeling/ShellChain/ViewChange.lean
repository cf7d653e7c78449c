import ShellChain.ValidatorSet
import ShellChain.Votes

/-!
# The view of the engine

A height has one view after another, each with its own proposer. The engine collects the requests to leave the current view,
with the weight that each validator has when its request arrives, and advances the view when the collected weight reaches two
thirds of the current total (`consensus/src/view_change.rs`, `wpoa.rs`). The weights change between requests
when a validator is slashed or the authorities are replaced.

The weights of the engine are bounded by the protocol, so that the arithmetic on their sums stays within `u64`.
-/

namespace ShellChain

/-! ## The tracker of a height -/

/-- The requests of a height: who asked to leave which view, and the weight collected for each view. -/
structure ViewChangeState where
  currentView : Nat
  lastBlockTimeMs : Nat
  pendingViewChanges : HashMap Nat (List ViewChangeMessage)
  quorumWeight : Nat
  validatorWeights : HashMap Address Nat
  pendingViewChangeWeights : HashMap Nat Nat
  /-- Zero stands for no check. -/
  chainId : Nat

namespace ViewChangeState

variable (s : ViewChangeState)

/-- `ViewChangeState::new`, with the time of the wall clock. -/
def new (nowMs : Nat) : ViewChangeState :=
  ⟨0, nowMs, ∅, 1, ∅, ∅, 0⟩

def setChainId (chainId : Nat) : ViewChangeState :=
  { s with chainId := chainId }

/-- The requests recorded for a view. -/
def messages (view : Nat) : List ViewChangeMessage :=
  (s.pendingViewChanges.lookup view).getD []

/-- The request is refused: its validator has asked already, or the view is being left at another height. -/
def conflicts (msg : ViewChangeMessage) : Bool :=
  (s.messages msg.view).any (fun existing => existing.validator = msg.validator) ||
    ((s.messages msg.view).head?.map ViewChangeMessage.blockNumber).any fun expected => expected ≠ msg.blockNumber

/-- The requests with one more, and the weight with the one of its validator. -/
def pushMessage (msg : ViewChangeMessage) (validatorWeight : Nat) : ViewChangeState :=
  { s with
    pendingViewChanges := s.pendingViewChanges.insert msg.view (s.messages msg.view ++ [msg])
    pendingViewChangeWeights := s.pendingViewChangeWeights.insert msg.view
      (saturatingAdd ((s.pendingViewChangeWeights.lookup msg.view).getD 0) validatorWeight) }

/-- `record_view_change`: whether the request completes a quorum. A refused request of a known validator leaves an entry
without requests behind, which reads as no entry. -/
def recordViewChange (msg : ViewChangeMessage) : ViewChangeState × Bool :=
  if msg.view ≠ s.currentView then (s, false)
  else if s.chainId ≠ 0 ∧ msg.chainId ≠ s.chainId then (s, false)
  else
    match s.validatorWeights.lookup msg.validator with
    | none => (s, false)
    | some validatorWeight =>
      if validatorWeight = 0 then (s, false)
      else if s.conflicts msg then (s, false)
      else
        let next := s.pushMessage msg validatorWeight
        (next, max s.quorumWeight 1 ≤ (next.pendingViewChangeWeights.lookup msg.view).getD 0)

def advanceView : ViewChangeState :=
  { s with currentView := saturatingAdd s.currentView 1, pendingViewChanges := ∅, pendingViewChangeWeights := ∅ }

def resetForBlock (nowMs : Nat) : ViewChangeState :=
  { s with currentView := 0, lastBlockTimeMs := nowMs, pendingViewChanges := ∅, pendingViewChangeWeights := ∅ }

def configureQuorum (validatorWeights : HashMap Address Nat) (totalWeight : Nat) : ViewChangeState :=
  { s with validatorWeights := validatorWeights, quorumWeight := (2 * max totalWeight 1 + 2) / 3 }

end ViewChangeState

/-! ## The engine -/

/-- The engine: the configured authorities with their weights, the validator set, the penalties and the view. -/
structure WPoaEngine where
  authorities : List Address
  authorityWeights : List Nat
  slashWeightBps : Nat
  slashed : Finset Address
  validatorSet : ValidatorSet
  slashWeights : HashMap Address Nat
  viewChangeState : ViewChangeState

namespace WPoaEngine

variable (e : WPoaEngine)

/-- The weights of a list of authorities, within their bounds; a missing one counts as one. -/
def alignWeights (authorities : List Address) (weights : List Nat) : List Nat :=
  (List.range authorities.length).map fun i => clampWeight ((weights[i]?).getD 1)

def new (authorities : List Address) (weights : List Nat) (slashWeightBps chainId nowMs : Nat) : WPoaEngine where
  authorities := authorities
  authorityWeights := alignWeights authorities weights
  slashWeightBps := slashWeightBps
  slashed := ∅
  validatorSet := .fromGenesis (authorities.zip (alignWeights authorities weights)) {}
  slashWeights := ∅
  viewChangeState := if chainId ≠ 0 then (ViewChangeState.new nowMs).setChainId chainId else .new nowMs

/-- `base_weight_for`: from the validator set, else from the configuration. -/
def baseWeightFor (authority : Address) : Option Nat :=
  ((e.validatorSet.validators.lookup authority).map ValidatorInfo.weight).or
    ((e.authorities.findIdx? (· = authority)).map fun idx => max ((e.authorityWeights[idx]?).getD 1) 1)

def effectiveWeightFor (authority : Address) : Option Nat :=
  (e.baseWeightFor authority).map fun baseWeight => baseWeight - (e.slashWeights.lookup authority).getD 0

/-- `validator_weights`: the effective weights of the active validators. -/
def validatorWeights : HashMap Address Nat :=
  (e.validatorSet.activeValidators.map fun v => ⟨v.address, (e.effectiveWeightFor v.address).getD 0⟩).toAList

/-- `slash_authority`, which is `apply_slash`. -/
def slashAuthority (offender : Address) : WPoaEngine :=
  let currentWeight := (e.effectiveWeightFor offender).getD 1
  let slashAmount := currentWeight * e.slashWeightBps / 10000 % 2 ^ 64
  let baseWeight := (e.baseWeightFor offender).getD 1
  let cumulative := (e.slashWeights.lookup offender).getD 0
  { e with
    slashed := insert offender e.slashed
    slashWeights := e.slashWeights.insert offender (min (saturatingAdd cumulative slashAmount) baseWeight) }

/-- `set_authorities_with_weights`: an empty set is a panic. -/
def setAuthoritiesWithWeights (authorities : List Address) (weights : List Nat) : Option WPoaEngine :=
  if authorities = [] then none
  else some { e with
    authorities := authorities
    authorityWeights := alignWeights authorities weights
    validatorSet := .fromGenesis (authorities.zip (alignWeights authorities weights)) e.validatorSet.config }

/-- `set_authorities`: the present effective weights of the active validators, and one for the others, as base weights. -/
def setAuthorities (authorities : List Address) : Option WPoaEngine :=
  e.setAuthoritiesWithWeights authorities (authorities.map fun a => (e.validatorWeights.lookup a).getD 1)

def penaltyState : PenaltyState :=
  ⟨e.slashed, e.slashWeights⟩

def restorePenaltyState (state : PenaltyState) : WPoaEngine :=
  { e with slashed := state.slashed, slashWeights := state.reductions }

/-- `handle_view_change_message`: whether the view advances. -/
def handleViewChangeMessage (msg : ViewChangeMessage) (totalWeight : Nat) : WPoaEngine × Bool :=
  if msg.view ≠ e.viewChangeState.currentView then (e, false)
  else
    let recorded := (e.viewChangeState.configureQuorum e.validatorWeights totalWeight).recordViewChange msg
    if recorded.2 then ({ e with viewChangeState := recorded.1.advanceView }, true)
    else ({ e with viewChangeState := recorded.1 }, false)

/-- `note_block_progress`. -/
def resetForBlock (e : WPoaEngine) (nowMs : Nat) : WPoaEngine :=
  { e with viewChangeState := e.viewChangeState.resetForBlock nowMs }

/-- The total effective weight, which the node hands to `handle_view_change_message`. -/
def totalWeight : Nat :=
  WeightedQuorum.total e.validatorWeights

/-- The effective weight of an address: zero when it is no active validator. -/
def weightOf (e : WPoaEngine) (v : Address) : Nat :=
  WeightedQuorum.weightOf e.validatorWeights v

end WPoaEngine

/-- What reaches the engine. -/
inductive EngineInput
  | viewChange (msg : ViewChangeMessage)
  | slash (offender : Address)
  | setAuthorities (authorities : List Address) (weights : List Nat)
  | blockProgress (nowMs : Nat)

/-- The engine of a node: a view change is handled with the total weight of that moment, and a call that panics changes
nothing. -/
def engineSystem : TransitionSystem WPoaEngine EngineInput where
  step e i := match i with
    | .viewChange msg => (e.handleViewChangeMessage msg e.totalWeight).1
    | .slash offender => e.slashAuthority offender
    | .setAuthorities authorities weights => (e.setAuthoritiesWithWeights authorities weights).getD e
    | .blockProgress nowMs => e.resetForBlock nowMs

end ShellChain
