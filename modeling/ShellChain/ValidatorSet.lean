import ShellChain.Lib.Checks
import ShellChain.Penalties

/-!
# The validator set

The validators with their weights and their lifecycle: a validator waits in the activation queue, becomes active, asks to
leave and has left when its cooldown is over; a slashed validator is out at once. The proposer of a height is taken from the
active validators in turn, each as often as its weight (`consensus/src/validator.rs`).
-/

namespace ShellChain

open Checks

/-! ## Validators -/

/-- The lifecycle state of a validator. -/
inductive ValidatorStatus
  | pending
  | active
  | exiting (exitEpoch : Nat)
  | exited
  | slashed
  deriving DecidableEq

/-- A validator of the set. -/
structure ValidatorInfo where
  address : Address
  weight : Nat
  status : ValidatorStatus
  activationEpoch : Option Nat
  exitEpoch : Option Nat
  deriving DecidableEq

/-- `ValidatorInfo::new`: active, with weight one. -/
def ValidatorInfo.new (address : Address) : ValidatorInfo :=
  ⟨address, 1, .active, none, none⟩

def ValidatorInfo.pending (address : Address) : ValidatorInfo :=
  ⟨address, 1, .pending, none, none⟩

/-- A weight within the bounds of the protocol. -/
def clampWeight (weight : Nat) : Nat :=
  min (max weight 1) maxValidatorWeight

/-- The throughput of activations and exits. -/
structure ValidatorSetConfig where
  maxActivationsPerEpoch : Nat := 5
  exitCooldownEpochs : Nat := 2

/-- The validators, their addresses in the order in which they were added, and the queue of those that wait. -/
structure ValidatorSet where
  validators : HashMap Address ValidatorInfo
  order : List Address
  activationQueue : List Address
  config : ValidatorSetConfig

/-- The errors of the lifecycle. -/
inductive LifecycleError
  | alreadyValidator (address : Address)
  | unknownProposer (address : Address)
  | notActive (address : Address)
  | weightOutOfBounds
  | lastValidator
  deriving DecidableEq

def roundRobinIndex (blockNumber count : Nat) : Option Nat :=
  if count = 0 then none else some (blockNumber % count)

namespace ValidatorSet

variable (set : ValidatorSet)

def new (config : ValidatorSetConfig) : ValidatorSet :=
  ⟨∅, [], [], config⟩

/-- One entry of `from_genesis`. -/
def addGenesis (entry : Address × Nat) : ValidatorSet :=
  { set with
    validators := set.validators.insert entry.1
      { ValidatorInfo.new entry.1 with weight := clampWeight entry.2, activationEpoch := some 0 }
    order := set.order ++ [entry.1] }

/-- `from_genesis`: all validators are active. -/
def fromGenesis (entries : List (Address × Nat)) (config : ValidatorSetConfig) : ValidatorSet :=
  entries.foldl addGenesis (new config)

/-! ## Queries -/

/-- `active_validators`, in order. -/
def activeValidators : List ValidatorInfo :=
  (set.order.filterMap set.validators.lookup).filter fun v => v.status = .active

def activeCount : Nat :=
  set.activeValidators.length

def isActive (address : Address) : Bool :=
  (set.validators.lookup address).any fun v => v.status = .active

/-! ## Weighted proposer selection -/

/-- The total weight of a list of validators, unless it overflows. -/
def totalWeight (active : List ValidatorInfo) : Option Nat :=
  active.foldlM (fun total v => checkedAdd total v.weight) 0

/-- The walk of `weighted_proposer`: the first validator whose range holds the slot, else the last one. -/
def walkSlots (slot : Nat) : List ValidatorInfo → Nat → Option Address → Option Address
  | [], _, last => last
  | v :: rest, cumulative, _ => do
    let cumulative ← checkedAdd cumulative v.weight
    if slot < cumulative then some v.address else walkSlots slot rest cumulative (some v.address)

def weightedProposer (blockNumber : Nat) : Option Address := do
  let total ← totalWeight set.activeValidators
  if total = 0 then
    let idx ← roundRobinIndex blockNumber set.activeCount
    (set.activeValidators[idx]?).map ValidatorInfo.address
  else
    walkSlots (blockNumber % total) set.activeValidators 0 none

/-! ## Lifecycle -/

/-- The set with another record of a validator. -/
def setInfo (address : Address) (info : ValidatorInfo) : ValidatorSet :=
  { set with validators := set.validators.insert address info }

/-- The record of a validator, or the error that there is none. -/
def getInfo (address : Address) : Except LifecycleError ValidatorInfo :=
  match set.validators.lookup address with
  | some info => .ok info
  | none => .error (.unknownProposer address)

def enqueue (address : Address) : Except LifecycleError ValidatorSet := do
  ensure (address ∉ set.validators) (.alreadyValidator address)
  return { set with
    order := set.order ++ [address]
    validators := set.validators.insert address (.pending address)
    activationQueue := set.activationQueue ++ [address] }

def setWeight (address : Address) (weight : Nat) : Except LifecycleError ValidatorSet := do
  let info ← set.getInfo address
  ensure (info.status = .active) (.notActive address)
  ensure (1 ≤ weight ∧ weight ≤ maxValidatorWeight) .weightOutOfBounds
  return set.setInfo address { info with weight := weight }

/-- The loop of `process_activations`: `budget` more validators are activated; entries of the queue that do not wait any more
are dropped. -/
def activateNext (epoch : Nat) : List Address → Nat → HashMap Address ValidatorInfo →
    HashMap Address ValidatorInfo × List Address
  | queue, 0, validators => (validators, queue)
  | [], _ + 1, validators => (validators, [])
  | address :: queue, budget + 1, validators =>
    match validators.lookup address with
    | some info =>
      if info.status = .pending then
        activateNext epoch queue budget
          (validators.insert address { info with status := .active, activationEpoch := some epoch })
      else activateNext epoch queue (budget + 1) validators
    | none => activateNext epoch queue (budget + 1) validators

def processActivations (epoch : Nat) : ValidatorSet :=
  let next := activateNext epoch set.activationQueue set.config.maxActivationsPerEpoch set.validators
  { set with validators := next.1, activationQueue := next.2 }

/-- The record of a validator at an epoch: a cooldown that is over ends. -/
def finishExit (epoch : Nat) (info : ValidatorInfo) : ValidatorInfo :=
  match info.status with
  | .exiting exitEpoch =>
    if exitEpoch ≤ epoch then { info with status := .exited, exitEpoch := some epoch } else info
  | _ => info

def processExits (epoch : Nat) : ValidatorSet :=
  { set with validators := set.validators.mapVal (finishExit epoch) }

def beginExit (address : Address) (currentEpoch : Nat) : Except LifecycleError ValidatorSet := do
  ensure (1 < set.activeCount) .lastValidator
  let info ← set.getInfo address
  ensure (info.status = .active) (.notActive address)
  return set.setInfo address { info with status := .exiting (saturatingAdd currentEpoch set.config.exitCooldownEpochs) }

def slash (address : Address) (currentEpoch : Nat) : Except LifecycleError ValidatorSet := do
  let info ← set.getInfo address
  return set.setInfo address { info with status := .slashed, exitEpoch := some currentEpoch }

end ValidatorSet

/-- A change of the set. -/
inductive LifecycleCall
  | enqueue (address : Address)
  | setWeight (address : Address) (weight : Nat)
  | processActivations (epoch : Nat)
  | processExits (epoch : Nat)
  | beginExit (address : Address) (currentEpoch : Nat)
  | slash (address : Address) (currentEpoch : Nat)

/-- What a call does to the set. -/
def ValidatorSet.call (set : ValidatorSet) : LifecycleCall → Except LifecycleError ValidatorSet
  | .enqueue address => set.enqueue address
  | .setWeight address weight => set.setWeight address weight
  | .processActivations epoch => .ok (set.processActivations epoch)
  | .processExits epoch => .ok (set.processExits epoch)
  | .beginExit address currentEpoch => set.beginExit address currentEpoch
  | .slash address currentEpoch => set.slash address currentEpoch

/-- A set under its calls: one that fails changes nothing. -/
def lifecycleSystem : TransitionSystem ValidatorSet LifecycleCall where
  step set c := (set.call c).toOption.getD set

end ShellChain
