import ShellChain.Node
import ShellChain.ViewChange

/-!
# The proposers of the two engines

The PoA engine chooses among the authorities with a positive effective weight, in turn or by a lottery on the block number.
The weighted engine takes the proposer of the first view from the validator set and rotates the list of authorities for the
later views (`consensus/src/poa.rs`, `wpoa.rs`, `view_change.rs`). The list of weights of a configuration is empty or as long
as the list of authorities.
-/

namespace ShellChain

open ByteCodec Checks

/-! ## The configuration -/

/-- The configuration of an engine. -/
structure PoaConfig where
  authorities : List Address
  /-- Empty for equal weights. -/
  authorityWeights : List Nat
  blockTimeSecs : Nat
  /-- Zero for no epochs. -/
  epochLength : Nat
  slashed : Finset Address
  slashWeightBps : Nat

/-- The number that little-endian bytes stand for. -/
def ofLeBytes : Bytes → Nat
  | [] => 0
  | b :: rest => b.toNat + 256 * ofLeBytes rest

def lotterySeed (Γ : Ctx) (blockNumber : Nat) : Nat :=
  ofLeBytes ((Γ.keccak256 (leBytes 8 blockNumber)).bytes.take 8)

/-- The walk of a lottery: the first entry whose range holds the ticket, else the last one. -/
def drawTicket (ticket : Nat) : List (Address × Nat) → Nat → Address → Address
  | [], _, last => last
  | (authority, weight) :: rest, cumulative, _ =>
    if ticket < saturatingAdd cumulative weight then authority
    else drawTicket ticket rest (saturatingAdd cumulative weight) authority

namespace PoaConfig

/-- The slot of a height in its epoch. -/
def slotOf (c : PoaConfig) (blockNumber : Nat) : Nat :=
  if 0 < c.epochLength then blockNumber % c.epochLength else blockNumber

def weightedProposerForBlock (Γ : Ctx) (c : PoaConfig) (blockNumber : Nat) : Address :=
  let weights := c.authorityWeights.map clampWeight
  let total := (weights.foldlM checkedAdd 0).getD u64Max
  drawTicket (lotterySeed Γ blockNumber % total) (c.authorities.zip weights) 0 (c.authorities.getLastD .zero)

def proposerForBlock (Γ : Ctx) (c : PoaConfig) (blockNumber : Nat) : Address :=
  if c.authorities = [] then .zero
  else if c.authorityWeights ≠ [] then c.weightedProposerForBlock Γ blockNumber
  else (c.authorities[(roundRobinIndex (c.slotOf blockNumber) c.authorities.length).getD 0]?).getD .zero

end PoaConfig

/-! ## Sealing -/

/-- The errors of `sign_block`. -/
inductive SealError
  | invalidProposer (expected got : Address)
  | sealingFailed
  deriving DecidableEq

/-- `sign_block`, given the expected proposer of the block's height. -/
def sealAs (Γ : Ctx) (expected : Address) (sign : Bytes → Option PQSignature) (block : Block) :
    Except SealError Block := do
  ensure (block.header.proposer = expected) (.invalidProposer expected block.header.proposer)
  match sign (block.hash Γ).bytes with
  | none => throw .sealingFailed
  | some sig => return { block with proposerSeal := some sig }

/-! ## The PoA engine -/

/-- The engine: its configuration, and the weight taken from each authority. -/
structure PoaEngine where
  config : PoaConfig
  slashWeights : HashMap Address Nat

namespace PoaEngine

variable (Γ : Ctx) (e : PoaEngine)

def new (config : PoaConfig) : PoaEngine :=
  ⟨config, ∅⟩

def baseWeightAt (index : Nat) : Nat :=
  max ((e.config.authorityWeights[index]?).getD 1) 1

/-- The weight taken from an authority. -/
def reduction (authority : Address) : Nat :=
  (e.slashWeights.lookup authority).getD 0

/-- `base_weight_for`: at the first position of the authority. -/
def baseWeightFor (authority : Address) : Option Nat :=
  (e.config.authorities.findIdx? (· = authority)).map e.baseWeightAt

/-- `effective_weight_for`: at the first position of the authority. -/
def effectiveWeightFor (authority : Address) : Option Nat :=
  (e.config.authorities.findIdx? (· = authority)).map fun index => e.baseWeightAt index - e.reduction authority

/-- The authorities with the weights of `effective_weight_at`, in order. -/
def effectiveWeights : List (Address × Nat) :=
  e.config.authorities.zipIdx.map fun p => (p.1, e.baseWeightAt p.2 - e.reduction p.1)

/-- The authorities that can propose, in order. -/
def candidates : List (Address × Nat) :=
  e.effectiveWeights.filter fun p => 0 < p.2

def expectedProposerForBlock (blockNumber : Nat) : Address :=
  if e.candidates = [] then .zero
  else if e.config.authorityWeights = [] then
    ((e.candidates[(roundRobinIndex (e.config.slotOf blockNumber) e.candidates.length).getD 0]?).map Prod.fst).getD .zero
  else
    let total := (e.candidates.map Prod.snd).foldl saturatingAdd 0
    drawTicket (lotterySeed Γ blockNumber % total) e.candidates 0 .zero

def slashAuthority (offender : Address) : PoaEngine :=
  let currentWeight := (e.effectiveWeightFor offender).getD 1
  let slashAmount := currentWeight * e.config.slashWeightBps / 10000 % 2 ^ 64
  let baseWeight := (e.baseWeightFor offender).getD 1
  { config := { e.config with slashed := insert offender e.config.slashed }
    slashWeights := e.slashWeights.insert offender (min (saturatingAdd (e.reduction offender) slashAmount) baseWeight) }

/-- `set_authorities`, which also drops the weights; an empty set is a panic. `set_authorities_with_weights` is the same. -/
def setAuthorities (authorities : List Address) : Option PoaEngine :=
  if authorities = [] then none
  else some { e with config := { e.config with authorities := authorities, authorityWeights := [] } }

/-- `verify_header`, which is `verify_proposer`. -/
def verifyHeader (hdr : BlockHeader) : Except BlockError Unit := do
  ensure ((e.effectiveWeightFor hdr.proposer).getD 0 ≠ 0) (.unknownProposer hdr.proposer)
  ensure (hdr.proposer = e.expectedProposerForBlock Γ hdr.number)
    (.invalidProposer (e.expectedProposerForBlock Γ hdr.number) hdr.proposer)

def isProposer (slot : Nat) (address : Address) : Bool :=
  e.expectedProposerForBlock Γ slot = address

def signBlock (sign : Bytes → Option PQSignature) (block : Block) : Except SealError Block :=
  sealAs Γ (e.expectedProposerForBlock Γ block.number) sign block

end PoaEngine

/-! ## The weighted engine -/

/-- The parts of the inner configuration that no call of the engine changes. -/
structure PoaTiming where
  blockTimeSecs : Nat
  maxFutureSecs : Nat
  epochLength : Nat

def selectProposer (view : Nat) (authorities : List Address) : Address :=
  (authorities[(roundRobinIndex view authorities.length).getD 0]?).getD .zero

namespace WPoaEngine

variable (Γ : Ctx) (T : PoaTiming) (e : WPoaEngine)

def poaConfig : PoaConfig :=
  ⟨e.authorities, e.authorityWeights, T.blockTimeSecs, T.epochLength, e.slashed, e.slashWeightBps⟩

def baseProposerForBlock (blockNumber : Nat) : Address :=
  (e.validatorSet.weightedProposer blockNumber).getD ((e.poaConfig T).proposerForBlock Γ blockNumber)

/-- The authorities, beginning with the proposer of the first view. -/
def rotated (blockNumber : Nat) : List Address :=
  let baseIndex := (e.authorities.findIdx? (· = e.baseProposerForBlock Γ T blockNumber)).getD 0
  e.authorities.drop baseIndex ++ e.authorities.take baseIndex

def proposerForBlockInView (blockNumber view : Nat) : Address :=
  if view = 0 ∨ e.authorities = [] then e.baseProposerForBlock Γ T blockNumber
  else selectProposer view (e.rotated Γ T blockNumber)

/-- `proposer_for_block`, under the current view. -/
def proposerForBlock (blockNumber : Nat) : Address :=
  e.proposerForBlockInView Γ T blockNumber e.viewChangeState.currentView

def firstViewForProposer (blockNumber : Nat) (proposer : Address) : Option Nat :=
  if ¬ e.validatorSet.isActive proposer then none
  else if proposer = e.baseProposerForBlock Γ T blockNumber then some 0
  else (List.range' 1 e.authorities.length).find? fun view => e.proposerForBlockInView Γ T blockNumber view = proposer

/-- The engine as the import of blocks reads it. `W` are its validator weights, which the header checks do not use. -/
def engine (W : ValidatorWeights) : Engine where
  isActive := e.validatorSet.isActive
  proposerForBlock := e.proposerForBlock Γ T
  baseProposerForBlock := e.baseProposerForBlock Γ T
  firstViewForProposer := e.firstViewForProposer Γ T
  validatorWeights := W
  blockTimeSecs := T.blockTimeSecs
  maxFutureSecs := T.maxFutureSecs

def isProposer (blockNumber : Nat) (address : Address) : Bool :=
  e.proposerForBlock Γ T blockNumber = address

def signBlock (sign : Bytes → Option PQSignature) (block : Block) : Except SealError Block :=
  sealAs Γ (e.proposerForBlock Γ T block.number) sign block

/-- The engine in another view. -/
def inView (view : Nat) : WPoaEngine :=
  { e with viewChangeState := { e.viewChangeState with currentView := view } }

end WPoaEngine

end ShellChain
