import ShellChain.Penalties
import ShellChain.Retention

/-!
# The authority set of a node

The consensus engine holds the active authorities and their weights. They are read from the validator registry of the world
state when a block on top of the head closes an epoch, and when a node is built (`node/src/node/mod.rs`, `builder.rs`). A
node that adopts another branch or recovers its finalized head does not read them. The state is the retaining node with its
authority set, and the state that was stored for each canonical block as it was committed is added to the history.

The engine that verifies blocks and messages stays the arbitrary one of the node, so that nothing here depends on what it
does with the set.
-/

namespace ShellChain

variable {σ ρ : Type}

/-! ## The registry -/

/-- `EngineType`, of which the third is reserved. -/
inductive EngineType
  | poa
  | wpoa
  deriving DecidableEq

/-- The authorities of an engine, with the weights aligned to them. -/
structure AuthoritySet where
  authorities : List Address
  weights : List Nat
  deriving DecidableEq

/-- What the reload depends on: the engine, its epoch length, and how a world state gives the weight of a validator
(`get_validator_weight`). -/
structure AuthorityRules (σ : Type) where
  engineType : EngineType
  epochLength : Nat
  validatorWeight : σ → Address → Nat

/-- `set_authorities_with_weights`: an engine without weights clears them, the other one bounds them. -/
def setAuthoritiesWithWeights (engineType : EngineType) (authorities : List Address) (weights : List Nat) : AuthoritySet :=
  match engineType with
  | .poa => ⟨authorities, []⟩
  | .wpoa => ⟨authorities, (List.range authorities.length).map fun i =>
      min (max ((weights[i]?).getD 1) 1) maxValidatorWeight⟩

/-- The set that the registry of a world state gives. -/
def AuthorityRules.registrySet (A : AuthorityRules σ) (M : Machine σ ρ) (world : σ) : AuthoritySet :=
  let validators := M.validators world
  setAuthoritiesWithWeights A.engineType validators (validators.map (A.validatorWeight world))

/-- `authority_reload_height`: the last block at or below a height that reloads the authorities. -/
def authorityReloadHeight (number epochLength : Nat) : Nat :=
  if epochLength = 0 then number else number - number % epochLength

/-- `reload_authorities_if_boundary`: an empty registry leaves the set as it is. -/
def AuthorityRules.reloadAuthoritiesIfBoundary (A : AuthorityRules σ) (M : Machine σ ρ) (current : AuthoritySet)
    (world : σ) (number : Nat) : AuthoritySet :=
  if ¬ (A.epochLength = 0 ∨ number % A.epochLength = 0) then current
  else if M.validators world = [] then current
  else A.registrySet M world

/-! ## The builder -/

/-- The reasons for which a node cannot recover its authorities, with the height of the head or of the boundary. -/
inductive StartupError
  | headStateUnavailable (height : Nat)
  | boundaryUnavailable (boundary : Nat)
  | headerUnavailable (boundary : Nat)
  | headerMismatch (boundary : Nat)
  | stateUnavailable (boundary : Nat)
  | emptyRegistry (boundary : Nat)
  deriving DecidableEq

/-- The state from which a node that is built over a store reads its authorities: that of the head, or that of the last
block at which they are reloaded. The head can already hold changes for the next epoch. -/
def AuthorityRules.boundaryState (A : AuthorityRules σ) (M : Machine σ ρ) (r : RetainingNode σ ρ) : Except StartupError σ :=
  let height := r.node.head.number
  let boundary := authorityReloadHeight height A.epochLength
  if boundary = height then
    match r.node.worldAt r.node.head.header.stateRoot with
    | none => .error (.headStateUnavailable height)
    | some world => .ok world
  else
    match r.node.canonical boundary with
    | none => .error (.boundaryUnavailable boundary)
    | some hash =>
      match r.headers hash with
      | none => .error (.headerUnavailable boundary)
      | some header =>
        if header.number ≠ boundary ∨ header.hash M.toCtx ≠ hash then .error (.headerMismatch boundary)
        else
          match r.node.worldAt header.stateRoot with
          | none => .error (.stateUnavailable boundary)
          | some snapshot => .ok snapshot

/-- The authorities of a node that is built over a store with the configured ones. An empty registry keeps these at a head
that reloads, and stops the node elsewhere. -/
def AuthorityRules.buildAuthorities (A : AuthorityRules σ) (M : Machine σ ρ) (configured : AuthoritySet)
    (r : RetainingNode σ ρ) : Except StartupError AuthoritySet := do
  let height := r.node.head.number
  let boundary := authorityReloadHeight height A.epochLength
  let world ← A.boundaryState M r
  if boundary = height then pure (A.reloadAuthoritiesIfBoundary M configured world height)
  else if M.validators world = [] then throw (.emptyRegistry boundary)
  else pure (A.registrySet M world)

/-! ## The node -/

/-- A node with its authority set. -/
structure AuthorityNode (σ ρ : Type) where
  base : RetainingNode σ ρ
  /-- The authorities and weights of the engine. -/
  active : AuthoritySet
  /-- The world state stored for each canonical block when it was committed, by height. This is history. -/
  posts : List (Option σ)

namespace AuthorityNode

/-- What follows the commit of a block on top of the head. -/
def extend (A : AuthorityRules σ) (M : Machine σ ρ) (a : AuthorityNode σ ρ) (next : ChainNode σ ρ) (block : Block)
    (triePrunedBelow : Nat) : AuthorityNode σ ρ where
  base := a.base.extend M next block triePrunedBelow
  active := A.reloadAuthoritiesIfBoundary M a.active next.state.world block.number
  posts := a.posts ++ [next.worldAt block.header.stateRoot]

/-- `produce_block`. -/
def produce (A : AuthorityRules σ) (M : Machine σ ρ) (sign : Bytes → PQSignature) (pubkey : Bytes) (a : AuthorityNode σ ρ)
    (timestamp maxTxs : Nat) (candidates : List SignedTransaction) (pending : List ProofAmendment) (triePrunedBelow : Nat) :
    AuthorityNode σ ρ :=
  match produceSettlingBlock M sign pubkey a.base.node timestamp maxTxs candidates pending with
  | .error _ => a
  | .ok (next, block) => a.extend A M next block triePrunedBelow

/-- `import_block`: only a block on the head may reload the authorities. -/
def importBlock (A : AuthorityRules σ) (M : Machine σ ρ) (a : AuthorityNode σ ρ) (now : Nat) (block : Block)
    (finalizedImport : Bool) (triePrunedBelow : Nat) : AuthorityNode σ ρ :=
  match importBlockInner M now a.base.node block finalizedImport, a.base.node.classify M.toCtx block with
  | .ok next, .ok .canonicalNext => a.extend A M next block triePrunedBelow
  | _, _ => { a with base := a.base.importBlock M now block finalizedImport triePrunedBelow }

/-- `adopt_preferred_fork`, which leaves the authorities as they are. -/
def adoptFork (M : Machine σ ρ) (a : AuthorityNode σ ρ) (now triePrunedBelow : Nat) : AuthorityNode σ ρ :=
  match preferredForkPlan M.toCtx a.base.node with
  | .ok (some plan) =>
    match adoptPreferredFork M now a.base.node plan, plan.oldChain.mapM (Block.revertedStarkSettlements M) with
    | .ok next, .ok reverted =>
      { a with
        base := a.base.switchBranch M next plan reverted triePrunedBelow
        posts := a.posts.take (plan.ancestorNumber + 1) ++
          plan.newChain.map fun block => next.worldAt block.header.stateRoot }
    | _, _ => a
  | _ => a

/-- `recover_unfinalized_head`, which leaves the authorities as they are. -/
def recover (M : Machine σ ρ) (a : AuthorityNode σ ρ) (restored : ForkChoice) : AuthorityNode σ ρ :=
  let base := a.base.recover M restored
  { a with base := base, posts := a.posts.take base.chain.length }

end AuthorityNode

/-- The node with its authority set, over the operations that move the head. -/
def authoritySystem (A : AuthorityRules σ) (M : Machine σ ρ) (sign : Bytes → PQSignature) (pubkey : Bytes) :
    TransitionSystem (AuthorityNode σ ρ) NodeInput where
  step a
    | .produce timestamp maxTxs candidates pending trie => a.produce A M sign pubkey timestamp maxTxs candidates pending trie
    | .importBlock now block finalizedImport trie => a.importBlock A M now block finalizedImport trie
    | .adoptFork now trie => a.adoptFork M now trie
    | .recover restored => a.recover M restored
    | .consensus engine forkChoice finality finalizedNumber => { a with base := { a.base with node := { a.base.node with
        engine := engine, forkChoice := forkChoice, finality := finality, finalizedNumber := finalizedNumber } } }

end ShellChain
