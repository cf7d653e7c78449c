import ShellChain.Body

/-!
# Forks

The rollback and replay paths of a node: `preferred_fork_plan` and `load_fork_segment` (`node/src/node/mod.rs`),
`side_fork_parent_store`, `adopt_preferred_fork` and `recover_unfinalized_head` (`node/src/node/block_importer.rs`). A
replay runs in an overlay of the store. The two replays differ in what the overlay says about the chain: the side-fork
replay moves the head and the canonical hashes along, the adoption leaves those of the old branch.
-/

namespace ShellChain

open Checks

variable {σ ρ : Type}

/-! ## Errors -/

/-- The errors of block import, fork adoption, recovery and production. -/
inductive NodeError
  | notProposer
  | conflictsWithFinalized (incoming finNumber : Nat)
  | gapDetected (incoming expected : Nat)
  | numberOverflow
  | block (error : BlockError)
  | invalidFork (blockHash : ShellHash) (error : BlockError)
  | crossesFinality (preferred : ShellHash) (finalizedNumber : Nat)
  | doesNotTerminate (preferred : ShellHash)
  | stalePlan
  | noScore (preferred : ShellHash)
  | noCommonAncestor
  | emptyPath (ancestor preferred : ShellHash)
  | pathsDisagree (ancestor : ShellHash)
  | ancestorMissing (ancestor : ShellHash)
  | ancestorNotCanonical (ancestor : ShellHash)
  | segmentBlockMissing (hash : ShellHash)
  | segmentBroken (hash : ShellHash)
  | segmentNotCanonical (hash : ShellHash)
  | stateUnavailable (root : ShellHash)
  | registryUnavailable
  | metadataUndoUnavailable (hash : ShellHash)
  | canonicalMissing (number : Nat)
  | invalidProposer (expected got : Address)
  | systemEffectsInvalid
  | rewardOverflow
  | activation (number : Nat)
  | commitFailed
  deriving DecidableEq

/-! ## Segments and metadata -/

/-- `load_fork_segment`: the blocks of a path, each of the expected number and linked to the one before it. -/
def loadForkSegment (Γ : Ctx) (node : ChainNode σ ρ) (requireCanonical : Bool) :
    ShellHash → Nat → List ShellHash → Except NodeError (List Block)
  | _, _, [] => .ok []
  | expectedParent, parentNumber, hash :: rest => do
    ensure (checkedAdd parentNumber 1).isSome .numberOverflow
    match node.blocks hash with
    | none => throw (.segmentBlockMissing hash)
    | some block =>
      ensure (block.hash Γ = hash ∧ block.number = parentNumber + 1 ∧ block.header.parentHash = expectedParent)
        (.segmentBroken hash)
      ensure (!requireCanonical || decide (node.canonical (parentNumber + 1) = some hash)) (.segmentNotCanonical hash)
      let others ← loadForkSegment Γ node requireCanonical hash (parentNumber + 1) rest
      pure (block :: others)

/-- `restore_address_metadata`: the metadata before the first of the blocks, undone from the last one back. A block without
transactions may have no journal. -/
def restoreAddressMetadata (Γ : Ctx) (node : ChainNode σ ρ) : List Block → Except NodeError (KeyTable × ρ)
  | [] => .ok (node.state.pubkeys, node.state.recovery)
  | block :: rest => do
    let later ← restoreAddressMetadata Γ node rest
    match node.metadataUndo (block.hash Γ) with
    | some before => pure before
    | none => if block.transactions = [] then pure later else throw (.metadataUndoUnavailable (block.hash Γ))

/-- The state at an ancestor of the head: its world state, the metadata with the blocks above it undone, and the registry
of the world state. -/
def stateAtAncestor (M : Machine σ ρ) (node : ChainNode σ ρ) (ancestor : Block) (oldChain : List Block) :
    Except NodeError (ExecState σ ρ) := do
  match node.worldAt ancestor.header.stateRoot with
  | none => throw (.stateUnavailable ancestor.header.stateRoot)
  | some world =>
    match M.loadAlgorithmRegistry world with
    | none => throw .registryUnavailable
    | some registry =>
      let metadata ← restoreAddressMetadata M.toCtx node oldChain
      pure ⟨world, metadata.1, metadata.2, registry⟩

/-- A block at the ancestor's height conflicts with the finalized cursor of the node. -/
def ChainNode.crossesFinality (node : ChainNode σ ρ) (ancestorNumber : Nat) (ancestorHash : ShellHash) : Bool :=
  ancestorNumber < node.finality.lastFinalizedNumber ∨ (0 < node.finality.lastFinalizedNumber ∧
    ancestorNumber = node.finality.lastFinalizedNumber ∧ ancestorHash ≠ node.finality.lastFinalizedHash)

/-! ## Side forks -/

/-- The context of the side-fork overlay: the head is the parent, and the blocks of the prefix are canonical. -/
def ChainNode.sideContext (Γ : Ctx) (node : ChainNode σ ρ) (hdr : BlockHeader) (parentNumber : Nat)
    (replayed : List Block) : ExecContext where
  chainId := node.config.chainId
  config := node.config.chainConfig
  env := hdr.env
  headNumber := parentNumber
  blockHash n := ((replayed.find? fun block => block.number = n).map (Block.hash Γ)).orElse fun _ => node.blockHashAt Γ n

/-- The replay of a retained branch prefix in the side-fork overlay. -/
def replaySideFork (M : Machine σ ρ) (node : ChainNode σ ρ) :
    ExecState σ ρ → Nat → List Block → List Block → Except NodeError (ExecState σ ρ)
  | s, _, _, [] => .ok s
  | s, parentNumber, replayed, block :: rest => do
    let ctx := node.sideContext M.toCtx block.header parentNumber replayed
    let processed ← (processBlock M ctx (node.settlementView M) s block).mapError (.invalidFork (block.hash M.toCtx))
    replaySideFork M node processed.state block.number (replayed ++ [block]) rest

/-- `side_fork_parent_store`: the state at the parent of a side-fork block, and the prefix that leads to it. -/
def sideForkParentState (M : Machine σ ρ) (node : ChainNode σ ρ) (parent : Block) :
    Except NodeError (ExecState σ ρ × List Block) :=
  let headHash := node.head.hash M.toCtx
  let parentHash := parent.hash M.toCtx
  match node.forkChoice.findCommonAncestor headHash parentHash with
  | none => .error .noCommonAncestor
  | some ancestorHash =>
    match node.blocks ancestorHash with
    | none => .error (.ancestorMissing ancestorHash)
    | some ancestor => do
      ensure (!node.crossesFinality ancestor.number ancestorHash)
        (.crossesFinality parentHash node.finality.lastFinalizedNumber)
      ensure (node.canonical ancestor.number = some ancestorHash) (.ancestorNotCanonical ancestorHash)
      let oldChain ← loadForkSegment M.toCtx node true ancestorHash ancestor.number
        (node.forkChoice.chainBetween headHash ancestorHash)
      let newChain ← loadForkSegment M.toCtx node false ancestorHash ancestor.number
        (node.forkChoice.chainBetween parentHash ancestorHash)
      let s ← stateAtAncestor M node ancestor oldChain
      let final ← replaySideFork M node s ancestor.number [] newChain
      ensure ((newChain.getLast?.getD ancestor).hash M.toCtx = parentHash) .noCommonAncestor
      pure (final, newChain)

/-- `validate_side_fork_transactions`: the policy pass in the state of the parent, with every signature verified. -/
def validateSideForkTransactions (M : Machine σ ρ) (node : ChainNode σ ρ) (block parent : Block) :
    Except NodeError Unit :=
  if block.transactions = [] then .ok ()
  else do
    let branch ← sideForkParentState M node parent
    let ctx := node.sideContext M.toCtx block.header parent.number branch.2
    (validateInParentState M M.verify ctx branch.1 .empty (fun _ => none) block.transactions).mapError .block

/-! ## Adoption -/

/-- `ForkAdoptionPlan`: the blocks to roll back and the blocks to apply, oldest first. -/
structure ForkAdoptionPlan where
  preferredHash : ShellHash
  preferredNumber : Nat
  canonicalNumber : Nat
  ancestorHash : ShellHash
  ancestorNumber : Nat
  oldChain : List Block
  newChain : List Block
  deriving DecidableEq

/-- `preferred_fork_plan`: the plan to adopt the head of the fork choice, when it is another block than the canonical head,
not below it, and attested by a quorum. -/
def preferredForkPlan (Γ : Ctx) (node : ChainNode σ ρ) : Except NodeError (Option ForkAdoptionPlan) :=
  let canonicalHash := node.head.hash Γ
  let preferredHash := node.forkChoice.head
  match node.forkChoice.score preferredHash with
  | none => .error (.noScore preferredHash)
  | some (preferredNumber, attestedWeight) =>
    if preferredHash = canonicalHash ∨ preferredNumber < node.head.number then .ok none
    else if ¬ FinalityState.hasWeightedQuorum attestedWeight node.engine.validatorWeights.total then .ok none
    else
      match node.forkChoice.findCommonAncestor canonicalHash preferredHash with
      | none => .error .noCommonAncestor
      | some ancestorHash => do
        let oldHashes := node.forkChoice.chainBetween canonicalHash ancestorHash
        let newHashes := node.forkChoice.chainBetween preferredHash ancestorHash
        ensure (newHashes ≠ []) (.emptyPath ancestorHash preferredHash)
        ensure (newHashes.length ≤ preferredNumber) (.pathsDisagree ancestorHash)
        let ancestorNumber := preferredNumber - newHashes.length
        ensure (ancestorNumber + oldHashes.length = node.head.number) (.pathsDisagree ancestorHash)
        ensure (!node.crossesFinality ancestorNumber ancestorHash)
          (.crossesFinality preferredHash node.finality.lastFinalizedNumber)
        ensure (node.canonical ancestorNumber = some ancestorHash) (.ancestorNotCanonical ancestorHash)
        let oldChain ← loadForkSegment Γ node true ancestorHash ancestorNumber oldHashes
        let newChain ← loadForkSegment Γ node false ancestorHash ancestorNumber newHashes
        pure (some ⟨preferredHash, preferredNumber, node.head.number, ancestorHash, ancestorNumber, oldChain, newChain⟩)

/-- A block that the replay of an adoption accepted: the block, what it left, and the metadata before it. -/
structure ReplayedBlock (σ ρ : Type) where
  block : Block
  processed : Processed σ ρ
  metadata : KeyTable × ρ

/-- The node with a key of a block's proposer among the known authorities. -/
def ChainNode.noteAuthority (node : ChainNode σ ρ) (proposer : Address) (pubkey : Bytes) : ChainNode σ ρ :=
  { node with knownAuthorities := node.knownAuthorities.orInsert proposer pubkey }

/-- The replay of an adoption. Every block is checked against its parent in the new branch; the context and the settlement
checks are those of the live store, whose head and canonical hashes are still the old branch's. -/
def replayPreferredFork (M : Machine σ ρ) (now : Nat) :
    ChainNode σ ρ → ExecState σ ρ → Block → List Block →
      Except NodeError (ChainNode σ ρ × ExecState σ ρ × List (ReplayedBlock σ ρ))
  | node, s, _, [] => .ok (node, s, [])
  | node, s, parent, block :: rest => do
    let hash := block.hash M.toCtx
    let pubkey ← (verifyHeaderChecks M node now block parent (node.certified block.number hash)).mapError (.invalidFork hash)
    let processed ← (processBlock M (node.execContext M.toCtx block.header) (node.settlementView M) s block).mapError
      (.invalidFork hash)
    let others ← replayPreferredFork M now (node.noteAuthority block.header.proposer pubkey) processed.state block rest
    pure (others.1, others.2.1, ⟨block, processed, s.pubkeys, s.recovery⟩ :: others.2.2)

/-- The frontiers with those above a canonical ancestor moved back (`rewind_settled_frontiers`). -/
def rewindFrontiers (frontiers : Nat → Option Nat) (ancestor : Nat) : Nat → Option Nat :=
  fun layer => (frontiers layer).map fun frontier => min frontier (ancestor + 1)

/-- The loop of `record_settled_sources` that moves a frontier over the settled canonical blocks. -/
def advanceFrontier (canonical : Nat → Option ShellHash) (settled : Finset (Nat × ShellHash)) (layer : Nat) :
    Nat → Nat → Nat
  | 0, frontier => frontier
  | fuel + 1, frontier =>
    if (canonical frontier).any fun h => ([1, 2, 3].filter (layer ≤ ·)).any fun l => (l, h) ∈ settled then
      advanceFrontier canonical settled layer fuel (frontier + 1)
    else frontier

namespace ChainNode

def recordSettledSources (node : ChainNode σ ρ) (settlements : List ProofAmendment) : ChainNode σ ρ :=
  let settled := node.settledSources ∪
    (settlements.flatMap fun a => a.coveredHashes.map fun source => (a.layer, source)).toFinset
  { node with
    settledSources := settled
    settledFrontiers := fun layer =>
      if settlements.any fun a => a.layer = layer then
        some (advanceFrontier node.canonical settled layer (node.head.number + 2) ((node.settledFrontiers layer).getD 0))
      else node.settledFrontiers layer }

/-- The store with a block made canonical on top of the head: its body, receipts, state and undo journal
(`commit_canonical_overlay`). -/
def commitCanonical (Γ : Ctx) (node : ChainNode σ ρ) (block : Block) (processed : Processed σ ρ) : ChainNode σ ρ :=
  let hash := block.hash Γ
  { node with
    head := block
    blocks := Function.update node.blocks hash (some block)
    canonical := Function.update node.canonical block.number (some hash)
    receipts := Function.update node.receipts hash (some processed.receipts)
    state := processed.state
    worldAt := Function.update node.worldAt block.header.stateRoot (some processed.state.world)
    metadataUndo := Function.update node.metadataUndo hash (some (node.state.pubkeys, node.state.recovery)) }

/-- The store with one replayed block of an adoption. -/
def commitReplayed (Γ : Ctx) (node : ChainNode σ ρ) (replayed : ReplayedBlock σ ρ) : ChainNode σ ρ :=
  let block := replayed.block
  let hash := block.hash Γ
  { node with
    canonical := Function.update node.canonical block.number (some hash)
    receipts := Function.update node.receipts hash (some replayed.processed.receipts)
    worldAt := Function.update node.worldAt block.header.stateRoot (some replayed.processed.state.world)
    metadataUndo := Function.update node.metadataUndo hash (some replayed.metadata) }

/-- The canonical hashes without those above a height. -/
def cutCanonical (node : ChainNode σ ρ) (height : Nat) : ChainNode σ ρ :=
  { node with canonical := fun n => if n ≤ height then node.canonical n else none }

end ChainNode

/-- The commit of `adopt_preferred_fork`: the new branch becomes canonical up to its tip, and the tip is finalized when its
attested weight suffices. -/
def commitAdoption (Γ : Ctx) (node : ChainNode σ ρ) (plan : ForkAdoptionPlan) (tip : Block)
    (replay : ChainNode σ ρ × ExecState σ ρ × List (ReplayedBlock σ ρ)) : ChainNode σ ρ :=
  let checked := node.finality.checkFinalityWeighted plan.preferredHash plan.preferredNumber
    node.engine.validatorWeights.total
  let committed := replay.2.2.foldl (ChainNode.commitReplayed Γ) replay.1
  let rewound := { committed.cutCanonical plan.preferredNumber with
    head := tip
    state := replay.2.1
    finality := checked.1
    finalizedNumber := if checked.2 then some plan.preferredNumber else committed.finalizedNumber
    settledFrontiers := rewindFrontiers committed.settledFrontiers plan.ancestorNumber }
  replay.2.2.foldl (fun n r => n.recordSettledSources r.processed.settlements) rewound

/-- `adopt_preferred_fork`: the plan is checked against the live chain, its new blocks are replayed on the state of the
ancestor, and the new branch is committed. -/
def adoptPreferredFork (M : Machine σ ρ) (now : Nat) (node : ChainNode σ ρ) (plan : ForkAdoptionPlan) :
    Except NodeError (ChainNode σ ρ) := do
  ensure (node.head.number = plan.canonicalNumber ∧
    node.head.hash M.toCtx = (plan.oldChain.getLast?.map (Block.hash M.toCtx)).getD plan.ancestorHash) .stalePlan
  ensure (node.forkChoice.head = plan.preferredHash) .stalePlan
  ensure (!node.crossesFinality plan.ancestorNumber plan.ancestorHash)
    (.crossesFinality plan.preferredHash node.finality.lastFinalizedNumber)
  match node.blocks plan.ancestorHash with
  | none => throw (.ancestorMissing plan.ancestorHash)
  | some ancestor =>
    ensure (ancestor.number = plan.ancestorNumber ∧ node.canonical plan.ancestorNumber = some plan.ancestorHash)
      (.ancestorNotCanonical plan.ancestorHash)
    let s ← stateAtAncestor M node ancestor plan.oldChain
    let replay ← replayPreferredFork M now node s ancestor plan.newChain
    let tip := plan.newChain.getLast?.getD ancestor
    ensure (tip.hash M.toCtx = plan.preferredHash ∧ tip.number = plan.preferredNumber)
      (.doesNotTerminate plan.preferredHash)
    pure (commitAdoption M.toCtx node plan tip replay)

/-! ## Recovery at start -/

/-- The canonical hashes of the heights after a block. -/
def canonicalHashes (node : ChainNode σ ρ) : Nat → Nat → Except NodeError (List ShellHash)
  | _, 0 => .ok []
  | parentNumber, count + 1 => do
    match node.canonical (parentNumber + 1) with
    | none => throw (.canonicalMissing (parentNumber + 1))
    | some hash =>
      let others ← canonicalHashes node (parentNumber + 1) count
      pure (hash :: others)

/-- `recover_unfinalized_head`: a head above the persisted finalized block is rewound to it. Nothing is kept of what the
node signed above it. The fork choice is the one rebuilt from the store. -/
def recoverUnfinalizedHead (M : Machine σ ρ) (node : ChainNode σ ρ) (restored : ForkChoice) :
    Except NodeError (ChainNode σ ρ) :=
  match node.finalizedNumber with
  | none => .ok node
  | some finalizedNumber =>
    if node.head.number ≤ finalizedNumber then .ok node
    else
      match node.canonical finalizedNumber with
      | none => .error (.canonicalMissing finalizedNumber)
      | some finalizedHash =>
        match node.blocks finalizedHash with
        | none => .error (.ancestorMissing finalizedHash)
        | some finalizedBlock => do
          ensure (finalizedBlock.number = finalizedNumber ∧ finalizedBlock.hash M.toCtx = finalizedHash)
            (.ancestorNotCanonical finalizedHash)
          let oldHashes ← canonicalHashes node finalizedNumber (node.head.number - finalizedNumber)
          let oldChain ← loadForkSegment M.toCtx node true finalizedHash finalizedNumber oldHashes
          let s ← stateAtAncestor M node finalizedBlock oldChain
          pure { node.cutCanonical finalizedNumber with
            head := finalizedBlock
            state := s
            forkChoice := restored
            settledFrontiers := rewindFrontiers node.settledFrontiers finalizedNumber }

end ShellChain
