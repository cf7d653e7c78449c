import ShellChain.ChainStore
import ShellChain.Settlements

/-!
# Retention of bodies, witnesses and canonical hashes

A node that is not an archive deletes old data when blocks become canonical (`node/src/node/mod.rs`,
`storage/src/witness_pruner.rs`, `body_pruner.rs`, `state_pruner.rs`). Witness bundles go in two ways: behind the retention
window once the block is in the settled set, and from the grace queue once the settlement is final. Bodies go behind their
own window, whatever is settled. Canonical hashes go behind both. The node is a transition system over the operations that
move its head; the canonical blocks as they were committed are its history.

The pass over the state trie deletes no state at or above the finalized block. Only its cursor enters here, as an input.
-/

namespace ShellChain

variable {σ ρ : Type}

/-! ## State -/

/-- `PruningConfig`: how many recent state roots, bundles and bodies are kept, with zero for all, and the blocks that a
bundle outlives its settlement. -/
structure PruningConfig where
  keepRecent : Nat
  witnessRetention : Nat
  bodyRetention : Nat
  proofReplacementGrace : Nat
  deriving DecidableEq

/-- `StorageProfile::from_pruning_config` is the rolling profile. -/
def PruningConfig.isLight (config : PruningConfig) : Bool :=
  ¬ (config.proofReplacementGrace = u64Max ∧ config.bodyRetention = 0 ∧ config.witnessRetention = 0) ∧
    ¬ (config.bodyRetention = 0 ∧ config.witnessRetention ≠ 0)

/-- What `StatePruner` keeps. The roots it tracks by height enter through the highest block only. -/
structure StatePruner where
  retentionCount : Nat
  genesisRoot : Option ShellHash
  highestBlock : Nat
  prunableBelow : Nat

/-- A node with what it retains. -/
structure RetainingNode (σ ρ : Type) where
  node : ChainNode σ ρ
  pruning : PruningConfig
  /-- `h/<hash>`. -/
  headers : ShellHash → Option BlockHeader
  /-- `w/<hash>`. -/
  bundles : ShellHash → Option WitnessBundle
  /-- `pending_grace_deletes`: the finalized height from which a bundle may go. -/
  graceDeletes : HashMap ShellHash Nat
  witnessPrunedBelow : Nat
  bodyPrunedBelow : Nat
  statePruner : StatePruner
  /-- The canonical blocks as they were committed, by height. This is history; the node does not keep it. -/
  chain : List Block

def retentionCutoff (current retention : Nat) : Nat :=
  current - (retention - 1)

/-- `MAX_WITNESS_PRUNE_BLOCKS_PER_PASS`, which is also that of bodies. -/
def maxPruneBlocksPerPass : Nat :=
  4096

/-- The block without its witnesses, as it is read when its bundle is gone. -/
def Block.withoutWitnesses (block : Block) : Block :=
  (StrippedBlock.split block).1.intoBlock none

namespace RetainingNode

variable (Γ : Ctx) (M : Machine σ ρ) (r : RetainingNode σ ρ)

def finalizedHeight : Nat :=
  max (r.node.finalizedNumber.getD 0) r.node.finality.lastFinalizedNumber

/-! ## Witness bundles -/

/-- The deletion of witness bundles. -/
def dropBundles (hashes : List ShellHash) : RetainingNode σ ρ :=
  { r with
    bundles := fun h => if h ∈ hashes then none else r.bundles h
    node := { r.node with
      blocks := fun h => if h ∈ hashes then (r.node.blocks h).map Block.withoutWitnesses else r.node.blocks h } }

/-- The canonical hash of a height whose header is stored and of that height; the pruners fail without it. -/
def prunableHash (number : Nat) : Option ShellHash :=
  (r.node.canonical number).filter fun hash => (r.headers hash).any fun hdr => hdr.number = number

/-- The loop of `prune_to_cutoff` under the settlement guard: the bundles to delete and the height it came to. It stops at
the first block that is not settled. -/
def settledPass (r : RetainingNode σ ρ) : Nat → Nat → Option (List ShellHash × Nat)
  | 0, number => some ([], number)
  | fuel + 1, number =>
    match r.prunableHash number with
    | none => none
    | some hash =>
      if (1, hash) ∉ r.node.settledSources then some ([], number)
      else (r.settledPass fuel (number + 1)).map fun rest =>
        (if (r.bundles hash).isSome then hash :: rest.1 else rest.1, rest.2)

/-- `WitnessPruner::prune_before_settled` with the settled set of the node. A pass that fails changes nothing. -/
def pruneBeforeSettled (finalized : Nat) : RetainingNode σ ρ :=
  if r.pruning.witnessRetention = 0 then r
  else
    let cutoff := retentionCutoff finalized r.pruning.witnessRetention
    let passCutoff := min cutoff (saturatingAdd r.witnessPrunedBelow maxPruneBlocksPerPass)
    if cutoff ≤ r.witnessPrunedBelow then r
    else
      match r.settledPass (passCutoff - r.witnessPrunedBelow) r.witnessPrunedBelow with
      | none => r
      | some (hashes, advancedTo) => { r.dropBundles hashes with witnessPrunedBelow := advancedTo }

def scheduleSettledWitnessDeletes (amendments : List ProofAmendment) (settlementBlock : Nat) : RetainingNode σ ρ :=
  if r.pruning.proofReplacementGrace = u64Max then r
  else
    let deleteAt := saturatingAdd settlementBlock r.pruning.proofReplacementGrace
    let hashes := amendments.flatMap ProofAmendment.coveredHashes
    { r with graceDeletes := hashes.foldl (fun m hash => m.insert hash deleteAt) r.graceDeletes }

def cancelSettledWitnessDeletes (amendments : List ProofAmendment) : RetainingNode σ ρ :=
  { r with graceDeletes := r.graceDeletes.eraseAll (amendments.flatMap ProofAmendment.coveredHashes) }

/-- `prune_grace_witnesses`: the bundles that are due go, and the entries of the queue with them. -/
def pruneGraceWitnesses (finalized : Nat) : RetainingNode σ ρ :=
  let candidates := r.graceDeletes.entries.filter fun entry => entry.2 ≤ finalized
  let due := (candidates.map Sigma.fst).filter fun hash => (r.bundles hash).isSome
  { r.dropBundles due with graceDeletes := r.graceDeletes.retain fun _ deleteAt => ¬ deleteAt ≤ finalized }

/-! ## Bodies -/

/-- The loop of `BodyPruner::prune_before`: the canonical hashes of the pass. -/
def bodyPass (r : RetainingNode σ ρ) : Nat → Nat → Option (List ShellHash)
  | 0, _ => some []
  | fuel + 1, number =>
    match r.prunableHash number with
    | none => none
    | some hash => (r.bodyPass fuel (number + 1)).map (hash :: ·)

/-- The deletion of bodies. The headers stay, so the hashes remain sources of compression. -/
def dropBodies (hashes : List ShellHash) : RetainingNode σ ρ :=
  { r with
    node := { r.node with
      blocks := fun h => if h ∈ hashes then none else r.node.blocks h
      storedArtifact := fun h => decide (h ∈ hashes) || r.node.storedArtifact h } }

/-- `BodyPruner::prune_before`. The settled set is not consulted. -/
def pruneExpiredBodies (finalized : Nat) : RetainingNode σ ρ :=
  if r.pruning.bodyRetention = 0 then r
  else
    let horizon := retentionCutoff finalized r.pruning.bodyRetention
    let passHorizon := min horizon (saturatingAdd r.bodyPrunedBelow maxPruneBlocksPerPass)
    if horizon ≤ r.bodyPrunedBelow then r
    else
      match r.bodyPass (passHorizon - r.bodyPrunedBelow) r.bodyPrunedBelow with
      | none => r
      | some hashes => { r.dropBodies hashes with bodyPrunedBelow := passHorizon }

/-! ## Canonical hashes -/

def canonicalMappingPruneBoundary (finalized bodyPrunedBelow witnessPrunedBelow : Nat) (triePrunedBelow : Option Nat) :
    Nat :=
  let dependent := min (min finalized bodyPrunedBelow) witnessPrunedBelow
  (triePrunedBelow.map fun boundary => min dependent boundary).getD dependent

def defaultPruneInterval : Nat :=
  256

/-- `MAX_BLOCK_ROOTS`, the most canonical hashes that one pass deletes. -/
def maxBlockRoots : Nat :=
  10000

/-- The loop of `StatePruner::prune`: the heights whose canonical hashes go, at most `budget` of them. Blocks with the state
root of the genesis block are kept. -/
def canonicalPass (r : RetainingNode σ ρ) (genesisRoot : Option ShellHash) : Nat → Nat → Nat → Option (List Nat)
  | 0, _, _ => some []
  | fuel + 1, budget, number =>
    match r.node.canonical number with
    | none => r.canonicalPass genesisRoot fuel budget (number + 1)
    | some hash =>
      match r.headers hash with
      | none => none
      | some hdr =>
        if hdr.number ≠ number then none
        else if genesisRoot = some hdr.stateRoot then r.canonicalPass genesisRoot fuel budget (number + 1)
        else if budget ≤ 1 then some [number]
        else (r.canonicalPass genesisRoot fuel (budget - 1) (number + 1)).map (number :: ·)

/-- The genesis root that the state pruner protects, read from the stored header; none when it cannot be confirmed. -/
def confirmedGenesisRoot : Option ShellHash :=
  match (r.node.canonical 0).bind r.headers with
  | none => none
  | some hdr =>
    if hdr.number ≠ 0 then none
    else
      match r.statePruner.genesisRoot with
      | none => some hdr.stateRoot
      | some root => if root ≠ hdr.stateRoot then none else some root

/-- The part of `record_canonical_state_root` that drives the state pruner, every 256 blocks. -/
def pruneCanonical (number finalized triePrunedBelow : Nat) : RetainingNode σ ρ :=
  let boundary := canonicalMappingPruneBoundary finalized r.bodyPrunedBelow r.witnessPrunedBelow
    (if r.pruning.isLight ∧ 0 < r.pruning.keepRecent then some triePrunedBelow else none)
  let shouldPrune := 0 < finalized ∧ 0 < number ∧ number % defaultPruneInterval = 0
  -- the root is confirmed at the first block and before every pass
  let genesisRoot := if r.statePruner.genesisRoot.isNone ∨ shouldPrune then r.confirmedGenesisRoot
    else r.statePruner.genesisRoot
  let registered := { r.statePruner with
    genesisRoot := r.statePruner.genesisRoot.orElse fun _ => genesisRoot
    highestBlock := max r.statePruner.highestBlock number }
  if genesisRoot.isNone ∨ ¬ shouldPrune then { r with statePruner := registered }
  else
    let marked := { registered with prunableBelow := max registered.prunableBelow boundary }
    let cutoff := min marked.prunableBelow (retentionCutoff marked.highestBlock marked.retentionCount)
    match r.canonicalPass marked.genesisRoot cutoff maxBlockRoots 0 with
    | none => { r with statePruner := marked }
    | some numbers =>
      { r with
        statePruner := marked
        node := { r.node with canonical := fun n => if n ∈ numbers then none else r.node.canonical n } }

def recordCanonicalStateRoot (triePrunedBelow : Nat) (r : RetainingNode σ ρ) (number : Nat) : RetainingNode σ ρ :=
  let finalized := r.finalizedHeight
  ((r.pruneBeforeSettled finalized).pruneExpiredBodies finalized).pruneCanonical number finalized triePrunedBelow

/-! ## Blocks -/

/-- The header and the bundle of a stored block; a block without transactions has no bundle. -/
def putBlock (block : Block) : RetainingNode σ ρ :=
  let hash := block.hash Γ
  { r with
    headers := Function.update r.headers hash (some block.header)
    bundles := if block.transactions = [] then r.bundles
      else Function.update r.bundles hash (some (StrippedBlock.split block).2) }

/-- What follows the commit of a block on top of the head: the node has recorded what it settles, the deletes are scheduled,
and the pruners run. -/
def extend (next : ChainNode σ ρ) (block : Block) (triePrunedBelow : Nat) : RetainingNode σ ρ :=
  let stored := { r.putBlock M.toCtx block with node := next, chain := r.chain ++ [block] }
  ((stored.scheduleSettledWitnessDeletes (block.settlements M) block.number).pruneGraceWitnesses
    next.finality.lastFinalizedNumber).recordCanonicalStateRoot triePrunedBelow block.number

/-- `produce_block`. -/
def produce (M : Machine σ ρ) (sign : Bytes → PQSignature) (pubkey : Bytes) (r : RetainingNode σ ρ)
    (timestamp maxTxs : Nat) (candidates : List SignedTransaction) (pending : List ProofAmendment)
    (triePrunedBelow : Nat) : RetainingNode σ ρ :=
  match produceSettlingBlock M sign pubkey r.node timestamp maxTxs candidates pending with
  | .error _ => r
  | .ok (next, block) => r.extend M next block triePrunedBelow

/-- `import_block`: a block on the head extends the chain, a fork block is stored, a known one is left. -/
def importBlock (now : Nat) (block : Block) (finalizedImport : Bool) (triePrunedBelow : Nat) : RetainingNode σ ρ :=
  match importBlockInner M now r.node block finalizedImport with
  | .error _ => r
  | .ok next =>
    match r.node.classify M.toCtx block with
    | .error _ => r
    | .ok .canonicalNext => r.extend M next block triePrunedBelow
    | .ok .duplicateOrStale => r
    | .ok .unfinalizedFork => { r.putBlock M.toCtx block with node := next }
    | .ok .nextHeightFork => { r.putBlock M.toCtx block with node := next }

/-- What follows the commit of an adoption: the deletes of the reverted blocks are cancelled, those of the new ones are
scheduled, and the pruners run for each new block. -/
def switchBranch (next : ChainNode σ ρ) (plan : ForkAdoptionPlan)
    (reverted : List (List ProofAmendment)) (triePrunedBelow : Nat) : RetainingNode σ ρ :=
  let stored := { r with node := next, chain := r.chain.take (plan.ancestorNumber + 1) ++ plan.newChain }
  let cancelled := reverted.foldl cancelSettledWitnessDeletes stored
  let scheduled := plan.newChain.foldl (fun s block => s.scheduleSettledWitnessDeletes (block.settlements M) block.number)
    cancelled
  let pruned := scheduled.pruneGraceWitnesses next.finality.lastFinalizedNumber
  (plan.newChain.map Block.number).foldl (recordCanonicalStateRoot triePrunedBelow) pruned

/-- `adopt_preferred_fork` of the current plan. -/
def adoptFork (now triePrunedBelow : Nat) : RetainingNode σ ρ :=
  match preferredForkPlan M.toCtx r.node with
  | .ok (some plan) =>
    match adoptPreferredFork M now r.node plan, plan.oldChain.mapM (Block.revertedStarkSettlements M) with
    | .ok next, .ok reverted => r.switchBranch M next plan reverted triePrunedBelow
    | _, _ => r
  | _ => r

/-- The canonical blocks above the persisted finalized block, as recovery loads them. -/
def unfinalizedChain : Except NodeError (List Block) :=
  match r.node.finalizedNumber with
  | none => .ok []
  | some finalized =>
    match r.node.canonical finalized with
    | none => .error (.canonicalMissing finalized)
    | some hash => do
      let hashes ← canonicalHashes r.node finalized (r.node.head.number - finalized)
      loadForkSegment Γ r.node true hash finalized hashes

/-- `recover_unfinalized_head`: the chain is cut at the finalized block, and the deletes of the reverted blocks are
cancelled. -/
def recover (restored : ForkChoice) : RetainingNode σ ρ :=
  match r.node.finalizedNumber with
  | none => r
  | some finalized =>
    if r.node.head.number ≤ finalized then r
    else
      match recoverUnfinalizedHead M r.node restored, r.unfinalizedChain M.toCtx with
      | .ok next, .ok oldChain =>
        match oldChain.mapM (Block.revertedStarkSettlements M) with
        | .error _ => r
        | .ok reverted =>
          reverted.foldl cancelSettledWitnessDeletes { r with node := next, chain := r.chain.take (finalized + 1) }
      | _, _ => r

/-- `rebuild_settled_stark_sources_from_chain`: the settled sources are scanned, the deletes of every scanned settlement are
scheduled, and what is due goes. -/
def rebuild : Except BlockError (RetainingNode σ ρ) := do
  let rebuilt ← r.node.rebuildSettledStarkSources M
  let scheduled := rebuilt.2.foldl (fun (s : RetainingNode σ ρ) found =>
    s.scheduleSettledWitnessDeletes [found.2] found.1) { r with node := rebuilt.1 }
  pure (scheduled.pruneGraceWitnesses r.node.finality.lastFinalizedNumber)

end RetainingNode

/-! ## The system -/

/-- The operations that move the head, and what arrives from consensus. -/
inductive NodeInput
  | produce (timestamp maxTxs : Nat) (candidates : List SignedTransaction) (pending : List ProofAmendment)
    (triePrunedBelow : Nat)
  | importBlock (now : Nat) (block : Block) (finalizedImport : Bool) (triePrunedBelow : Nat)
  | adoptFork (now triePrunedBelow : Nat)
  | recover (restored : ForkChoice)
  /-- The messages that change consensus only: view changes, attestations, votes and certificates. What they leave is
  arbitrary here. -/
  | consensus (engine : Engine) (forkChoice : ForkChoice) (finality : FinalityState) (finalizedNumber : Option Nat)

/-- The retaining node of a validator whose key pair is `sign` and `pubkey`. -/
def retentionSystem (M : Machine σ ρ) (sign : Bytes → PQSignature) (pubkey : Bytes) :
    TransitionSystem (RetainingNode σ ρ) NodeInput where
  step r
    | .produce timestamp maxTxs candidates pending trie => r.produce M sign pubkey timestamp maxTxs candidates pending trie
    | .importBlock now block finalizedImport trie => r.importBlock M now block finalizedImport trie
    | .adoptFork now trie => r.adoptFork M now trie
    | .recover restored => r.recover M restored
    | .consensus engine forkChoice finality finalizedNumber => { r with node := { r.node with
        engine := engine, forkChoice := forkChoice, finality := finality, finalizedNumber := finalizedNumber } }

end ShellChain
