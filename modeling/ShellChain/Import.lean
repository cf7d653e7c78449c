import ShellChain.Fork

/-!
# Block import

`ChainStateMachine::classify_import` and `Node::import_block` (`node/src/node/chain_state_machine.rs`,
`block_importer.rs`). A refused block leaves the node as it is; the source keeps only the key of its proposer in the cache
of known authorities.
-/

namespace ShellChain

variable {σ ρ : Type}

variable (M : Machine σ ρ) (now : Nat) (node : ChainNode σ ρ) (block : Block)

/-- `BlockImportTransition`, without the gap, which is an error of the import. -/
inductive BlockImportTransition
  | duplicateOrStale
  | unfinalizedFork
  | nextHeightFork
  | canonicalNext
  deriving DecidableEq

def classifyImport (headNumber : Nat) (headHash : ShellHash) (incoming : Nat) (incomingHash incomingParent : ShellHash)
    (finalizedNumber : Nat) (canonicalHash : Option ShellHash) : Except NodeError BlockImportTransition :=
  if 0 < finalizedNumber ∧ incoming ≤ finalizedNumber ∧ canonicalHash ≠ some incomingHash then
    .error (.conflictsWithFinalized incoming finalizedNumber)
  else if incoming ≤ headNumber ∧ finalizedNumber < incoming ∧ canonicalHash ≠ some incomingHash then
    .ok .unfinalizedFork
  else if incoming ≤ headNumber then .ok .duplicateOrStale
  else if (checkedAdd headNumber 1).isNone then .error .numberOverflow
  else if incoming = headNumber + 1 ∧ incomingParent ≠ headHash then .ok .nextHeightFork
  else if headNumber + 1 < incoming then .error (.gapDetected incoming (headNumber + 1))
  else .ok .canonicalNext

/-- The transition of a block on a node. -/
def ChainNode.classify (Γ : Ctx) (node : ChainNode σ ρ) (block : Block) : Except NodeError BlockImportTransition :=
  classifyImport node.head.number (node.head.hash Γ) block.number (block.hash Γ) block.header.parentHash
    node.finality.lastFinalizedNumber (node.canonical block.number)

def parentForImport : Except BlockError Block :=
  if block.number = 0 then .error .genesisImport
  else
    match node.blocks block.header.parentHash with
    | none => .error (.parentNotFound block.header.parentHash block.number)
    | some parent => .ok parent

/-- A block off the canonical head: its header and its transactions are checked, and it is stored by hash. -/
def importSideFork (finalizedImport : Bool) : Except NodeError (ChainNode σ ρ) := do
  let parent ← (parentForImport node block).mapError .block
  let pubkey ← (verifyHeaderChecks M node now block parent finalizedImport).mapError .block
  validateSideForkTransactions M node block parent
  pure { node.noteAuthority block.header.proposer pubkey with
    blocks := Function.update node.blocks (block.hash M.toCtx) (some block) }

/-- A block on top of the canonical head: it is checked, processed on the live state and made canonical. -/
def importCanonicalNext (finalizedImport : Bool) : Except NodeError (ChainNode σ ρ) := do
  let parent ← (parentForImport node block).mapError .block
  let pubkey ← (verifyHeaderChecks M node now block parent finalizedImport).mapError .block
  let processed ← (processBlock M (node.execContext M.toCtx block.header) (node.settlementView M) node.state
    block).mapError .block
  pure (((node.noteAuthority block.header.proposer pubkey).commitCanonical M.toCtx block processed).recordSettledSources
    processed.settlements)

/-- `import_block_inner` at the time `now`. -/
def importBlockInner (finalizedImport : Bool) : Except NodeError (ChainNode σ ρ) := do
  match ← node.classify M.toCtx block with
  | .duplicateOrStale => pure node
  | .unfinalizedFork => importSideFork M now node block finalizedImport
  | .nextHeightFork => importSideFork M now node block finalizedImport
  | .canonicalNext => importCanonicalNext M now node block finalizedImport

def importBlock : Except NodeError (ChainNode σ ρ) :=
  importBlockInner M now node block false

end ShellChain
