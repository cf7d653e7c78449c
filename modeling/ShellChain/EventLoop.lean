import ShellChain.Production

/-!
# The event loop of a validator

What one wPoA validator does with its block key (`node/src/node/event_loop.rs`): it seals the blocks it produces on its
ticks and votes for them, and it votes for a block that it imports from a `NewBlock` message when the block moves its
canonical head up. The seal and the vote sign the same bytes, the hash of the block. Blocks of the synchronisation are
imported without a vote, a preferred fork is adopted without one, and a restart begins with `recover_unfinalized_head`.
-/

namespace ShellChain

variable {σ ρ : Type}

/-- How a production ends after its block is sealed. -/
inductive ProductionOutcome
  /-- The block is committed, announced and voted for. -/
  | completed
  /-- The block is committed, and an error after the commit keeps the node from voting. -/
  | failedAfterCommit
  /-- The store refuses the commit of the sealed block. -/
  | failedBeforeCommit
  deriving DecidableEq

/-- A validator: its node, and the heights and hashes of the blocks its key has signed, oldest first. The signatures are the
history of the run; the node keeps no record of them. -/
structure Validator (σ ρ : Type) where
  node : ChainNode σ ρ
  signed : List (Nat × ShellHash)

/-- What arrives at the event loop. -/
inductive LoopInput
  /-- A tick, with the time, the limit and the candidates of a production. -/
  | tick (timestamp maxTxs : Nat) (candidates : List SignedTransaction) (outcome : ProductionOutcome)
  /-- A `NewBlock` message. -/
  | newBlock (now : Nat) (block : Block)
  /-- A block that is imported without a vote: of the synchronisation, or with an error after its commit. -/
  | syncBlock (now : Nat) (block : Block) (finalizedImport : Bool)
  /-- A commit certificate after which the preferred fork is adopted. -/
  | adoptFork (now : Nat)
  /-- The messages that change consensus only: view changes, attestations, votes and certificates. What they leave is
  arbitrary here. -/
  | consensus (engine : Engine) (forkChoice : ForkChoice) (finality : FinalityState) (finalizedNumber : Option Nat)
  /-- A restart, with the fork choice that is rebuilt from the store. -/
  | restart (restored : ForkChoice)

namespace Validator

variable (M : Machine σ ρ) (v : Validator σ ρ)

/-- A tick: the seal and the vote sign the hash of the produced block. -/
def onTick (M : Machine σ ρ) (sign : Bytes → PQSignature) (pubkey : Bytes) (v : Validator σ ρ) (timestamp maxTxs : Nat)
    (candidates : List SignedTransaction) (outcome : ProductionOutcome) : Validator σ ρ :=
  match produceBlock M sign pubkey v.node timestamp maxTxs candidates with
  | .error _ => v
  | .ok (node, block) =>
    let proposerSeal := (block.number, block.hash M.toCtx)
    match outcome with
    | .completed => ⟨node, v.signed ++ [proposerSeal, proposerSeal]⟩
    | .failedAfterCommit => ⟨node, v.signed ++ [proposerSeal]⟩
    | .failedBeforeCommit => ⟨v.node, v.signed ++ [proposerSeal]⟩

/-- A `NewBlock` message: a vote when the canonical head moved up to the imported block. -/
def onNewBlock (now : Nat) (block : Block) : Validator σ ρ :=
  match importBlock M now v.node block with
  | .error _ => v
  | .ok node =>
    if v.node.head.number < node.head.number ∧ node.head.number = block.number then
      ⟨node, v.signed ++ [(block.number, block.hash M.toCtx)]⟩
    else ⟨node, v.signed⟩

/-- A block without a vote. -/
def onSyncBlock (now : Nat) (block : Block) (finalizedImport : Bool) : Validator σ ρ :=
  match importBlockInner M now v.node block finalizedImport with
  | .error _ => v
  | .ok node => ⟨node, v.signed⟩

/-- The adoption of the preferred fork, when there is a plan for it. -/
def onAdoptFork (now : Nat) : Validator σ ρ :=
  match preferredForkPlan M.toCtx v.node with
  | .ok (some plan) =>
    match adoptPreferredFork M now v.node plan with
    | .error _ => v
    | .ok node => ⟨node, v.signed⟩
  | _ => v

/-- A restart; a node that cannot recover its head does not start. -/
def onRestart (restored : ForkChoice) : Validator σ ρ :=
  match recoverUnfinalizedHead M v.node restored with
  | .error _ => v
  | .ok node => ⟨node, v.signed⟩

end Validator

/-- The event loop of a validator whose key pair is `sign` and `pubkey`. -/
def validatorSystem (M : Machine σ ρ) (sign : Bytes → PQSignature) (pubkey : Bytes) :
    TransitionSystem (Validator σ ρ) LoopInput where
  step v
    | .tick timestamp maxTxs candidates outcome => v.onTick M sign pubkey timestamp maxTxs candidates outcome
    | .newBlock now block => v.onNewBlock M now block
    | .syncBlock now block finalizedImport => v.onSyncBlock M now block finalizedImport
    | .adoptFork now => v.onAdoptFork M now
    | .consensus engine forkChoice finality finalizedNumber => ⟨{ v.node with
        engine := engine, forkChoice := forkChoice, finality := finality, finalizedNumber := finalizedNumber }, v.signed⟩
    | .restart restored => v.onRestart M restored

end ShellChain
