import ShellChain.Retention

/-!
# The binding of a proof to its sources

A settlement of the first layer is checked against the blocks it covers (`node/src/node/system_rewards.rs`,
`stark_sources.rs`, `stark-prover/src/prover.rs`): the size of their witness bundles, the number of their transactions and
the root of their batch are computed again from the store, and the proof is verified for that root. The blocks and the
bundles are read by hash, so the check needs bodies and bundles that the pruners may have deleted.
-/

namespace ShellChain

open Checks ByteCodec

/-! ## Sizes -/

def WitnessBundle.encodedLength (bundle : WitnessBundle) : Nat :=
  (Rlp.list (bundle.witnesses.map fun w => encodeWitnessParts (w.signature, w.pubkey))).length

def encodedLengthFromTransactions (transactions : List SignedTransaction) : Nat :=
  (Rlp.list (transactions.map fun stx => encodeWitnessParts stx.witness)).length

/-- The errors of the source binding. -/
inductive SourceBindingError
  | sourceNotFound (source : ShellHash)
  | sizeUnavailable (source : ShellHash)
  | originalSizeMismatch (declared : Option Nat) (canonical : Nat)
  | entryCountMismatch (declared actual : Nat)
  | batchRootMismatch (number : Nat)
  | emptyRangeWithProof (number : Nat)
  | proofVerification (number : Nat)
  deriving DecidableEq

/-- `canonical_l1_source_size`: without the bundle the size is known only from a block that still has its signatures. -/
def canonicalL1SourceSize (bundles : ShellHash → Option WitnessBundle) (source : ShellHash) (block : Block)
    (entryCount : Nat) : Except SourceBindingError Nat :=
  if entryCount = 0 then .ok 0
  else
    match bundles source with
    | some bundle => .ok bundle.encodedLength
    | none =>
      if block.transactions ≠ [] ∧ block.transactions.all fun stx => stx.signature.data ≠ [] then
        .ok (encodedLengthFromTransactions block.transactions)
      else .error (.sizeUnavailable source)

/-! ## The check -/

def blockToSigBatchEntries (Γ : Ctx) (block : Block) : List SigBatchEntry :=
  entriesFromTxs Γ block.transactions

/-- The loop over the covered blocks: their entries in order, and the sum of their sizes. -/
def canonicalL1Sources (Γ : Ctx) (blocks : ShellHash → Option Block) (bundles : ShellHash → Option WitnessBundle) :
    List SigBatchEntry → Nat → List ShellHash → Except SourceBindingError (List SigBatchEntry × Nat)
  | entries, size, [] => .ok (entries, size)
  | entries, size, source :: rest =>
    match blocks source with
    | none => .error (.sourceNotFound source)
    | some block => do
      let added := blockToSigBatchEntries Γ block
      let sourceSize ← canonicalL1SourceSize bundles source block added.length
      canonicalL1Sources Γ blocks bundles (entries ++ added) (saturatingAdd size sourceSize) rest

def validateL1ProofSourceBinding {σ ρ : Type} (M : Machine σ ρ) (blocks : ShellHash → Option Block)
    (bundles : ShellHash → Option WitnessBundle) (a : ProofAmendment) : Except SourceBindingError Unit := do
  let (entries, size) ← canonicalL1Sources M.toCtx blocks bundles [] 0 a.coveredHashes
  ensure (a.originalSize = some size) (.originalSizeMismatch a.originalSize size)
  ensure (entries.length = a.proof.nSigs) (.entryCountMismatch a.proof.nSigs entries.length)
  ensure (computeBatchRoot M.toCtx entries = a.proof.batchRootBytes) (.batchRootMismatch a.blockNumber)
  if entries = [] then ensure (a.proof.proofBytes = []) (.emptyRangeWithProof a.blockNumber)
  else ensure (M.verifySigBatch a.proof) (.proofVerification a.blockNumber)

/-- The check on the store of a node. -/
def RetainingNode.validateL1ProofSourceBinding {σ ρ : Type} (M : Machine σ ρ) (r : RetainingNode σ ρ)
    (a : ProofAmendment) : Except SourceBindingError Unit :=
  ShellChain.validateL1ProofSourceBinding M r.node.blocks r.bundles a

end ShellChain
