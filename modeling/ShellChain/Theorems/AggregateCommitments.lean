import ShellChain.SourceBinding
import ShellChain.Theorems.Economics

/-!
# The aggregate commitment of a header

A producer that aggregates commits in the header to the signatures of its block. Import and fork adoption decode the
commitment and verify its proof if there is one. They compare neither its root nor its count with the transactions of the
block: what a sealed header commits to is what its proposer wrote.
-/

namespace ShellChain

open Checks

section

variable {σ ρ : Type} {M : Machine σ ρ} {node : ChainNode σ ρ}

/-- The commitment that the header carries, if any, decodes to a proof with the property. -/
def Block.Commits (M : Machine σ ρ) (block : Block) (P : SigBatchProof → Prop) : Prop :=
  ∀ bytes, block.header.sigAggregateProof = some bytes → ∃ proof, M.sigProofFromJson bytes = some proof ∧ P proof

/-- The proof is about the entries of the block, in their order. -/
def Block.DescribedBy (M : Machine σ ρ) (block : Block) (proof : SigBatchProof) : Prop :=
  proof.batchRootBytes = computeBatchRoot M.toCtx (blockToSigBatchEntries M.toCtx block) ∧
    proof.nSigs = block.transactions.length

/-- The proof has no bytes yet, or it is verified. -/
def Verified (M : Machine σ ρ) (proof : SigBatchProof) : Prop :=
  proof.proofBytes = [] ∨ M.verifySigBatch proof = true

theorem verified_of_headerChecks {now : Nat} {block parent : Block} {finalizedImport : Bool} {pubkey : Bytes}
    (h : verifyHeaderChecks M node now block parent finalizedImport = .ok pubkey) : block.Commits M (Verified M) := by
  intro bytes hbytes
  have hproof := (verifyHeaderChecks_ok h).2.2.2
  simp only [verifyImportSigAggregateProof, hbytes] at hproof
  cases hdecoded : M.sigProofFromJson bytes with
  | none => simp [hdecoded] at hproof
  | some proof =>
    simp only [hdecoded, ensure_ok_iff, decide_eq_true_eq] at hproof
    exact ⟨proof, rfl, hproof⟩

/-- Every block of an adopted branch has passed the header checks. -/
theorem verified_of_replay {now : Nat} {s : ExecState σ ρ} {parent : Block} {blocks : List Block}
    {replay : ChainNode σ ρ × ExecState σ ρ × List (ReplayedBlock σ ρ)}
    (h : replayPreferredFork M now node s parent blocks = .ok replay) : ∀ block ∈ blocks, block.Commits M (Verified M) := by
  induction blocks generalizing node s parent replay with
  | nil => simp
  | cons first rest ih =>
    simp only [replayPreferredFork, bind_ok_iff, mapError_ok_iff] at h
    obtain ⟨_, hheader, _, -, _, hrest, -⟩ := h
    exact List.forall_mem_cons.mpr ⟨verified_of_headerChecks hheader, ih hrest⟩

end

namespace FalseCommitment

open EconomicsCex

/-- The encoding of a commitment: the count and the root. -/
def decodeCommitment : Bytes → Option SigBatchProof
  | [] => none
  | count :: root => if h : root.length = 32 then some ⟨sigBatchProofVersion, root, h, count.toNat, []⟩ else none

/-- The machine of the concrete chains with commitments that are encoded in short batches. -/
def machine : Machine SampleWorld Unit :=
  { sampleMachine with
    sigProofFromJson := decodeCommitment
    sigProofToJson := fun proof =>
      let bytes := UInt8.ofNat proof.nSigs :: proof.batchRootBytes
      if decodeCommitment bytes = some proof then some bytes else none }

theorem readsSigProofs_machine : machine.ReadsSigProofs := by
  intro proof bytes h
  obtain ⟨hdecode, hbytes⟩ := Option.ite_none_right_eq_some.mp h
  cases hbytes
  exact hdecode

/-- A block with a transfer and a commitment to no signature. -/
def lyingBlock : Block :=
  (forgeBlock node 1010 30000000 [paidTransfer]).elim node.head fun b =>
    sealSample { b with header := { b.header with sigAggregateProof := some (List.replicate 33 0) } }

theorem lyingBlock_next : (importBlock machine 1010 node lyingBlock).toOption.map
    (fun next => (next.head, next.blocks (lyingBlock.hash chainCtx))) = some (lyingBlock, some lyingBlock) := by
  decide +kernel

end FalseCommitment

end ShellChain
