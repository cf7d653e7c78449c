import ShellChain.Lemmas.Production
import ShellChain.SampleChain

/-!
# The economics of an imported chain

A producer copies the gas limit of the parent and leaves out every transaction that cannot pay the base fee. Import checks
neither: `verify_import_economics` compares the base fee and the blob gas, and the virtual machine runs without its base fee
check.
-/

namespace ShellChain

open Checks

variable {σ ρ : Type}

/-- Blocks imported one after another, each of which moves the head up and meets a condition on the node it arrives at. -/
inductive ImportedChain (M : Machine σ ρ) (C : ChainNode σ ρ → Block → Prop) :
    ChainNode σ ρ → List Block → ChainNode σ ρ → Prop
  | nil (node : ChainNode σ ρ) : ImportedChain M C node [] node
  | cons {now : Nat} {node next final : ChainNode σ ρ} {block : Block} {rest : List Block} :
      importBlock M now node block = .ok next → node.head.number < next.head.number → C node block →
      ImportedChain M C next rest final → ImportedChain M C node (block :: rest) final

/-- The economics of a block on its parent. -/
structure Economic (parent block : Block) : Prop where
  gasLimit : block.header.gasLimit = parent.header.gasLimit
  gasUsed : block.header.gasUsed ≤ block.header.gasLimit
  maxFee : ∀ stx ∈ block.transactions, block.header.baseFeePerGas ≤ stx.tx.maxFeePerGas
  /-- The price that is charged, for a base fee in the range of its type. -/
  price : block.header.baseFeePerGas ≤ u64Max → ∀ stx ∈ block.transactions, block.header.baseFeePerGas ≤
    effectiveGasPrice stx.tx.maxFeePerGas stx.tx.maxPriorityFeePerGas block.header.baseFeePerGas

/-- The header and the transactions are what a producer assembles on the node from some candidates and settlements. -/
def ProducedOn (M : Machine σ ρ) (node : ChainNode σ ρ) (block : Block) : Prop :=
  ∃ timestamp maxTxs proposer candidates pending assembled,
    assembleSettlingBlock M node timestamp maxTxs proposer candidates pending = .ok assembled ∧
      block.header = assembled.block.header ∧ block.transactions = assembled.block.transactions

/-- On a chain of imported blocks that producers assembled on the nodes they arrive at, every block has the gas limit of its
parent, stays in it, and includes only transactions that pay at least the base fee. -/
theorem economic_of_producedOn {M : Machine σ ρ} {node final : ChainNode σ ρ} {blocks : List Block}
    (h : ImportedChain M (ProducedOn M) node blocks final) : List.IsChain Economic (node.head :: blocks) := by
  induction h with
  | nil node => exact List.isChain_singleton _
  | @cons now node next final block rest himport hhead hproduced hrest ih =>
    have himported := importBlock_advances himport hhead
    obtain ⟨timestamp, maxTxs, proposer, candidates, pending, assembled, hassemble, hheader, htxs⟩ := hproduced
    simp only [assembleSettlingBlock, bind_ok_iff, pure_ok_iff] at hassemble
    obtain ⟨draft, hdraft, _, -, _, -, _, -, rfl⟩ := hassemble
    have hfee : ∀ stx ∈ block.transactions, block.header.baseFeePerGas ≤ stx.tx.maxFeePerGas := by
      rw [hheader, htxs]
      exact baseFee_le_of_included (by simp) hdraft
    have hblock : Economic node.head block := by
      obtain ⟨_, _, _, -, -, hprocessed, -⟩ := himported.accepted
      refine ⟨by rw [hheader]; rfl, gasUsed_le_of_processBlock hprocessed, hfee, fun hb stx hmem => ?_⟩
      have hmax := hfee stx hmem
      unfold effectiveGasPrice saturatingAdd
      omega
    rw [himported.head] at ih
    exact List.isChain_cons_cons.mpr ⟨hblock, ih⟩

/-! ## A chain that only import follows -/

namespace EconomicsCex

/-- The node: the sender has funds and a registered key. -/
def node : ChainNode SampleWorld Unit :=
  genesisNode senderWorld senderKeys

/-- A transfer that offers nothing for its gas. -/
def freeTransfer : SignedTransaction :=
  sampleTransfer senderKey 0 (.repeatByte 9) 5 21000 0 .reference

def paidTransfer : SignedTransaction :=
  sampleTransfer senderKey 0 (.repeatByte 9) 5 21000 2000 .reference

/-- A block with twice the gas limit of the genesis and a transfer that offers nothing. -/
def raisedBlock : Block :=
  (forgeBlock node 1010 60000000 [freeTransfer]).getD node.head

/-- The block that the validator produces from both transfers. -/
def producedBlock : Block :=
  match assembleSettlingBlock sampleMachine node 1010 500 validatorAddress [freeTransfer, paidTransfer] [] with
  | .ok assembled => sealSample assembled.block
  | .error _ => node.head

/-- An import that is seen to put a block on top of the head is a chain of one block. -/
theorem importedChain_of_head {M : Machine σ ρ} {C : ChainNode σ ρ → Block → Prop} {now : Nat} {n : ChainNode σ ρ}
    {block : Block} (h : (importBlock M now n block).toOption.map ChainNode.head = some block)
    (hnumber : n.head.number < block.number) (hC : C n block) : ∃ final, ImportedChain M C n [block] final := by
  obtain ⟨next, himport, hhead⟩ := exists_ok_of_toOption h
  exact ⟨next, .cons himport (hhead ▸ hnumber) hC (.nil next)⟩

/-- The produced block leaves out the transfer that offers nothing, is imported, and has the economics of its parent. -/
theorem economic_producedBlock :
    producedBlock.transactions = [paidTransfer] ∧ List.IsChain Economic [node.head, producedBlock] := by
  have hassemble : (assembleSettlingBlock sampleMachine node 1010 500 validatorAddress [freeTransfer, paidTransfer]
      []).toOption.map (fun a => (a.block.header, a.block.transactions)) = some (producedBlock.header, producedBlock.transactions) := by
    decide +kernel
  obtain ⟨assembled, hok, heq⟩ := exists_ok_of_toOption hassemble
  have hproduced : ProducedOn sampleMachine node producedBlock :=
    ⟨1010, 500, validatorAddress, [freeTransfer, paidTransfer], [], assembled, hok, (Prod.mk.inj heq).1.symm,
      (Prod.mk.inj heq).2.symm⟩
  have himport : (importBlock sampleMachine 1010 node producedBlock).toOption.map ChainNode.head = some producedBlock := by
    decide +kernel
  obtain ⟨final, hchain⟩ := importedChain_of_head himport (by decide +kernel) hproduced
  exact ⟨by decide +kernel, economic_of_producedOn hchain⟩

/-- Import accepts a block with a raised gas limit and a transaction below the base fee. -/
theorem raised_gasLimit_imported :
    (∃ final, ImportedChain sampleMachine (fun _ _ => True) node [raisedBlock] final) ∧
      raisedBlock.header.gasLimit = 2 * node.head.header.gasLimit ∧ raisedBlock.transactions = [freeTransfer] ∧
      freeTransfer.tx.maxFeePerGas < raisedBlock.header.baseFeePerGas ∧
      effectiveGasPrice freeTransfer.tx.maxFeePerGas freeTransfer.tx.maxPriorityFeePerGas
        raisedBlock.header.baseFeePerGas < raisedBlock.header.baseFeePerGas := by
  have himport : (importBlock sampleMachine 1010 node raisedBlock).toOption.map ChainNode.head = some raisedBlock := by
    decide +kernel
  exact ⟨importedChain_of_head himport (by decide +kernel) trivial, by decide +kernel⟩

end EconomicsCex

end ShellChain
