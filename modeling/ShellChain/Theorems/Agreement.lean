import ShellChain.Lemmas.Replay
import ShellChain.SampleChain

/-!
# Producer and importer

A producer and an importer treat the keys of a block differently: the producer registers an embedded key at once, the
importer stages it from the parent state, validates every transaction in the parent state too, and registers the staged keys
after the block. The producer also registers the key that a transaction of a sender with a custom validator embeds, and the
importer does not.
-/

namespace ShellChain

open Checks

variable {σ ρ : Type} {M : Machine σ ρ}

/-! ## The conditions -/

def productionContext (M : Machine σ ρ) (node : ChainNode σ ρ) (timestamp : Nat) (proposer : Address) : ExecContext :=
  node.execContext M.toCtx (preliminaryHeader M.toCtx node.head (node.head.number + 1) timestamp proposer)

/-- Two nodes have the same canonical chain, state and limits; their engines, keys and fork choices may differ. -/
structure SameChain (node other : ChainNode σ ρ) : Prop where
  chainId : other.config.chainId = node.config.chainId
  chainConfig : other.config.chainConfig = node.config.chainConfig
  maxTxPerBlock : other.config.maxTxPerBlock = node.config.maxTxPerBlock
  head : other.head = node.head
  blocks : other.blocks = node.blocks
  canonical : other.canonical = node.canonical
  state : other.state = node.state
  finality : other.finality = node.finality

variable {node other : ChainNode σ ρ} {block : Block} {candidates : List SignedTransaction} {ctx : ExecContext}
  {draft : Draft σ ρ} {final parent : ExecState σ ρ} {maxTxs : Nat} {rewarded : Progress σ ρ × List SystemTransaction}

theorem SameChain.execContext (h : SameChain node other) (Γ : Ctx) (hdr : BlockHeader) :
    other.execContext Γ hdr = node.execContext Γ hdr := by
  have hhash : other.blockHashAt Γ = node.blockHashAt Γ := by
    funext number
    rw [ChainNode.blockHashAt, ChainNode.blockHashAt, h.blocks, h.canonical]
  rw [ChainNode.execContext, ChainNode.execContext, h.chainId, h.chainConfig, h.head, hhash]

/-! ## The body of a produced block -/

section

variable (haccepted : AcceptedByImporter M ctx parent block.transactions)
  (hrun : RunsAlike M ctx parent (embeddedPubkeys block.transactions) draft)
  (htxs : block.transactions = draft.included) (hgas : block.header.gasUsed = draft.progress.cumulativeGas)
  (hreward : rewardProducer M ctx block.header.parentHash draft = .ok rewarded)
  (hsystem : block.systemTransactions = rewarded.2)
  (hfinal : applyPendingActivations M block.number rewarded.1.state = .ok final)

include haccepted hrun htxs hgas hreward hsystem hfinal

/-- The body of a block on which the importer runs alike leads to the state and the receipts of the producer, once the staged
keys are registered. -/
theorem executeBody_of_runsAlike (sv : SettlementView) : ∃ e, executeBody M ctx sv parent block [] = .ok e ∧
    e.state.registerNew e.newPubkeys = final ∧ e.receipts = rewarded.1.receipts := by
  obtain ⟨k, batch, p, hkeys, hexec, hprogress⟩ := hrun
  unfold executeBody
  split
  · rename_i hempty
    have hincluded : draft.included = [] := htxs.symm.trans hempty.1
    rw [hincluded] at hkeys hexec
    obtain ⟨rfl, rfl⟩ := Prod.mk.inj (Except.ok.inj hkeys)
    obtain rfl := Except.ok.inj hexec
    rw [rewardProducer, if_pos hincluded, Except.ok.injEq, hprogress] at hreward
    subst hreward
    simp only [Progress.registerNew, Progress.start, ExecState.registerNew_empty] at hsystem hfinal hprogress ⊢
    refine ⟨⟨final, [], .empty⟩, ?_, ExecState.registerNew_empty _, rfl⟩
    simp only [executeEmptyBody, bind_ok_iff, ensure_ok_iff, decide_eq_true_eq, pure_ok_iff]
    exact ⟨(), by rw [hgas, hprogress], (), hsystem, final, hfinal, rfl⟩
  · rename_i hfull
    have hincluded : draft.included ≠ [] := fun h => hfull ⟨htxs.trans h, rfl⟩
    rw [rewardProducer, if_neg hincluded, mapError_ok_iff, hprogress, rewardProposer_registerNew, map_ok_iff] at hreward
    obtain ⟨⟨q, system⟩, hpaid, rfl⟩ := hreward
    obtain ⟨t, hactivated, rfl⟩ := map_ok_iff.mp (applyPendingActivations_registerNew .. ▸ hfinal)
    obtain ⟨⟨keys, hblock, hbatch⟩, hpolicy, -⟩ := haccepted
    obtain rfl : (k, batch) = keys := Except.ok.inj (hkeys.symm.trans (htxs ▸ hblock))
    refine ⟨⟨t, q.receipts, k.newPubkeys⟩, ?_, rfl, rfl⟩
    simp only [executeFullBody, bind_ok_iff, ensure_ok_iff, decide_eq_true_eq, pure_ok_iff]
    refine ⟨_, hblock, (), hbatch, (), hpolicy, p, htxs ▸ hexec, (), by rw [hgas, hprogress]; rfl, (q, system),
      htxs ▸ hpaid, (q, []), rfl, (), ?_, t, hactivated, rfl⟩
    rw [hsystem, List.append_nil]

/-- A block on which the importer runs alike is processed to the state and the receipts of the producer. -/
theorem processBlock_of_runsAlike (sv : SettlementView) (hextra : block.header.extraData = [])
    (hbloom : block.header.logsBloom = blockBloom rewarded.1.receipts)
    (hroot : block.header.stateRoot = M.stateRoot final.world) :
    processBlock M ctx sv parent block = .ok ⟨final, rewarded.1.receipts, []⟩ := by
  have hrewards : block.starkRewards = [] := by
    rw [Block.starkRewards, hsystem]
    exact starkRewards_of_rewardProducer hreward
  obtain ⟨e, hbody, hstate, hreceipts⟩ := executeBody_of_runsAlike haccepted hrun htxs hgas hreward hsystem hfinal sv
  have hlogs : verifyImportLogsBloom block e.receipts = .ok () := by
    simp only [verifyImportLogsBloom, ensure_ok_iff, decide_eq_true_eq, hreceipts]
    exact .inl hbloom
  have hworld : M.stateRoot e.state.world = block.header.stateRoot := by
    rw [hroot, ← hstate]
    rfl
  have hdecode : decodeSystemExtra M block.header.extraData = .ok [] := by
    rw [decodeSystemExtra, hextra, if_pos (by decide)]
  have hsettled : checkedSettlements M sv parent.registry block = .ok [] := by
    simp only [checkedSettlements, bind_ok_iff, hdecode, hrewards]
    exact ⟨[], rfl, (), rfl, [], rfl, (), rfl, (), rfl, rfl⟩
  simp only [processBlock, bind_ok_iff, ensure_ok_iff, pure_ok_iff, decide_eq_true_eq]
  exact ⟨[], hsettled, e, hbody, (), hlogs, (), hworld, by rw [hstate, hreceipts]⟩

end

theorem acceptedByImporter_of_processBlock {sv : SettlementView} {processed : Processed σ ρ}
    (h : processBlock M ctx sv parent block = .ok processed) : AcceptedByImporter M ctx parent block.transactions := by
  obtain ⟨e, hbody, -⟩ := (processBlock_ok h).executed
  unfold executeBody at hbody
  split at hbody
  · rename_i hempty
    have hkeys : signingKeys M.toCtx (M.view ctx parent) ⟨.empty, .empty⟩ [] = .ok (⟨.empty, .empty⟩, []) := rfl
    rw [hempty.1]
    exact acceptedByImporter_of_executed hkeys rfl rfl rfl
  · obtain ⟨keys, executed, _, _, _, hkeys, hbatch, hpolicy, hexecuted, -⟩ := executeFullBody_ok hbody
    exact acceptedByImporter_of_executed hkeys hbatch hpolicy hexecuted

/-! ## Import of a produced block -/

/-- The import of a block on one node gives the head, the state and the receipts that its production gave on another. -/
def ImportedAlike (M : Machine σ ρ) (now : Nat) (other produced : ChainNode σ ρ) (block : Block) : Prop :=
  ∃ imported, importBlock M now other block = .ok imported ∧ imported.head = produced.head ∧
    imported.state = produced.state ∧
    imported.receipts (block.hash M.toCtx) = produced.receipts (block.hash M.toCtx)

namespace AgreementCex

/-- A node on which the sender has a custom validator and no registered key. -/
def customNode : ChainNode SampleWorld Unit :=
  genesisNode ⟨[⟨chainAddress senderKey, 0, 1000000000, ⟨.zero, some (.repeatByte 1)⟩⟩], none⟩ .empty

def embeddedTransfer : SignedTransaction :=
  sampleTransfer senderKey 0 (.repeatByte 9) 5 21000 2000 (.embedded senderKey)

/-- The block that a node produces from some candidates. -/
def producedBlock (node : ChainNode SampleWorld Unit) (candidates : List SignedTransaction) : Block :=
  match produceBlock sampleMachine validatorSign validatorKey node 1010 500 candidates with
  | .ok produced => produced.2
  | .error _ => node.head

/-- A node on which the sender has neither a custom validator nor a registered key. -/
def plainNode : ChainNode SampleWorld Unit :=
  genesisNode senderWorld .empty

/-- The next transfer of the sender, which refers to the key that the first one embeds. -/
def nextTransfer : SignedTransaction :=
  sampleTransfer senderKey 1 (.repeatByte 9) 6 21000 2000 .reference

/-- The candidates: the first use of a key and a reference to it. -/
def twoTransfers : List SignedTransaction :=
  [embeddedTransfer, nextTransfer]

theorem keysUnseen_twoTransfers (ctx : ExecContext) (maxTxs : Nat) (keys : KeyTable)
    (hfirst : (sampleMachine.view ctx plainNode.state).FirstUse chainCtx embeddedTransfer) :
    KeysUnseen sampleMachine ctx plainNode.state maxTxs twoTransfers keys := by
  refine ⟨fun d k p stx after _ houtcome => ?_, fun d k p stx after kept pubkey htried _ hmode _ => ?_,
    fun d k p stx after kept htried houtcome => ?_⟩
  · exact sampleExecute_frame (Prod.ext (Prod.mk.inj houtcome).1 rfl)
  · obtain ⟨pre, rest, hcandidates, -⟩ := htried.drafted
    have hmem : stx ∈ twoTransfers := by
      rw [hcandidates]
      exact List.mem_append_right _ List.mem_cons_self
    rcases List.mem_pair.mp hmem with rfl | rfl
    · exact hfirst
    · cases hmode
  · -- the sample machine reads no key
    have hstate : d.progress.state = p.state.registerNew k.newPubkeys := by rw [htried.progress]; rfl
    have hgas : d.progress.cumulativeGas = p.cumulativeGas := by rw [htried.progress]; rfl
    obtain ⟨hafter, hkept⟩ := Prod.mk.inj houtcome
    obtain ⟨result, hresult, hcounted⟩ := Option.bind_eq_some_iff.mp hkept
    obtain ⟨_, -, rfl⟩ := Option.map_eq_some_iff.mp hcounted
    have hunseen := sampleExecute_registerNew ctx p.state k.newPubkeys stx d.included.length p.cumulativeGas
    rw [hstate, hgas] at hafter hresult
    refine ⟨(sampleExecute ctx p.state stx d.included.length p.cumulativeGas).1, ?_, ?_⟩
    · exact Prod.ext rfl ((congrArg Prod.snd hunseen).symm.trans hresult)
    · exact (congrArg Prod.fst hunseen).symm.trans hafter

end AgreementCex

end ShellChain
