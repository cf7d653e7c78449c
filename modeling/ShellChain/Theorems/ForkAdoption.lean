import ShellChain.Lemmas.Fork
import ShellChain.SampleChain

/-!
# Fork adoption and linear import

Adoption replays the blocks of a preferred branch in an overlay whose head and canonical hashes are still those of the old
branch, where a node at the ancestor would import them one by one. The two agree as long as every check that reads the chain
is answered alike.
-/

namespace ShellChain

open Checks ChainNode

variable {σ ρ : Type} {M : Machine σ ρ}

def importBlocks (M : Machine σ ρ) (now : Nat) : ChainNode σ ρ → List Block → Except NodeError (ChainNode σ ρ)
  | node, [] => .ok node
  | node, block :: rest => do
    let next ← importBlock M now node block
    importBlocks M now next rest

/-! ## The conditions -/

/-- A plan that still fits the node: the old branch leads to the head and the new one to the preferred block, and the state
of the ancestor is available. -/
structure CurrentPlan (M : Machine σ ρ) (node : ChainNode σ ρ) (plan : ForkAdoptionPlan) (ancestor : Block)
    (s : ExecState σ ρ) : Prop where
  head : node.head.number = plan.canonicalNumber ∧
    node.head.hash M.toCtx = (plan.oldChain.getLast?.map (Block.hash M.toCtx)).getD plan.ancestorHash
  preferred : node.forkChoice.head = plan.preferredHash
  finality : node.crossesFinality plan.ancestorNumber plan.ancestorHash = false
  stored : node.blocks plan.ancestorHash = some ancestor
  canonical : ancestor.number = plan.ancestorNumber ∧ node.canonical plan.ancestorNumber = some plan.ancestorHash
  state : stateAtAncestor M node ancestor plan.oldChain = .ok s
  linked : List.IsChain (Block.Extends M.toCtx) (ancestor :: plan.newChain)
  tip : (plan.newChain.getLast?.getD ancestor).hash M.toCtx = plan.preferredHash ∧
    (plan.newChain.getLast?.getD ancestor).number = plan.preferredNumber

/-- A node whose canonical head is the block that a replay has come to, in the state of the replay, with the engine and the
rules of the replaying node. -/
structure Follows (M : Machine σ ρ) (node : ChainNode σ ρ) (s : ExecState σ ρ) (parent : Block) (linear : ChainNode σ ρ) :
    Prop where
  head : linear.head = parent
  state : linear.state = s
  stored : linear.blocks (parent.hash M.toCtx) = some parent
  engine : linear.engine = node.engine
  chainId : linear.config.chainId = node.config.chainId
  chainConfig : linear.config.chainConfig = node.config.chainConfig
  maxTxPerBlock : linear.config.maxTxPerBlock = node.config.maxTxPerBlock
  finality : linear.finality.lastFinalizedNumber ≤ parent.number

/-- The header of a block is judged alike: both nodes know the same key of its proposer, and the rule for finalized blocks,
which a stored certificate allows in the replay, gives the verdict of the usual one. -/
structure HeaderAlike (M : Machine σ ρ) (node linear : ChainNode σ ρ) (parent block : Block) : Prop where
  proposerKey : linear.authorityPubkey block.header.proposer = node.authorityPubkey block.header.proposer
  certified : node.certified block.number (block.hash M.toCtx) = true →
    (node.engine.verifyHeader block.header = .ok () ↔
      node.engine.verifyHeaderForFinalizedImport block.header parent.header = .ok ())

/-- The blocks of a branch are judged alike by a replay and by a node that imports them, each as far as the blocks before it
are accepted. -/
def BranchAlike (M : Machine σ ρ) (now : Nat) :
    ChainNode σ ρ → ChainNode σ ρ → ExecState σ ρ → Block → List Block → Prop
  | _, _, _, _, [] => True
  | node, linear, s, parent, block :: rest =>
    HeaderAlike M node linear parent block ∧
    ∀ pubkey, verifyHeaderChecks M node now block parent (node.certified block.number (block.hash M.toCtx)) = .ok pubkey →
      ReadsAlike M (node.execContext M.toCtx block.header) (linear.execContext M.toCtx block.header) (node.settlementView M)
        (linear.settlementView M) s block ∧
      ∀ processed, processBlock M (node.execContext M.toCtx block.header) (node.settlementView M) s block = .ok processed →
        BranchAlike M now (node.noteAuthority block.header.proposer pubkey)
          (((linear.noteAuthority block.header.proposer pubkey).commitCanonical M.toCtx block processed).recordSettledSources
            processed.settlements) processed.state block rest

/-- The node rolled back to an ancestor of its head, in a given state. -/
def ChainNode.rolledBack (node : ChainNode σ ρ) (ancestor : Block) (s : ExecState σ ρ) : ChainNode σ ρ :=
  { node.cutCanonical ancestor.number with head := ancestor, state := s }

variable {ancestor : Block} {node : ChainNode σ ρ}

/-- The node rolled back to a stored ancestor that is not below its finalized block follows the replay from there. -/
theorem ChainNode.follows_rolledBack (s : ExecState σ ρ) (hstored : node.blocks (ancestor.hash M.toCtx) = some ancestor)
    (hfinal : node.finality.lastFinalizedNumber ≤ ancestor.number) :
    Follows M node s ancestor (node.rolledBack ancestor s) :=
  ⟨rfl, rfl, hstored, rfl, rfl, rfl, rfl, hfinal⟩

/-! ## One block -/

section

variable {now : Nat} {node linear : ChainNode σ ρ} {s : ExecState σ ρ} {parent block : Block}
  (h : Follows M node s parent linear)

include h

/-- The header checks of a block that is judged alike. -/
theorem Follows.verifyHeaderChecks_iff (hheader : HeaderAlike M node linear parent block) (pubkey : Bytes) :
    verifyHeaderChecks M linear now block linear.head false = .ok pubkey ↔
      verifyHeaderChecks M node now block parent (node.certified block.number (block.hash M.toCtx)) = .ok pubkey := by
  rw [h.head, verifyHeaderChecks_congr h.engine h.maxTxPerBlock hheader.proposerKey]
  cases hcert : node.certified block.number (block.hash M.toCtx) with
  | false => rfl
  | true => exact verifyHeaderChecks_finalizedImport (hheader.certified hcert) pubkey

/-- The context of the following node is that of the replay with another head and other hashes. -/
theorem Follows.execContext_eq : linear.execContext M.toCtx block.header =
    (node.execContext M.toCtx block.header).withChain linear.head.number (linear.blockHashAt M.toCtx) := by
  unfold execContext ExecContext.withChain
  rw [h.chainId, h.chainConfig]

/-- The node that imported a block follows the replay of it. -/
theorem Follows.step (hext : parent.Extends M.toCtx block) (pubkey : Bytes) (processed : Processed σ ρ) :
    Follows M (node.noteAuthority block.header.proposer pubkey) processed.state block
      (((linear.noteAuthority block.header.proposer pubkey).commitCanonical M.toCtx block processed).recordSettledSources
        processed.settlements) := by
  refine ⟨rfl, rfl, Function.update_self .., h.engine, h.chainId, h.chainConfig, h.maxTxPerBlock, ?_⟩
  change linear.finality.lastFinalizedNumber ≤ block.number
  rw [hext.1]
  exact h.finality.trans (Nat.le_succ _)

end

/-! ## A branch -/

/-- What the linear import of a branch and its replay leave. -/
structure SameOutcome (Γ : Ctx) (linear final : ChainNode σ ρ) (node : ChainNode σ ρ) (parent : Block) (blocks : List Block)
    (replay : ChainNode σ ρ × ExecState σ ρ × List (ReplayedBlock σ ρ)) : Prop where
  head : final.head = blocks.getLast?.getD parent
  state : final.state = replay.2.1
  receipts : final.receipts = recordReceipts Γ linear.receipts replay.2.2
  replayed : replay.2.2.map ReplayedBlock.block = blocks
  nodeReceipts : replay.1.receipts = node.receipts

/-- The replay of a branch that is judged alike succeeds exactly when a following node imports it. -/
theorem Follows.run (now : Nat) {blocks : List Block} {node linear : ChainNode σ ρ} {s : ExecState σ ρ} {parent : Block}
    (h : Follows M node s parent linear) (hchain : List.IsChain (Block.Extends M.toCtx) (parent :: blocks))
    (hblocks : BranchAlike M now node linear s parent blocks) :
    (∀ replay, replayPreferredFork M now node s parent blocks = .ok replay →
        ∃ final, importBlocks M now linear blocks = .ok final ∧
          SameOutcome M.toCtx linear final node parent blocks replay) ∧
      ∀ final, importBlocks M now linear blocks = .ok final →
        ∃ replay, replayPreferredFork M now node s parent blocks = .ok replay := by
  induction blocks generalizing node linear s parent with
  | nil =>
    refine ⟨fun replay hreplay => ⟨linear, rfl, ?_⟩, fun _ _ => ⟨_, rfl⟩⟩
    obtain rfl := Except.ok.inj hreplay
    exact ⟨h.head, h.state, rfl, rfl, rfl⟩
  | cons block rest ih =>
    obtain ⟨hext, hrest⟩ := List.isChain_cons_cons.mp hchain
    obtain ⟨hheaderAlike, hblock⟩ := hblocks
    have himport : ∀ next, importBlock M now linear block = .ok next ↔ ∃ pubkey processed,
        verifyHeaderChecks M node now block parent (node.certified block.number (block.hash M.toCtx)) = .ok pubkey ∧
        processBlock M (node.execContext M.toCtx block.header) (node.settlementView M) s block = .ok processed ∧
        next = ((linear.noteAuthority block.header.proposer pubkey).commitCanonical M.toCtx block
          processed).recordSettledSources processed.settlements := by
      intro next
      rw [importBlock_ok_iff (h.head ▸ hext) (h.head ▸ h.stored) (h.head ▸ h.finality)]
      refine exists_congr fun pubkey => exists_congr fun processed => ?_
      rw [h.verifyHeaderChecks_iff hheaderAlike]
      refine and_congr_right fun hheader => and_congr_left fun _ => ?_
      have hreads := (hblock pubkey hheader).1
      rw [h.execContext_eq] at hreads
      rw [h.execContext_eq, h.state]
      exact hreads.processBlock_iff processed
    -- the rest of the branch from the node that imported the block
    have hstep := fun pubkey processed hheader hprocessed =>
      ih (h.step hext pubkey processed) hrest ((hblock pubkey hheader).2 processed hprocessed)
    constructor
    · intro replay hreplay
      simp only [replayPreferredFork, bind_ok_iff, mapError_ok_iff, pure_ok_iff] at hreplay
      obtain ⟨pubkey, hheader, processed, hprocessed, others, hothers, rfl⟩ := hreplay
      obtain ⟨final, hfinal, houtcome⟩ := (hstep pubkey processed hheader hprocessed).1 others hothers
      refine ⟨final, ?_, ?_, houtcome.state, houtcome.receipts, ?_, houtcome.nodeReceipts⟩
      · simp only [importBlocks, bind_ok_iff]
        exact ⟨_, (himport _).mpr ⟨pubkey, processed, hheader, hprocessed, rfl⟩, hfinal⟩
      · rw [houtcome.head]
        cases rest <;> simp [List.getLast?_cons]
      · rw [List.map_cons, houtcome.replayed]
    · intro final hfinal
      simp only [importBlocks, bind_ok_iff] at hfinal
      obtain ⟨next, hnext, hfinal⟩ := hfinal
      obtain ⟨pubkey, processed, hheader, hprocessed, rfl⟩ := (himport next).mp hnext
      obtain ⟨replay, hreplay⟩ := (hstep pubkey processed hheader hprocessed).2 final hfinal
      refine ⟨(replay.1, replay.2.1, ⟨block, processed, s.pubkeys, s.recovery⟩ :: replay.2.2), ?_⟩
      simp only [replayPreferredFork, bind_ok_iff, mapError_ok_iff, pure_ok_iff]
      exact ⟨pubkey, hheader, processed, hprocessed, replay, hreplay, rfl⟩

/-! ## Adoption -/

/-- The adoption of a current plan succeeds exactly when its replay does. -/
theorem adoptPreferredFork_ok_iff {now : Nat} {adopted : ChainNode σ ρ} {plan : ForkAdoptionPlan} {s : ExecState σ ρ}
    (hplan : CurrentPlan M node plan ancestor s) : adoptPreferredFork M now node plan = .ok adopted ↔ ∃ replay,
      replayPreferredFork M now node s ancestor plan.newChain = .ok replay ∧
      adopted = commitAdoption M.toCtx node plan (plan.newChain.getLast?.getD ancestor) replay := by
  simp only [adoptPreferredFork, bind_ok_iff, ensure_ok_iff, decide_eq_true_eq, hplan.stored, hplan.state, pure_ok_iff,
    hplan.finality, Bool.not_false, Except.ok.injEq]
  constructor
  · rintro ⟨_, -, _, -, _, -, _, -, _, rfl, replay, hreplay, _, -, rfl⟩
    exact ⟨replay, hreplay, rfl⟩
  · rintro ⟨replay, hreplay, rfl⟩
    exact ⟨(), hplan.head, (), hplan.preferred, (), trivial, (), hplan.canonical, s, rfl, replay, hreplay, (), hplan.tip,
      rfl⟩

namespace ForkAdoptionCex

/-- The node at genesis, where the key of the sender is registered. -/
def genesis : ChainNode SampleWorld Unit :=
  genesisNode senderWorld senderKeys

def emptyBlock (timestamp : Nat) : Block :=
  sealSample ⟨{ preliminaryHeader chainCtx genesis.head 1 timestamp validatorAddress with
    stateRoot := sampleMachine.stateRoot senderWorld }, [], [], none⟩

def oldBlock : Block :=
  emptyBlock 1010

def newBlock : Block :=
  emptyBlock 1011

/-- The second block of the new branch: one transaction, the world it leads to, and the fee it pays. -/
def tipWith (stx : SignedTransaction) (world : SampleWorld) (fee : Nat) : Block :=
  sealSample ⟨{ preliminaryHeader chainCtx newBlock 2 1020 validatorAddress with
    gasUsed := sampleGas stx, stateRoot := sampleMachine.stateRoot world }, [stx],
    [.blockGasReward 1337 2 1 validatorAddress fee (newBlock.hash chainCtx)], none⟩

/-- A call of the contract that stores the hash of block 1. -/
def recordCall : SignedTransaction :=
  sampleTransfer senderKey 0 recorder 0 50000 2000 .reference

/-- The tip with the call: the slot holds the hash of the first new block, and 43126 gas are paid at the base fee of 766. -/
def recordTip : Block :=
  tipWith recordCall ⟨[⟨chainAddress senderKey, 1, 966965484, ⟨.zero, none⟩⟩, .funded validatorAddress 33034516],
    some (newBlock.hash chainCtx)⟩ 33034516

def transfer : SignedTransaction :=
  sampleTransfer senderKey 0 (.repeatByte 9) 5 21000 2000 .reference

def transferTip : Block :=
  tipWith transfer ⟨[⟨chainAddress senderKey, 1, 983913995, ⟨.zero, none⟩⟩, .funded (.repeatByte 9) 5,
    .funded validatorAddress 16086000], none⟩ 16086000

/-- The node on the old branch, which stores the new one and prefers its tip. The old block changes no state. -/
def forked (tip : Block) : ChainNode SampleWorld Unit :=
  let hash := Block.hash chainCtx
  { genesis with
    head := oldBlock
    blocks := fun h => if h = hash oldBlock then some oldBlock else if h = hash newBlock then some newBlock
      else if h = hash tip then some tip else genesis.blocks h
    canonical := fun n => if n = 1 then some (hash oldBlock) else genesis.canonical n
    receipts := fun h => if h = hash oldBlock then some [] else none
    metadataUndo := fun h => if h = hash oldBlock then some (genesis.state.pubkeys, ()) else none
    forkChoice := ⟨hash tip, fun _ => some (2, 1), fun _ _ => some (hash genesis.head), fun start _ =>
      if start = hash tip then [hash newBlock, hash tip] else [hash oldBlock]⟩ }

/-- The plan to adopt the new branch. -/
def planTo (tip : Block) : ForkAdoptionPlan :=
  ⟨tip.hash chainCtx, 2, 1, genesis.head.hash chainCtx, 0, [oldBlock], [newBlock, tip]⟩

/-- A transaction that does not call the contract is executed alike on every branch. -/
theorem sameContracts_of_recipient {stx : SignedTransaction} (h : stx.tx.recipient ≠ some recorder) (ctx : ExecContext)
    (headNumber : Nat) (blockHash : Nat → Option ShellHash) : SameContracts sampleMachine ctx headNumber blockHash stx := by
  refine ⟨fun s index gas => ?_, fun _ _ => rfl, fun _ _ => rfl⟩
  change sampleExecute (ctx.withChain headNumber blockHash) s stx index gas = sampleExecute ctx s stx index gas
  unfold sampleExecute
  split
  · rename_i account recipient hfound hrecipient
    have hne : recipient ≠ recorder := fun heq => h (hrecipient.trans (congrArg some heq))
    simp only [if_neg hne]
    rfl
  · rfl

/-- The node on the old branch with a certificate stored for every block. -/
def certifiedFork : ChainNode SampleWorld Unit :=
  { forked transferTip with certified := fun _ _ => true }

/-- The branch of the validator is judged alike if its blocks settle nothing and call no contract. -/
theorem branchAlike_sample {now : Nat} {blocks : List Block} {node linear : ChainNode SampleWorld Unit}
    {s : ExecState SampleWorld Unit} {parent : Block} (h : Follows sampleMachine node s parent linear)
    (hchain : List.IsChain (Block.Extends chainCtx) (parent :: blocks)) (hengine : node.engine = sampleEngine)
    (hkey : node.knownAuthorities validatorAddress = some validatorKey)
    (hkey' : linear.knownAuthorities validatorAddress = some validatorKey)
    (hblocks : ∀ block ∈ blocks, block.header.proposer = validatorAddress ∧ block.starkRewards = [] ∧
      ∀ stx ∈ block.transactions, stx.tx.recipient ≠ some recorder) :
    BranchAlike sampleMachine now node linear s parent blocks := by
  induction blocks generalizing node linear s parent with
  | nil => trivial
  | cons block rest ih =>
    obtain ⟨hext, hrest⟩ := List.isChain_cons_cons.mp hchain
    obtain ⟨⟨hproposer, hrewards, htxs⟩, hothers⟩ := List.forall_mem_cons.mp hblocks
    refine ⟨⟨?_, fun _ => ?_⟩, fun pubkey _ => ⟨?_, fun processed _ => ?_⟩⟩
    · rw [hproposer, authorityPubkey, authorityPubkey, hkey, hkey', Option.orElse_some, Option.orElse_some]
    · simp [hengine, Engine.verifyHeader, Engine.verifyHeaderForFinalizedImport, hproposer, sampleEngine, ensure, bind,
        Except.bind]
    · rw [h.execContext_eq]
      -- without settlements the verdict on them does not depend on the view
      refine readsAlike_of_sameContracts (fun stx hstx => sameContracts_of_recipient (htxs stx hstx) _ _ _)
        (fun settled => ?_) fun settled hsettled a ha => ?_
      · simp only [checkedSettlements, hrewards]
        rfl
      · have hsome := map_some_settlements hsettled
        rw [hrewards, List.map_nil, List.map_eq_nil_iff] at hsome
        rw [hsome] at ha
        cases ha
    · refine ih (h.step hext pubkey processed) hrest hengine ?_ ?_ hothers
      · simp [noteAuthority, KeyTable.orInsert, hproposer, hkey]
      · simp [noteAuthority, commitCanonical, recordSettledSources, KeyTable.orInsert, hproposer, hkey']

theorem currentPlan_transfer {s : ExecState SampleWorld Unit}
    (h : stateAtAncestor sampleMachine certifiedFork genesis.head [oldBlock] = .ok s) :
    CurrentPlan sampleMachine certifiedFork (planTo transferTip) genesis.head s :=
  ⟨by decide +kernel, by decide +kernel, by decide +kernel, by decide +kernel, by decide +kernel, h,
    List.isChain_cons_cons.mpr ⟨by decide +kernel, List.isChain_cons_cons.mpr ⟨by decide +kernel,
      List.isChain_singleton _⟩⟩, by decide +kernel⟩

end ForkAdoptionCex

end ShellChain
