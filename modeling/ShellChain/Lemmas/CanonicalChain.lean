import ShellChain.Lemmas.Production
import ShellChain.Lemmas.Fork
import ShellChain.Lemmas.Settlements

/-!
# How the canonical chain moves

A block that is imported or produced on top of the head is committed with the settlements that its reward transactions
carry. An adoption commits the new branch block by block, each block with its settlements, but checks all of them against
the settled sources of the old branch. What holds of the three ways is stated here once, for the invariants that follow.
-/

namespace ShellChain

open Checks ChainNode List Block

variable {σ ρ : Type} {M : Machine σ ρ}

/-! ## The settlements of an accepted block -/

/-- The checks that the settlements of a block have passed on a node. -/
structure Settles (M : Machine σ ρ) (node : ChainNode σ ρ) (block : Block) : Prop where
  extra : decodeSystemExtra M block.header.extraData = .ok []
  sequence : (node.settlementView M).validateStarkSettlementSequence (block.settlements M) = .ok ()
  binding : ∀ a ∈ block.settlements M, M.proofSourceBinding node.blocks a = true

variable {block : Block} {node next : ChainNode σ ρ} {a : ProofAmendment} {ctx : ExecContext} {sv : SettlementView}
  {d : SettlementDraft σ ρ} {includedTxs now maxTxs timestamp finalized : Nat} {pending : List ProofAmendment} {candidates : List SignedTransaction} {blocks : List Block} {Γ : Ctx}
  {plan : ForkAdoptionPlan}

theorem settles_of_checkedSettlements {registry : AlgorithmRegistry} {settlements : List ProofAmendment}
    (h : checkedSettlements M (node.settlementView M) registry block = .ok settlements) :
    Settles M node block ∧ block.settlements M = settlements := by
  have heq : block.settlements M = settlements := by
    have hmap := map_some_settlements h
    calc block.settlements M
        = (block.starkRewards.map fun tx => tx.proofPayload.bind M.amendmentFromJson).filterMap id := by
          rw [filterMap_map, Block.settlements]
          rfl
      _ = settlements := by
          rw [← hmap, filterMap_map]
          simp
  simp only [checkedSettlements, bind_ok_iff, ensure_ok_iff, mapError_ok_iff, pure_ok_iff, decide_eq_true_eq] at h
  obtain ⟨extra, hextra, _, rfl, _, -, _, hsequence, _, hbinding, rfl⟩ := h
  refine ⟨⟨hextra, heq ▸ hsequence, ?_⟩, heq⟩
  intro a ha
  rw [heq] at ha
  have hbound := forM_ok hbinding a ha
  simp only [bind_ok_iff, ensure_ok_iff] at hbound
  obtain ⟨_, -, hbound⟩ := hbound
  exact hbound

/-! ## Production -/

/-- What is written as a payload is read back. -/
def PayloadCodec (M : Machine σ ρ) : Prop :=
  ∀ a payload, M.amendmentToJson a = some payload → M.amendmentFromJson payload = some a

/-- The draft carries the settlements that it counts, each of which was pending and passed its checks. -/
structure SettlementDraft.Carries (M : Machine σ ρ) (sv : SettlementView) (pending : List ProofAmendment)
    (d : SettlementDraft σ ρ) : Prop where
  rewards : (d.systemTransactions.filter fun tx => tx.kind = .starkReward).filterMap
    (fun tx => tx.proofPayload.bind M.amendmentFromJson) = d.settled
  sequence : sv.validateStarkSettlementSequence d.settled = .ok ()
  binding : ∀ a ∈ d.settled, sv.sourceBinding a = true
  pending : ∀ a ∈ d.settled, a ∈ pending

theorem SettlementDraft.Carries.trySettlement (hcodec : PayloadCodec M) {next : SettlementDraft σ ρ}
    (hd : d.Carries M sv pending) (ha : a ∈ pending) (h : ShellChain.trySettlement M ctx sv includedTxs d a = .ok next) :
    next.Carries M sv pending := by
  simp only [ShellChain.trySettlement] at h
  split at h
  · exact Except.ok.inj h ▸ hd
  rename_i hadmits
  simp only [SettlementDraft.admits, Bool.and_eq_true, not_not] at hadmits
  obtain ⟨⟨⟨⟨-, hsequence⟩, -⟩, -⟩, hbinding⟩ := hadmits
  split at h
  · obtain rfl := Except.ok.inj h
    exact ⟨hd.rewards, hd.sequence, hd.binding, hd.pending⟩
  · rename_i tx htx
    simp only [buildStarkRewardTx, Option.bind_eq_bind, Option.bind_eq_some_iff, Option.pure_def, Option.some.injEq] at htx
    obtain ⟨_, -, _, -, payload, hjson, rfl⟩ := htx
    split at h
    · obtain rfl := Except.ok.inj h
      exact ⟨hd.rewards, hd.sequence, hd.binding, hd.pending⟩
    · split at h
      · cases h
      · obtain rfl := Except.ok.inj h
        refine ⟨?_, ?_, ?_, ?_⟩
        · simp only [filter_append, filterMap_append, hd.rewards, filter_cons, decide_true, if_true,
            filter_nil, filterMap_cons, Option.bind_some, hcodec a payload hjson, filterMap_nil]
        · obtain ⟨_, hok⟩ := isOk_iff.mp hsequence
          exact hok
        · exact forall_mem_append.mpr ⟨hd.binding, forall_mem_singleton.mpr hbinding⟩
        · exact forall_mem_append.mpr ⟨hd.pending, forall_mem_singleton.mpr ha⟩

theorem SettlementDraft.Carries.settlePending (hcodec : PayloadCodec M) {rest : List ProofAmendment}
    {final : SettlementDraft σ ρ} (hd : d.Carries M sv pending) (hrest : ∀ a ∈ rest, a ∈ pending)
    (h : ShellChain.settlePending M ctx sv includedTxs d rest = .ok final) : final.Carries M sv pending := by
  induction rest generalizing d with
  | nil => exact Except.ok.inj h ▸ hd
  | cons a rest ih =>
    simp only [ShellChain.settlePending, bind_ok_iff] at h
    obtain ⟨next, hnext, h⟩ := h
    rw [forall_mem_cons] at hrest
    exact ih (hd.trySettlement hcodec hrest.1 hnext) hrest.2 h

/-! ## A block on top of the head -/

theorem le_of_isSome_checkedAdd {a b : Nat} (h : (checkedAdd a b).isSome = true) : a + b ≤ u64Max := by
  unfold checkedAdd at h
  split_ifs at h with hle
  · exact hle
  · cases h

/-- What the commit of a block on top of the head has established. -/
structure CommittedNext (M : Machine σ ρ) (node next : ChainNode σ ρ) (block : Block) : Prop where
  number : block.number = node.head.number + 1
  number_le : block.number ≤ u64Max
  settles : Settles M node block
  stateRoot : M.stateRoot next.state.world = block.header.stateRoot
  next_eq : ∃ authorities processed, next = (({ node with knownAuthorities := authorities } :
    ChainNode σ ρ).commitCanonical M.toCtx block processed).recordSettledSources (block.settlements M)

theorem committedNext_of_import {finalizedImport : Bool} (hclass : node.classify M.toCtx block = .ok .canonicalNext)
    (h : importBlockInner M now node block finalizedImport = .ok next) : CommittedNext M node next block := by
  simp only [importBlockInner, hclass, bind_ok_iff] at h
  obtain ⟨_, htransition, h⟩ := h
  obtain rfl := Except.ok.inj htransition
  simp only [importCanonicalNext, bind_ok_iff, mapError_ok_iff, pure_ok_iff] at h
  obtain ⟨_, -, _, -, processed, hprocessed, rfl⟩ := h
  obtain ⟨hsettles, heq⟩ := settles_of_checkedSettlements (processBlock_ok hprocessed).settled
  have hnumber := (classify_canonicalNext hclass).1
  obtain ⟨e, -, -, hroot, hstate, -⟩ := (processBlock_ok hprocessed).executed
  refine ⟨hnumber, ?_, hsettles, (congrArg (M.stateRoot ·.world) hstate).trans hroot, _, processed, by rw [heq]; rfl⟩
  unfold classify classifyImport at hclass
  split_ifs at hclass with _ _ _ hadd _ _ <;> cases hclass
  rw [hnumber]
  exact le_of_isSome_checkedAdd (Option.ne_none_iff_isSome.mp (by simpa using hadd))

theorem committedNext_of_produce (hcodec : PayloadCodec M) {sign : Bytes → PQSignature} {pubkey : Bytes}
    (h : produceSettlingBlock M sign pubkey node timestamp maxTxs candidates pending = .ok (next, block)) :
    CommittedNext M node next block ∧ ∀ a ∈ block.settlements M, a ∈ pending := by
  obtain ⟨_, -, hadd, -, -, assembled, hassembled, rfl, rfl⟩ := produceSettlingBlock_ok h
  simp only [assembleSettlingBlock, bind_ok_iff, mapError_ok_iff, pure_ok_iff] at hassembled
  obtain ⟨draft, -, rewarded, hrewarded, settled, hsettled, final, -, rfl⟩ := hassembled
  have hstart : SettlementDraft.Carries M (node.settlementView M) pending ⟨rewarded.1, rewarded.2, [], []⟩ := by
    refine ⟨?_, rfl, by simp, by simp⟩
    rw [starkRewards_of_rewardProducer hrewarded]
    rfl
  have hcarries := hstart.settlePending hcodec (fun a ha => (mem_insertionSort _).mp ha) hsettled
  refine ⟨⟨rfl, le_of_isSome_checkedAdd hadd, ⟨rfl, ?_, ?_⟩, rfl, _, _, congrArg _ hcarries.rewards.symm⟩, ?_⟩
  · rw [settlements, starkRewards, hcarries.rewards]
    exact hcarries.sequence
  · intro a ha
    rw [settlements, starkRewards, hcarries.rewards] at ha
    exact hcarries.binding a ha
  · intro a ha
    rw [settlements, starkRewards, hcarries.rewards] at ha
    exact hcarries.pending a ha

/-! ## Adoption -/

theorem loadForkSegment_ok {requireCanonical : Bool} {expectedParent : ShellHash} {parentNumber : Nat}
    {hashes : List ShellHash} (h : loadForkSegment Γ node requireCanonical expectedParent parentNumber hashes = .ok blocks) :
    blocks.length = hashes.length ∧ ∀ i block, blocks[i]? = some block →
        block.number = parentNumber + 1 + i ∧ block.number ≤ u64Max ∧ node.blocks (block.hash Γ) = some block := by
  induction hashes generalizing expectedParent parentNumber blocks with
  | nil =>
    obtain rfl := Except.ok.inj h
    exact ⟨rfl, fun i block hi => by simp at hi⟩
  | cons hash rest ih =>
    simp only [loadForkSegment, bind_ok_iff, ensure_ok_iff] at h
    obtain ⟨_, hadd, h⟩ := h
    have hle := le_of_isSome_checkedAdd hadd
    split at h
    · exact absurd h throw_ne_ok
    rename_i block hblock
    simp only [bind_ok_iff, ensure_ok_iff, decide_eq_true_eq, pure_ok_iff] at h
    obtain ⟨_, ⟨hhash, hnumber, -⟩, _, -, others, hothers, rfl⟩ := h
    obtain ⟨hlength, hrest⟩ := ih hothers
    refine ⟨by simp [hlength], fun i b hi => ?_⟩
    cases i with
    | zero =>
      obtain rfl : block = b := by simpa using hi
      exact ⟨by omega, by omega, by rw [hhash, hblock]⟩
    | succ i =>
      obtain ⟨hnum, hle, hstored⟩ := hrest i b (by simpa using hi)
      exact ⟨by omega, hle, hstored⟩

/-- The facts of a plan that follows from the fork choice. -/
structure PlanFacts (Γ : Ctx) (node : ChainNode σ ρ) (plan : ForkAdoptionPlan) : Prop where
  ancestor_le : plan.ancestorNumber ≤ node.head.number
  preferred : plan.preferredNumber = plan.ancestorNumber + plan.newChain.length
  head_le : node.head.number ≤ plan.preferredNumber
  newChain : ∀ i block, plan.newChain[i]? = some block →
    block.number = plan.ancestorNumber + 1 + i ∧ block.number ≤ u64Max ∧ node.blocks (block.hash Γ) = some block

theorem planFacts_of_preferredForkPlan (h : preferredForkPlan Γ node = .ok (some plan)) : PlanFacts Γ node plan := by
  simp only [preferredForkPlan] at h
  split at h
  · cases h
  · split at h
    · cases h
    rename_i hskip
    push Not at hskip
    split at h
    · cases h
    split at h
    · cases h
    simp only [bind_ok_iff, ensure_ok_iff, decide_eq_true_eq, pure_ok_iff] at h
    obtain ⟨_, -, _, hlength, _, hpaths, _, -, _, -, _, -, newChain, hnew, hplan⟩ := h
    obtain rfl := Option.some.inj hplan
    obtain ⟨hnewLength, hnewChain⟩ := loadForkSegment_ok hnew
    exact ⟨by simp only; omega, by simp only; omega, hskip.2, hnewChain⟩

/-- The replay of an adoption goes through the new blocks in order, and each block settles against the live node. -/
theorem replayPreferredFork_ok {s : ExecState σ ρ} {parent : Block}
    {replay : ChainNode σ ρ × ExecState σ ρ × List (ReplayedBlock σ ρ)}
    (h : replayPreferredFork M now node s parent blocks = .ok replay) :
    (∃ authorities, replay.1 = { node with knownAuthorities := authorities }) ∧
      replay.2.2.map ReplayedBlock.block = blocks ∧
      ∀ replayed ∈ replay.2.2, replayed.processed.settlements = replayed.block.settlements M ∧
        Settles M node replayed.block := by
  induction blocks generalizing node s parent replay with
  | nil =>
    obtain rfl := Except.ok.inj h
    exact ⟨⟨_, rfl⟩, rfl, fun _ hr => nomatch hr⟩
  | cons block rest ih =>
    simp only [replayPreferredFork, bind_ok_iff, mapError_ok_iff, pure_ok_iff] at h
    obtain ⟨pubkey, -, processed, hprocessed, others, hothers, rfl⟩ := h
    obtain ⟨⟨authorities, hnode⟩, hblocks, hsettles⟩ := ih hothers
    refine ⟨⟨authorities, hnode⟩, by simp [hblocks], ?_⟩
    intro replayed hmem
    rcases mem_cons.mp hmem with rfl | hmem
    · obtain ⟨hblock, heq⟩ := settles_of_checkedSettlements (processBlock_ok hprocessed).settled
      exact ⟨heq.symm, hblock⟩
    · obtain ⟨heq, hblock⟩ := hsettles replayed hmem
      exact ⟨heq, hblock.extra, hblock.sequence, hblock.binding⟩

/-- The canonical hashes of a node after the blocks of a branch were committed. -/
theorem canonical_foldl_commitReplayed (replayed : List (ReplayedBlock σ ρ)) (node : ChainNode σ ρ) (ancestor : Nat)
    (hnumbers : ∀ i r, replayed[i]? = some r → r.block.number = ancestor + 1 + i) (n : Nat) :
    (replayed.foldl (commitReplayed Γ) node).canonical n = if n ≤ ancestor then node.canonical n
      else ((replayed[n - (ancestor + 1)]?).map fun r => r.block.hash Γ).orElse fun _ => node.canonical n := by
  induction replayed generalizing node ancestor with
  | nil => simp
  | cons first rest ih =>
    have hfirst := hnumbers 0 first rfl
    rw [foldl_cons, ih (node.commitReplayed Γ first) (ancestor + 1) fun i r hi => by
      have := hnumbers (i + 1) r (by simpa using hi)
      omega]
    simp only [commitReplayed]
    by_cases hle : n ≤ ancestor
    · rw [if_pos (by omega), if_pos hle, Function.update_of_ne (by omega)]
    · rw [if_neg hle]
      by_cases heq : n = ancestor + 1
      · subst heq
        rw [if_pos (Nat.le_refl _), hfirst]
        simp
      · obtain ⟨k, rfl⟩ : ∃ k, n = ancestor + 1 + 1 + k := ⟨n - (ancestor + 1 + 1), by omega⟩
        rw [if_neg (by omega), show ancestor + 1 + 1 + k - (ancestor + 1 + 1) = k by omega,
          show ancestor + 1 + 1 + k - (ancestor + 1) = k + 1 by omega, getElem?_cons_succ,
          Function.update_of_ne (by omega)]

/-! ## Settled sources and frontiers -/

/-- The cached frontiers skip compressed blocks only and do not pass the head. -/
structure FrontiersOk (M : Machine σ ρ) (node : ChainNode σ ρ) : Prop where
  sound : (node.settlementView M).FrontiersSound
  below : ∀ layer frontier, node.settledFrontiers layer = some frontier → frontier ≤ node.head.number + 1

/-- No canonical hash is above the head. -/
def ChainNode.CanonicalBelow (node : ChainNode σ ρ) : Prop :=
  ∀ n hash, node.canonical n = some hash → n ≤ node.head.number

/-- A frontier moves over canonical blocks that are settled at its layer or above. -/
theorem advanceFrontier_spec (canonical : Nat → Option ShellHash) (settled : Finset (Nat × ShellHash))
    (layer fuel frontier : Nat) {n : Nat} (hlt : n < advanceFrontier canonical settled layer fuel frontier) :
    n < frontier ∨ ∃ h, canonical n = some h ∧ ∃ l ∈ [1, 2, 3], layer ≤ l ∧ (l, h) ∈ settled := by
  induction fuel generalizing frontier with
  | zero => exact .inl hlt
  | succ fuel ih =>
    rw [advanceFrontier] at hlt
    split_ifs at hlt with hsettled
    · rcases ih (frontier + 1) hlt with hn | hn
      · rcases Nat.lt_succ_iff_lt_or_eq.mp hn with hn | rfl
        · exact .inl hn
        · obtain ⟨h, hh, hany⟩ := (Option.any_eq_true _ _).mp hsettled
          obtain ⟨l, hl, hmem⟩ := any_eq_true.mp hany
          obtain ⟨hl, hle⟩ := mem_filter.mp hl
          exact .inr ⟨h, hh, l, hl, by simpa using hle, by simpa using hmem⟩
      · exact .inr hn
    · exact .inl hlt

theorem SettlementView.settledLayer_mono {v w : SettlementView} (hsub : v.settledSources ⊆ w.settledSources)
    (h : ShellHash) : v.settledLayer h ≤ w.settledLayer h := by
  by_cases hpos : 0 < v.settledLayer h
  · obtain ⟨hlayer, hmem⟩ := mem_of_settledLayer_pos hpos
    exact le_settledLayer hlayer (hsub hmem)
  · omega

namespace ChainNode

theorem settledSources_recordSettledSources (node : ChainNode σ ρ) (settlements : List ProofAmendment) :
    (node.recordSettledSources settlements).settledSources =
      node.settledSources ∪ (settlements.flatMap ProofAmendment.sourceKeys).toFinset :=
  rfl

end ChainNode

theorem FrontiersOk.recordSettledSources (h : FrontiersOk M node) (hbelow : node.CanonicalBelow)
    (settlements : List ProofAmendment) : FrontiersOk M (node.recordSettledSources settlements) := by
  have hgrow : ∀ hash, (node.settlementView M).settledLayer hash ≤
      ((node.recordSettledSources settlements).settlementView M).settledLayer hash :=
    SettlementView.settledLayer_mono Finset.subset_union_left
  -- a height below a moved frontier was below the old one, or was passed over as settled
  have hcases : ∀ layer frontier, (node.recordSettledSources settlements).settledFrontiers layer = some frontier →
      ∀ n < frontier, (∃ old, node.settledFrontiers layer = some old ∧ n < old) ∨
        ∃ hash, node.canonical n = some hash ∧
          layer ≤ ((node.recordSettledSources settlements).settlementView M).settledLayer hash := by
    intro layer frontier hfrontier n hn
    simp only [ChainNode.recordSettledSources] at hfrontier
    split_ifs at hfrontier with htouched
    · obtain rfl := Option.some.inj hfrontier
      rcases advanceFrontier_spec _ _ _ _ _ hn with hn | ⟨hash, hhash, l, hl, hle, hmem⟩
      · cases hold : node.settledFrontiers layer with
        | none => simp [hold] at hn
        | some old => exact .inl ⟨old, rfl, by simpa [hold] using hn⟩
      · exact .inr ⟨hash, hhash, hle.trans (SettlementView.le_settledLayer hl hmem)⟩
    · exact .inl ⟨frontier, hfrontier, hn⟩
  refine ⟨?_, ?_⟩
  · intro layer frontier hfrontier n hn hash hhash
    rcases hcases layer frontier hfrontier n hn with ⟨old, hold, hlt⟩ | ⟨hash', hhash', hle⟩
    · exact (h.sound layer old hold n hlt hash hhash).trans (hgrow hash)
    · obtain rfl := Option.some.inj (hhash'.symm.trans hhash)
      exact hle
  · intro layer frontier hfrontier
    by_contra hgt
    rcases hcases layer frontier hfrontier (node.head.number + 1) (Nat.lt_of_not_le hgt) with ⟨old, hold, hlt⟩ | ⟨hash, hhash, -⟩
    · exact absurd (h.below layer old hold) (Nat.not_le.mpr hlt)
    · exact absurd (hbelow _ _ hhash) (Nat.not_succ_le_self _)

/-- The settlements of several blocks are recorded one block at a time. -/
theorem foldl_recordSettledSources_spec (M : Machine σ ρ) (node : ChainNode σ ρ) (settlements : List (List ProofAmendment)) :
    let final := settlements.foldl recordSettledSources node
    final = { node with settledSources := final.settledSources, settledFrontiers := final.settledFrontiers } ∧
      final.settledSources =
        node.settledSources ∪ (settlements.flatMap fun l => l.flatMap ProofAmendment.sourceKeys).toFinset ∧
      (node.CanonicalBelow → FrontiersOk M node → FrontiersOk M final) := by
  induction settlements generalizing node with
  | nil => exact ⟨rfl, by simp, fun _ h => h⟩
  | cons first rest ih =>
    obtain ⟨hframe, hsettled, hfrontiers⟩ := ih (node.recordSettledSources first)
    refine ⟨hframe, ?_, fun hbelow h => hfrontiers hbelow (h.recordSettledSources hbelow first)⟩
    simp only [foldl_cons]
    rw [hsettled, settledSources_recordSettledSources, flatMap_cons, toFinset_append, Finset.union_assoc]

/-! ## The node after an adoption -/

/-- What an adoption has established, and the node it leaves. -/
structure AdoptedFork (M : Machine σ ρ) (node next : ChainNode σ ρ) (plan : ForkAdoptionPlan) : Prop where
  head : next.head.number = plan.preferredNumber
  settles : ∀ block ∈ plan.newChain, Settles M node block
  settledSources : next.settledSources = node.settledSources ∪ (chainKeys M plan.newChain).toFinset
  canonical : ∀ n, next.canonical n = if n ≤ plan.ancestorNumber then node.canonical n
    else (plan.newChain[n - (plan.ancestorNumber + 1)]?).map (Block.hash M.toCtx)
  blocks : next.blocks = node.blocks
  storedArtifact : next.storedArtifact = node.storedArtifact
  finality : next.finality = (node.finality.checkFinalityWeighted plan.preferredHash plan.preferredNumber
    node.engine.validatorWeights.total).1
  finalizedNumber : next.finalizedNumber = if (node.finality.checkFinalityWeighted plan.preferredHash plan.preferredNumber
    node.engine.validatorWeights.total).2 then some plan.preferredNumber else node.finalizedNumber
  frontiers : FrontiersOk M node → FrontiersOk M next

theorem foldl_commitReplayed_frame (Γ : Ctx) (replayed : List (ReplayedBlock σ ρ)) (node : ChainNode σ ρ) :
    let final := replayed.foldl (commitReplayed Γ) node
    final = { node with
      canonical := final.canonical, receipts := final.receipts, worldAt := final.worldAt,
      metadataUndo := final.metadataUndo } := by
  induction replayed generalizing node with
  | nil => rfl
  | cons first rest ih => exact ih (node.commitReplayed Γ first)

theorem adoptedFork_of_ok (hplan : PlanFacts M.toCtx node plan) (h : adoptPreferredFork M now node plan = .ok next) :
    AdoptedFork M node next plan := by
  have hhead := adoptPreferredFork_number h
  simp only [adoptPreferredFork, bind_ok_iff] at h
  obtain ⟨_, -, _, -, _, -, h⟩ := h
  split at h
  · exact absurd h throw_ne_ok
  rename_i ancestor _
  simp only [bind_ok_iff, pure_ok_iff] at h
  obtain ⟨_, -, s, -, replay, hreplay, _, -, hnext⟩ := h
  obtain ⟨⟨authorities, hnode⟩, hblocks, hsettles⟩ := replayPreferredFork_ok hreplay
  have hsettlements : replay.2.2.map (fun r => r.processed.settlements) = plan.newChain.map (settlements M) := by
    rw [← hblocks, map_map]
    exact map_congr_left fun r hr => (hsettles r hr).1
  have hnumbers : ∀ i r, replay.2.2[i]? = some r → r.block.number = plan.ancestorNumber + 1 + i := by
    intro i r hi
    exact (hplan.newChain i r.block (by rw [← hblocks, getElem?_map, hi]; rfl)).1
  have hbranch : ∀ n, ((replay.2.2[n - (plan.ancestorNumber + 1)]?).map fun r => r.block.hash M.toCtx) =
      (plan.newChain[n - (plan.ancestorNumber + 1)]?).map (hash M.toCtx) := by
    intro n
    rw [← hblocks, getElem?_map, Option.map_map]
    rfl
  -- the node after the commit of the branch and before the settlements are recorded
  rw [commitAdoption] at hnext
  simp only at hnext
  have hcommitted := foldl_commitReplayed_frame M.toCtx replay.2.2 replay.1
  have hcanonical := canonical_foldl_commitReplayed (Γ := M.toCtx) replay.2.2 replay.1 plan.ancestorNumber hnumbers
  generalize replay.2.2.foldl (commitReplayed M.toCtx) replay.1 = committed at hnext hcommitted hcanonical
  rw [← foldl_map (g := recordSettledSources), hsettlements] at hnext
  have hcanonical' : ∀ n, (committed.cutCanonical plan.preferredNumber).canonical n =
      if n ≤ plan.ancestorNumber then node.canonical n
      else (plan.newChain[n - (plan.ancestorNumber + 1)]?).map (hash M.toCtx) := by
    intro n
    have hpreferred := hplan.preferred
    simp only [cutCanonical, hcanonical n, hbranch n, hnode]
    by_cases hle : n ≤ plan.ancestorNumber
    · rw [if_pos (by omega), if_pos hle, if_pos hle]
    · rw [if_neg hle, if_neg hle]
      by_cases hcut : n ≤ plan.preferredNumber
      · rw [if_pos hcut, getElem?_eq_getElem (by omega)]
        rfl
      · rw [if_neg hcut, getElem?_eq_none (by omega)]
        rfl
  have hfrontiers : committed.settledFrontiers = node.settledFrontiers := by rw [hcommitted, hnode]
  subst hnext
  obtain ⟨hframe, hsettled, hrecorded⟩ := foldl_recordSettledSources_spec M
    { committed.cutCanonical plan.preferredNumber with
      head := plan.newChain.getLast?.getD ancestor
      state := replay.2.1
      finality := (node.finality.checkFinalityWeighted plan.preferredHash plan.preferredNumber
        node.engine.validatorWeights.total).1
      finalizedNumber := if (node.finality.checkFinalityWeighted plan.preferredHash plan.preferredNumber
        node.engine.validatorWeights.total).2 then some plan.preferredNumber else committed.finalizedNumber
      settledFrontiers := rewindFrontiers committed.settledFrontiers plan.ancestorNumber }
    (plan.newChain.map (settlements M))
  have htip : (plan.newChain.getLast?.getD ancestor).number = plan.preferredNumber :=
    (congrArg (fun n => n.head.number) hframe).symm.trans hhead
  refine ⟨hhead, ?_, ?_, ?_, ?_, ?_, congrArg ChainNode.finality hframe, ?_, ?_⟩
  · rw [← hblocks]
    exact forall_mem_map.mpr fun r hr => (hsettles r hr).2
  · rw [hsettled, chainKeys, flatMap_map]
    change committed.settledSources ∪ _ = _
    rw [hcommitted, hnode]
    rfl
  · intro n
    exact (congrArg (fun x => x.canonical n) hframe).trans (hcanonical' n)
  · refine (congrArg blocks hframe).trans ?_
    change committed.blocks = _
    rw [hcommitted, hnode]
  · refine (congrArg storedArtifact hframe).trans ?_
    change committed.storedArtifact = _
    rw [hcommitted, hnode]
  · refine (congrArg ChainNode.finalizedNumber hframe).trans ?_
    simp only
    rw [hcommitted, hnode]
  · intro hok
    refine hrecorded ?_ ⟨?_, ?_⟩
    · intro n hash hhash
      change (committed.cutCanonical plan.preferredNumber).canonical n = some hash at hhash
      change n ≤ (plan.newChain.getLast?.getD ancestor).number
      by_contra hgt
      simp only [cutCanonical, if_neg (show ¬ n ≤ plan.preferredNumber by omega)] at hhash
      cases hhash
    · intro layer frontier hfrontier n hn hash hhash
      change rewindFrontiers committed.settledFrontiers plan.ancestorNumber layer = some frontier at hfrontier
      change (committed.cutCanonical plan.preferredNumber).canonical n = some hash at hhash
      obtain ⟨old, hold, rfl⟩ := Option.map_eq_some_iff.mp hfrontier
      rw [hfrontiers] at hold
      rw [hcanonical' n, if_pos (by omega)] at hhash
      refine (hok.sound layer old hold n (by omega) hash hhash).trans (SettlementView.settledLayer_mono ?_ hash)
      change node.settledSources ⊆ committed.settledSources
      rw [hcommitted, hnode]
    · intro layer frontier hfrontier
      change rewindFrontiers committed.settledFrontiers plan.ancestorNumber layer = some frontier at hfrontier
      change frontier ≤ (plan.newChain.getLast?.getD ancestor).number + 1
      obtain ⟨old, -, rfl⟩ := Option.map_eq_some_iff.mp hfrontier
      have := hplan.preferred
      omega

/-! ## The node after a recovery -/

/-- The node that a recovery leaves when it goes back to the finalized block. -/
structure RecoveredHead (M : Machine σ ρ) (node next : ChainNode σ ρ) (finalized : Nat) : Prop where
  lt : finalized < node.head.number
  head : next.head.number = finalized
  next_eq : ∃ head state forkChoice, next = { node.cutCanonical finalized with
    head := head, state := state, forkChoice := forkChoice,
    settledFrontiers := rewindFrontiers node.settledFrontiers finalized }

theorem recoveredHead_of_ok {restored : ForkChoice} (hfinalized : node.finalizedNumber = some finalized)
    (hlt : ¬ node.head.number ≤ finalized) (h : recoverUnfinalizedHead M node restored = .ok next) :
    RecoveredHead M node next finalized := by
  simp only [recoverUnfinalizedHead, hfinalized, if_neg hlt] at h
  split at h
  · cases h
  split at h
  · cases h
  simp only [bind_ok_iff, ensure_ok_iff, pure_ok_iff, decide_eq_true_eq] at h
  obtain ⟨_, hblock, _, -, _, -, _, -, rfl⟩ := h
  exact ⟨Nat.lt_of_not_le hlt, hblock.1, _, _, _, rfl⟩

/-! ## Frontiers of the next node -/

/-- A block on top of the head, with its settlements recorded, leaves the frontiers sound. -/
theorem FrontiersOk.commitCanonical {processed : Processed σ ρ} (hok : FrontiersOk M node) (hbelow : node.CanonicalBelow)
    (hnumber : block.number = node.head.number + 1) (settlements : List ProofAmendment) :
    FrontiersOk M ((node.commitCanonical M.toCtx block processed).recordSettledSources settlements) := by
  refine FrontiersOk.recordSettledSources ⟨?_, ?_⟩ ?_ _
  · intro layer frontier hfrontier n hn hash hhash
    have hle := hok.below layer frontier hfrontier
    refine hok.sound layer frontier hfrontier n hn hash ?_
    change Function.update node.canonical block.number _ n = some hash at hhash
    rwa [Function.update_of_ne (by omega)] at hhash
  · intro layer frontier hfrontier
    have hle := hok.below layer frontier hfrontier
    change frontier ≤ block.number + 1
    omega
  · intro n hash hhash
    change n ≤ block.number
    rcases Function.update_eq_some.mp hhash with ⟨rfl, -⟩ | ⟨-, hhash⟩
    · exact le_rfl
    · have := hbelow n hash hhash
      omega

theorem CommittedNext.frontiers (h : CommittedNext M node next block) (hbelow : node.CanonicalBelow)
    (hok : FrontiersOk M node) : FrontiersOk M next := by
  have hnumber := h.number
  obtain ⟨authorities, processed, rfl⟩ := h.next_eq
  have hnoted : FrontiersOk M { node with knownAuthorities := authorities } := ⟨hok.sound, hok.below⟩
  exact hnoted.commitCanonical hbelow hnumber _

theorem RecoveredHead.frontiers (h : RecoveredHead M node next finalized) (hok : FrontiersOk M node) :
    FrontiersOk M next := by
  have hhead := h.head
  obtain ⟨head, state, forkChoice, rfl⟩ := h.next_eq
  refine ⟨?_, ?_⟩
  · intro layer frontier hfrontier n hn hash hhash
    obtain ⟨old, hold, rfl⟩ := Option.map_eq_some_iff.mp hfrontier
    refine hok.sound layer old hold n (by omega) hash ?_
    change (if n ≤ finalized then node.canonical n else none) = some hash at hhash
    split_ifs at hhash
    exact hhash
  · intro layer frontier hfrontier
    obtain ⟨old, -, rfl⟩ := Option.map_eq_some_iff.mp hfrontier
    change min old (finalized + 1) ≤ head.number + 1
    change head.number = finalized at hhead
    omega

end ShellChain
