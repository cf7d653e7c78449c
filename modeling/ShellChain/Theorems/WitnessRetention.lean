import ShellChain.Lemmas.Witnesses
import ShellChain.SampleSettlements

/-!
# Witnesses and final settlements

The retention pruner consults the settled sources, which know neither the height of a settlement nor whether its block is
still canonical. So it can take a bundle for a settlement that is not final, or no longer on the chain.
-/

namespace ShellChain

open RetainingNode

variable {σ ρ : Type} {M : Machine σ ρ}

/-! ## Runs -/

/-- The finalized height does not fall or pass the head, no branch is adopted from below it, and there is no recovery. -/
def FinalityAdvances (M : Machine σ ρ) (r : RetainingNode σ ρ) : NodeInput → Prop
  | .adoptFork _ _ => ∀ plan, preferredForkPlan M.toCtx r.node = .ok (some plan) →
      r.finalizedHeight ≤ plan.ancestorNumber
  | .recover _ => False
  | .consensus _ _ finality finalizedNumber =>
      r.finalizedHeight ≤ max (finalizedNumber.getD 0) finality.lastFinalizedNumber ∧
        max (finalizedNumber.getD 0) finality.lastFinalizedNumber ≤ r.node.head.number
  | _ => True

/-- No settlement of the first layer is reverted, and while one is not final it covers no block behind the witness window.
An adoption that finalizes its tip makes every settlement of the chain final. -/
def SettlesInTime (M : Machine σ ρ) (r : RetainingNode σ ρ) : NodeInput → Prop
  | .produce _ _ _ pending _ => LateCoversRecent M r.pruning r.finalizedHeight r.chain ∧
      CoversRecent M.toCtx r.pruning r.finalizedHeight r.chain pending
  | .importBlock _ block _ _ => block.number = r.node.head.number + 1 →
      LateCoversRecent M r.pruning r.finalizedHeight r.chain ∧
        CoversRecent M.toCtx r.pruning r.finalizedHeight r.chain (block.settlements M)
  | .adoptFork _ _ => ∀ plan, preferredForkPlan M.toCtx r.node = .ok (some plan) →
      (∀ block ∈ r.chain.drop (plan.ancestorNumber + 1), ∀ a ∈ block.settlements M, a.layer ≠ 1) ∧
        (r.node.finality.canFinalizeWeighted plan.preferredHash plan.preferredNumber
            r.node.engine.validatorWeights.total = true ∨
          LateCoversRecent M r.pruning r.finalizedHeight (r.chain.take (plan.ancestorNumber + 1) ++ plan.newChain))
  | _ => True

variable {block : Block} {r s : RetainingNode σ ρ} {next : ChainNode σ ρ} {trie finalized : Nat}

/-! ## The step -/

/-- The invariant after a step, and what a bundle that the step deletes is settled by. -/
def KeepsWitnesses (M : Machine σ ρ) (r s : RetainingNode σ ρ) : Prop :=
  Retains M s ∧ ∀ hash, (r.bundles hash).isSome = true → s.bundles hash = none →
    SettledUpTo M s.chain s.finalizedHeight hash

/-- The pruning after a commit, when what it deletes has final settlements. -/
theorem keepsWitnesses_of_prunes {staged : RetainingNode σ ρ} {B : ShellHash → Prop} (hstaged : Retains M staged)
    (hbundles : ∀ hash, (r.bundles hash).isSome = true → (staged.bundles hash).isSome = true)
    (hp : Prunes staged.WitnessDue B staged s)
    (hdue : ∀ hash, staged.WitnessDue hash → SettledUpTo M staged.chain staged.finalizedHeight hash) :
    KeepsWitnesses M r s := by
  refine ⟨hstaged.of_prunes hp hdue, fun hash hsome hnone => ?_⟩
  rw [hp.chain, hp.finalizedHeight]
  rcases hp.bundles hash with heq | ⟨-, hwhy⟩
  · have hkept := hbundles hash hsome
    rw [← heq, hnone] at hkept
    cases hkept
  · exact hdue hash hwhy

theorem keepsWitnesses_extend (h : Retains M r) (hnext : CommittedNext M r.node next block)
    (hchain : LateCoversRecent M r.pruning r.finalizedHeight r.chain)
    (hblock : CoversRecent M.toCtx r.pruning r.finalizedHeight r.chain (block.settlements M)) :
    KeepsWitnesses M r (r.extend M next block trie) := by
  have hstaged := h.staged hnext
  have hheight : (r.staged M next block).finalizedHeight = r.finalizedHeight := by
    rw [staged_eq]
    obtain ⟨authorities, processed, rfl⟩ := hnext.next_eq
    rfl
  refine keepsWitnesses_of_prunes hstaged ?_ (prunes_extend ..) fun hash => hstaged.settledUpTo_of_witnessDue ?_
  · intro hash hsome
    rw [staged_eq]
    exact isSome_bundles_putBlock r block (.inl hsome)
  · rw [hheight, staged_eq]
    -- what covers recent blocks of the chain does so with one more block, which is above the finalized one
    have hextend : ∀ amendments, CoversRecent M.toCtx r.pruning r.finalizedHeight r.chain amendments →
        CoversRecent M.toCtx r.pruning r.finalizedHeight (r.chain ++ [block]) amendments := by
      intro amendments hcovers
      rcases hcovers with harchive | hcovers
      · exact .inl harchive
      · refine .inr fun a ha hlayer n covered hn hh => ?_
        rw [List.getElem?_append] at hn
        split_ifs at hn with hlt
        · exact hcovers a ha hlayer n covered hn hh
        · have hlength := h.tracks.length
          have hfinalized := h.finalized_le
          have hcutoff : retentionCutoff r.finalizedHeight r.pruning.witnessRetention ≤ r.finalizedHeight := Nat.sub_le _ _
          omega
    intro b hb hlate
    rcases List.mem_append.mp hb with hb | hb
    · exact hextend _ (hchain b hb hlate)
    · rw [List.mem_singleton.mp hb]
      exact hextend _ hblock

theorem keepsWitnesses_switch {plan : ForkAdoptionPlan} {reverted : List (List ProofAmendment)} (h : Retains M r)
    (hfacts : PlanFacts M.toCtx r.node plan) (hnext : AdoptedFork M r.node next plan)
    (hcross : r.finalizedHeight ≤ plan.ancestorNumber)
    (hdrop : ∀ block ∈ r.chain.drop (plan.ancestorNumber + 1), ∀ a ∈ block.settlements M, a.layer ≠ 1)
    (hlate : r.node.finality.canFinalizeWeighted plan.preferredHash plan.preferredNumber r.node.engine.validatorWeights.total
      = true ∨ LateCoversRecent M r.pruning r.finalizedHeight (r.chain.take (plan.ancestorNumber + 1) ++ plan.newChain)) :
    KeepsWitnesses M r (r.switchBranch M next plan reverted trie) := by
  have hstaged : Retains M (r.stagedSwitch M next plan reverted) := h.stagedSwitch hfacts hnext hcross hdrop
  have hheight := finalizedHeight_of_adopted hnext
  refine keepsWitnesses_of_prunes hstaged ?_ (prunes_switchBranch ..) fun hash => hstaged.settledUpTo_of_witnessDue ?_
  · intro hash hsome
    rw [stagedSwitch_eq]
    exact hsome
  · intro block hblock hlt
    have hle := hstaged.tracks.number_le hblock
    rw [stagedSwitch_eq] at hblock hlt hle ⊢
    change max (next.finalizedNumber.getD 0) next.finality.lastFinalizedNumber < block.number at hlt
    change block.number ≤ next.head.number at hle
    change CoversRecent M.toCtx r.pruning (max (next.finalizedNumber.getD 0) next.finality.lastFinalizedNumber) _ _
    rw [hnext.head] at hle
    rw [hheight] at hlt ⊢
    split_ifs at hlt ⊢ with hfinal
    · omega
    · rcases hlate with hfinal' | hlate
      · exact absurd hfinal' hfinal
      · exact hlate block hblock hlt

theorem RetainingNode.Retains.moves {input : NodeInput} (h : Retains M r) (hfinality : FinalityAdvances M r input)
    (hsettles : SettlesInTime M r input) (hmoves : Moves M r input s) : KeepsWitnesses M r s := by
  -- an input that deletes no bundle
  have hkeeps : ∀ {s : RetainingNode σ ρ}, Retains M s →
      (∀ hash, (r.bundles hash).isSome = true → (s.bundles hash).isSome = true) → KeepsWitnesses M r s := by
    intro s hs hbundles
    refine ⟨hs, fun hash hsome hnone => ?_⟩
    have := hbundles hash hsome
    rw [hnone] at this
    cases this
  have htracks := h.tracks.moves hmoves
  cases hmoves with
  | stay => exact hkeeps h fun _ hsome => hsome
  | store _ =>
    rename_i block _ _ _
    have hbundle : ∀ hash, (r.bundles hash).isSome = true ∨ SettledUpTo M r.chain r.finalizedHeight hash →
        ((r.putBlock M.toCtx block).bundles hash).isSome = true ∨ SettledUpTo M r.chain r.finalizedHeight hash :=
      fun hash hkept => hkept.imp_left fun hsome => isSome_bundles_putBlock r block (.inl hsome)
    refine hkeeps ⟨htracks, h.finalized_le, h.settled,
      h.grace, fun b hb htxs => hbundle _ (h.chain b hb htxs), fun hash b hstored htxs => ?_⟩
      fun hash hsome => isSome_bundles_putBlock r block (.inl hsome)
    rcases Function.update_eq_some.mp hstored with ⟨rfl, rfl⟩ | ⟨-, hstored⟩
    · exact .inl (isSome_bundles_putBlock r block (.inr ⟨rfl, htxs⟩))
    · exact hbundle hash (h.stored hash b hstored htxs)
  | extend hbrings hnext =>
    rename_i next block trie
    have hcovers : LateCoversRecent M r.pruning r.finalizedHeight r.chain ∧
        CoversRecent M.toCtx r.pruning r.finalizedHeight r.chain (block.settlements M) := by
      cases input with
      | produce timestamp maxTxs candidates pending trie =>
        exact ⟨hsettles.1, hsettles.2.imp_right fun hrecent a ha => hrecent a (hbrings a ha)⟩
      | importBlock now imported finalizedImport trie =>
        obtain rfl : imported = block := hbrings
        exact hsettles hnext.number
      | adoptFork | recover | consensus => exact hbrings.elim
    exact keepsWitnesses_extend h hnext hcovers.1 hcovers.2
  | adopt hplan hfacts hnext =>
    obtain ⟨hdrop, hlate⟩ := hsettles _ hplan
    exact keepsWitnesses_switch h hfacts hnext (hfinality _ hplan) hdrop hlate
  | recover => exact hfinality.elim
  | consensus =>
    rename_i engine forkChoice finality finalizedNumber
    obtain ⟨hgrows, hle⟩ := hfinality
    have hbundle : ∀ hash, (r.bundles hash).isSome = true ∨ SettledUpTo M r.chain r.finalizedHeight hash →
        (r.bundles hash).isSome = true ∨
          SettledUpTo M r.chain (max (finalizedNumber.getD 0) finality.lastFinalizedNumber) hash :=
      fun hash hkept => hkept.imp_right fun hfinal => hfinal.mono (fun _ hb => hb) hgrows
    exact hkeeps ⟨htracks, hle, h.settled, h.grace,
      fun b hb htxs => hbundle _ (h.chain b hb htxs), fun hash b hstored htxs => hbundle _ (h.stored hash b hstored htxs)⟩
      fun _ hsome => hsome

/-- In every run whose steps meet the conditions a bundle that a step deletes has a final settlement of the first layer,
and every canonical block with transactions has its bundle or a final settlement. -/
theorem deleted_bundle_settled (hcodec : PayloadCodec M) {sign : Bytes → PQSignature} {pubkey : Bytes}
    {r : RetainingNode σ ρ} (hstart : Retains M r) {inputs : List NodeInput} {input : NodeInput}
    (hinputs : (retentionSystem M sign pubkey).Admits (fun s i => FinalityAdvances M s i ∧ SettlesInTime M s i) r
      (inputs ++ [input])) :
    let s := (retentionSystem M sign pubkey).run r inputs
    let s' := (retentionSystem M sign pubkey).step s input
    (∀ hash, (s.bundles hash).isSome = true → s'.bundles hash = none →
        SettledUpTo M s'.chain s'.finalizedHeight hash) ∧
      ∀ block ∈ s'.chain, block.transactions ≠ [] → (s'.bundles (block.hash M.toCtx)).isSome = true ∨
        SettledUpTo M s'.chain s'.finalizedHeight (block.hash M.toCtx) := by
  obtain ⟨hrun, hlast, -⟩ := TransitionSystem.admits_append.mp hinputs
  have hs := TransitionSystem.invariant_run (fun s i hs hcondition =>
    (hs.moves hcondition.1 hcondition.2 (moves_step hcodec sign pubkey s i)).1) hstart hrun
  obtain ⟨hs', hdeleted⟩ := hs.moves hlast.1 hlast.2 (moves_step hcodec sign pubkey _ input)
  exact ⟨hdeleted, hs'.chain⟩

theorem coversRecent_of_cutoff_eq_zero {Γ : Ctx} {pruning : PruningConfig}
    (h : retentionCutoff finalized pruning.witnessRetention = 0) (chain : List Block) (amendments : List ProofAmendment) :
    CoversRecent Γ pruning finalized chain amendments :=
  .inr fun _ _ _ n _ _ _ => by rw [h]; exact Nat.zero_le n

/-! ## Bundles on a concrete chain -/

instance (chain : List Block) (height : Nat) (h : ShellHash) : Decidable (SettledUpTo M chain height h) := by
  unfold SettledUpTo
  infer_instance

theorem find?_of_nodup_map {α β : Type} [DecidableEq β] {f : α → β} {l : List α} {a : α} (h : (l.map f).Nodup) (ha : a ∈ l) :
    l.find? (fun x => f x = f a) = some a := by
  induction l with
  | nil => cases ha
  | cons x rest ih =>
    rw [List.map_cons, List.nodup_cons] at h
    rcases List.mem_cons.mp ha with rfl | ha
    · simp
    · have hne : f x ≠ f a := fun heq => h.1 (heq ▸ List.mem_map_of_mem ha)
      rw [List.find?_cons_of_neg (by simpa using hne), ih h.2 ha]

namespace WitnessRuns

open ByteCodec

/-! ### A chain with 512 transfers

The node settles blocks with transactions only in batches of at least 512 signatures, and a block holds at most 500
transactions. So the chain starts with two blocks of 256 transfers each, which one proof covers. -/

/-- The transactions, which nothing here tells apart, have one digest. Every other digest depends on every byte. -/
def batchDigest : Bytes → ShellHash
  | 0x50 :: _ => .repeatByte 0x50
  | bytes => chainDigest bytes

/-- The context of the chain, where the last byte of a message may be signed in its place. -/
def batchCtx : Ctx :=
  { chainCtx with
    blake3 := batchDigest
    verify := fun pubkey message sig =>
      some (decide (sig.data = sampleSign pubkey message ∨ sig.data = sampleSign pubkey (message.drop 31))) }

abbrev hash : Block → ShellHash :=
  Block.hash batchCtx

/-- A transfer of five units with the signature of its digest. -/
def transfer (nonce : Nat) : SignedTransaction :=
  ⟨chainAddress senderKey, ⟨1337, nonce, some (.repeatByte 9), 5, [], 21000, 2000, 0, none, 2, none, none⟩,
    ⟨.mlDsa65, sampleSign senderKey [0x50]⟩, .reference, none⟩

/-- The world after a number of transfers, with what they have paid to the proposer. -/
def worldAfter (transfers fees : Nat) : SampleWorld :=
  if transfers = 0 then ⟨[.funded (chainAddress senderKey) 1000000000000], none⟩
  else ⟨[⟨chainAddress senderKey, transfers, 1000000000000 - transfers * 5 - fees, ⟨.zero, none⟩⟩,
    .funded (.repeatByte 9) (transfers * 5), .funded validatorAddress fees], none⟩

def genesis : Block :=
  genesisBlock (worldAfter 0 0)

/-- The block with the next 256 transfers, which pay the base fee. -/
def batchBlock (parent : Block) (timestamp first paid : Nat) : Block :=
  let hdr := preliminaryHeader batchCtx parent (parent.number + 1) timestamp validatorAddress
  let fees := 256 * 21000 * hdr.baseFeePerGas
  sealSample ⟨{ hdr with
      gasUsed := 256 * 21000, stateRoot := sampleMachine.stateRoot (worldAfter (first + 256) (paid + fees)) },
    (List.range' first 256).map transfer,
    [.blockGasReward 1337 hdr.number 256 validatorAddress fees (hash parent)], none⟩

/-- Block 1, at a base fee of 875. -/
def firstBatch : Block :=
  batchBlock genesis 1010 0 0

/-- Block 2, at a base fee of 805. -/
def secondBatch : Block :=
  batchBlock firstBatch 1020 256 (256 * 21000 * 875)

def chain : List Block :=
  [genesis, firstBatch, secondBatch]

def blockOf (h : ShellHash) : Option Block :=
  chain.find? fun block => hash block = h

def batchRoot : Bytes :=
  [170, 97, 59, 221, 189, 64, 77, 140, 101, 238, 182, 48, 111, 210, 123, 91, 170, 97, 59, 221, 189, 64, 77, 140, 101, 238, 182,
    48, 111, 210, 123, 91]

/-- The proof of the three blocks without its signature. The bundles of the two batches have 1795 bytes each. -/
def unsignedSettlement : ProofAmendment :=
  ⟨1, hash secondBatch, 2, none, ⟨sigBatchProofVersion, batchRoot, rfl, 512, [1]⟩, chainAddress proverKey, [], 1,
    chain.map hash, some (2 * 1795), some 497⟩

/-- The settlement of the three blocks. -/
def settlement : ProofAmendment :=
  { unsignedSettlement with
    proverSignature := [1, SignatureType.mlDsa65.asU8, 0, 1] ++ proverKey ++
      sampleSign proverKey (unsignedSettlement.signingMessage batchCtx) }

/-- The machine that takes one byte for a proof, and one byte for the text of the settlement. -/
def batchCodec : Machine SampleWorld Unit :=
  { sampleMachine with
    toCtx := batchCtx
    verifySigBatch := fun proof => proof.proofBytes = [1]
    amendmentToJson := fun a => if a = settlement then some [1] else none
    amendmentFromJson := fun payload => if payload = [1] then some settlement else none }

/-- The machine of the chain, which binds a settlement to its sources as the node does. -/
def batchMachine : Machine SampleWorld Unit :=
  { batchCodec with proofSourceBinding := sampleSourceBinding batchCodec }

/-- The validator of the chain. -/
abbrev batchSystem : TransitionSystem (RetainingNode SampleWorld Unit) NodeInput :=
  retentionSystem batchMachine validatorSign validatorKey

theorem payloadCodec_batchMachine : PayloadCodec batchMachine := by
  intro a payload h
  change (if a = settlement then some [1] else none) = some payload at h
  split_ifs at h with heq
  rw [← Option.some.inj h, heq]
  rfl

/-- The store of a node with the chain. Bundles are kept for one block, and there is no grace queue. -/
def store : RetainingNode SampleWorld Unit where
  node := { genesisNode (worldAfter 0 0) senderKeys with
    head := secondBatch
    blocks := blockOf
    canonical := fun n => chain[n]?.map hash
    state := ⟨worldAfter 512 (256 * 21000 * 1680), senderKeys, (),
      .fromAllowlist⟩ }
  pruning := ⟨0, 1, 0, u64Max⟩
  headers h := (blockOf h).map Block.header
  bundles h := (blockOf h).bind fun block =>
    if block.transactions = [] then none else some (StrippedBlock.split block).2
  graceDeletes := ∅
  witnessPrunedBelow := 0
  bodyPrunedBelow := 0
  statePruner := ⟨0, none, 0, 0⟩
  chain := chain

theorem chain_spec :
    (chain.map hash).Nodup ∧ chain.map Block.number = List.range 3 ∧ (∀ block ∈ chain, block.header.extraData = []) ∧
      ∀ block ∈ chain, block.settlements batchMachine = [] := by
  decide +kernel

theorem blockOf_hash {block : Block} (hblock : block ∈ chain) : blockOf (hash block) = some block := by
  unfold blockOf
  exact find?_of_nodup_map chain_spec.1 hblock

theorem blocks_store : store.node.blocks = blockOf := rfl

theorem blocks_store_hash {block : Block} (hblock : block ∈ chain) :
    store.node.blocks (block.hash batchMachine.toCtx) = some block := by
  rw [blocks_store]
  exact blockOf_hash hblock

theorem number_chain {n : Nat} {block : Block} (h : chain[n]? = some block) : block.number = n := by
  have hget : (List.range 3)[n]? = some block.number := by
    rw [← chain_spec.2.1, List.getElem?_map, h]
    rfl
  have hn : n < 3 := (List.getElem?_eq_some_iff.mp h).1
  rw [List.getElem?_range hn] at hget
  exact (Option.some.inj hget).symm

theorem tracks_store : Tracks batchMachine.toCtx store := by
  refine ⟨rfl, fun n block h => number_chain h, fun n h hcanonical => ?_, fun n h hcanonical => ?_⟩
  · exact Option.map_eq_some_iff.mp hcanonical
  · obtain ⟨block, hblock, rfl⟩ := Option.map_eq_some_iff.mp hcanonical
    exact .inr (Option.isSome_iff_exists.mpr ⟨block, blocks_store_hash (List.mem_of_getElem? hblock)⟩)

theorem faithful_store : Faithful batchMachine store := by
  refine ⟨fun block stored hblock hstored => ?_, fun block hblock => ?_⟩
  · obtain rfl := Option.some.inj (hstored.symm.trans (blocks_store_hash hblock))
    exact ⟨rfl, rfl⟩
  · rw [decodeSystemExtra, chain_spec.2.2.1 block hblock]
    rfl

theorem witnessStore_store : WitnessStore batchMachine store := by
  have hbundle : ∀ h block, blockOf h = some block → block.transactions ≠ [] → (store.bundles h).isSome = true := by
    intro h block hfound htxs
    change ((blockOf h).bind _).isSome = true
    rw [hfound, Option.bind_some, if_neg htxs]
    rfl
  refine ⟨tracks_store, faithful_store, Nat.zero_le _, fun block hblock a ha => ?_, ?_, fun _ => rfl,
    fun block hblock htxs => .inl (hbundle _ block (blockOf_hash hblock) htxs),
    fun h block hstored htxs => .inl (hbundle h block hstored htxs)⟩
  · rw [chain_spec.2.2.2 block hblock] at ha
    cases ha
  · intro block hblock
    exact (tracks_store.number_le hblock).trans (Nat.le_of_ble_eq_true rfl)

/-- The node that has started on the store. -/
def start : RetainingNode SampleWorld Unit :=
  (store.rebuild batchMachine).toOption.getD store

theorem retains_start : Retains batchMachine start := by
  obtain ⟨s, hs, -⟩ := rebuild_ok (r := store) tracks_store faithful_store
  rw [start, hs]
  exact retains_of_rebuild witnessStore_store hs

/-! ### A settlement that becomes final -/

/-- Block 3 settles the chain. -/
def settleInputs : List NodeInput :=
  [.produce 1030 500 [] [settlement] 0]

/-- Block 3 becomes final. -/
def finalInputs : List NodeInput :=
  settleInputs ++ [finalizeHead (batchSystem.run start settleInputs)]

/-- Block 4 is produced. -/
def nextInput : NodeInput :=
  .produce 1040 500 [] [] 0

/-- Nothing is old at first. Block 3 is the head and becomes final, the bundle of block 1 is there, and block 4 deletes it. -/
theorem run_finalInputs :
    retentionCutoff start.finalizedHeight start.pruning.witnessRetention = 0 ∧
      (batchSystem.run start settleInputs).finalizedHeight ≤ (batchSystem.run start settleInputs).node.head.number ∧
      (∀ number ∈ (batchSystem.run start finalInputs).chain.map Block.number,
        number ≤ (batchSystem.run start finalInputs).finalizedHeight) ∧
      ((batchSystem.run start finalInputs).bundles (hash firstBatch)).isSome = true ∧
      ((batchSystem.step (batchSystem.run start finalInputs) nextInput).bundles (hash firstBatch)).isNone = true := by
  decide +kernel

theorem finalityAdvances_finalizeHead {r : RetainingNode SampleWorld Unit} (h : r.finalizedHeight ≤ r.node.head.number) :
    FinalityAdvances batchMachine r (finalizeHead r) := by
  have hmax : max ((some r.node.head.number).getD 0)
      (r.node.finality.finalize (r.node.head.hash chainCtx) r.node.head.number).lastFinalizedNumber =
      r.node.head.number := Nat.max_self _
  exact ⟨h.trans_eq hmax.symm, hmax.le⟩

/-- The conditions hold when block 3 is produced and becomes final and block 4 is produced. -/
theorem admits_finalInputs :
    batchSystem.Admits (fun s i => FinalityAdvances batchMachine s i ∧ SettlesInTime batchMachine s i) start
      (finalInputs ++ [nextInput]) := by
  obtain ⟨hcutoff, hsettled, hfinal, -⟩ := run_finalInputs
  refine TransitionSystem.admits_append.mpr ⟨TransitionSystem.admits_append.mpr
    ⟨⟨⟨trivial, ?_⟩, trivial⟩, ⟨?_, trivial⟩, trivial⟩, ⟨trivial, ?_⟩, trivial⟩
  · exact ⟨fun _ _ _ => coversRecent_of_cutoff_eq_zero hcutoff _ _, coversRecent_of_cutoff_eq_zero hcutoff _ _⟩
  · exact finalityAdvances_finalizeHead hsettled
  · exact ⟨fun block hblock hlate => absurd hlate (Nat.not_lt.mpr (hfinal _ (List.mem_map_of_mem hblock))),
      .inr fun a ha => by cases ha⟩

/-- When block 4 is produced the bundle of block 1 goes, and block 3 has settled it for good. -/
theorem batch_bundle_deleted :
    ((batchSystem.run start finalInputs).bundles (hash firstBatch)).isSome = true ∧
      (batchSystem.step (batchSystem.run start finalInputs) nextInput).bundles (hash firstBatch) = none ∧
      SettledUpTo batchMachine (batchSystem.step (batchSystem.run start finalInputs) nextInput).chain
        (batchSystem.step (batchSystem.run start finalInputs) nextInput).finalizedHeight (hash firstBatch) := by
  obtain ⟨-, -, -, hsome, hnone⟩ := run_finalInputs
  rw [Option.isNone_iff_eq_none] at hnone
  have hdeleted := (deleted_bundle_settled payloadCodec_batchMachine retains_start admits_finalInputs).1
  unfold batchSystem at hsome hnone ⊢
  exact ⟨hsome, hnone, hdeleted _ hsome hnone⟩

end WitnessRuns

/-! ## A settlement that does not last -/

namespace DroppedWitnessCex

open WitnessRuns

/-- An empty block 3 is produced and becomes final. -/
def finalThree : RetainingNode SampleWorld Unit :=
  let three := batchSystem.run start [.produce 1030 500 [] [] 0]
  batchSystem.run three [finalizeHead three]

/-- Block 4 settles the blocks up to block 2 and is not final. -/
def earlySettled : RetainingNode SampleWorld Unit :=
  batchSystem.run finalThree [.produce 1040 500 [] [settlement] 0]

/-- An empty block 4 that the node could produce. -/
def emptyFour : Block :=
  (batchSystem.run finalThree [.produce 1041 500 [] [] 0]).node.head

/-- The empty block arrives, gets the quorum and is adopted in the place of the head. -/
def earlyReverted : RetainingNode SampleWorld Unit :=
  batchSystem.run earlySettled [.importBlock 1100 emptyFour false 0,
    .consensus sampleEngine (preferred 4 emptyFour.header.parentHash (hash earlySettled.node.head) (hash emptyFour))
      earlySettled.node.finality earlySettled.node.finalizedNumber, .adoptFork 1100 0]

/-- The bundle of block 1 goes when block 4 settles it above the finalized height 3; once block 4 is reverted, block 1 is
canonical with 256 transactions and has neither a bundle nor a settlement. -/
theorem bundle_dropped_unsettled :
    ((finalThree.bundles (hash firstBatch)).isSome = true ∧ (earlySettled.bundles (hash firstBatch)).isNone = true ∧
        (earlySettled.finalizedHeight, earlySettled.node.head.number) = (3, 4) ∧
        ¬ SettledUpTo batchMachine earlySettled.chain earlySettled.finalizedHeight (hash firstBatch) ∧
        SettledUpTo batchMachine earlySettled.chain earlySettled.node.head.number (hash firstBatch)) ∧
      (earlyReverted.chain.map hash)[1]? = some (hash firstBatch) ∧ firstBatch.transactions.length = 256 ∧
      earlyReverted.node.head = emptyFour ∧ (earlyReverted.bundles (hash firstBatch)).isNone = true ∧
      ¬ SettledUpTo batchMachine earlyReverted.chain earlyReverted.node.head.number (hash firstBatch) := by
  decide +kernel

end DroppedWitnessCex

end ShellChain
