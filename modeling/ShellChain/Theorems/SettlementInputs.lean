import ShellChain.Lemmas.PrunedVerdicts
import ShellChain.SampleSettlements

/-!
# Settlement inputs under different retention

The body pruner does not ask what is settled. So two nodes with the same chain can disagree on a settlement when one of them
has lost the body of a block that it covers.
-/

namespace ShellChain

open RetainingNode

variable {σ ρ : Type} {M : Machine σ ρ}

theorem RetainingNode.KeepsSources.run (hcodec : PayloadCodec M) (hlayers : BindsLayers M) {sign : Bytes → PQSignature}
    {pubkey : Bytes} {r : RetainingNode σ ρ} (h : KeepsSources M r) {inputs : List NodeInput}
    (hinputs : (retentionSystem M sign pubkey).Admits (KeepsSettled M) r inputs)
    (hdistinct : DistinctHashes M.toCtx ((retentionSystem M sign pubkey).run r inputs).chain) :
    KeepsSources M ((retentionSystem M sign pubkey).run r inputs) :=
  TransitionSystem.invariant_run (I := fun s => DistinctHashes M.toCtx s.chain → KeepsSources M s)
    (fun s i hs hi hd =>
      have hmoves := moves_step hcodec sign pubkey s i
      (hs (distinctHashes_of_moves hi.2 hmoves hd)).moves hlayers hi.1 hi.2 hmoves hd) (fun _ => h) hinputs hdistinct

/-- In every run of imports in which the blocks behind the body window are settled at the first layer, every canonical
block that is not settled has its body and its bundle, and two such nodes with the same chain give a settlement of unsettled
blocks the same verdict and the same reward. Two nodes that differ only in what they retain and import the same blocks on
their heads accept the same of them, when they also keep what import reads by height. -/
theorem settlement_inputs_retained (hcodec : PayloadCodec M) (hbinds : BindsSources M)
    {sign sign' : Bytes → PQSignature} {pubkey pubkey' : Bytes} {r r' : RetainingNode σ ρ} (hstart : KeepsSources M r)
    (hstart' : KeepsSources M r') {inputs inputs' : List NodeInput}
    (hinputs : (retentionSystem M sign pubkey).Admits (KeepsSettled M) r inputs)
    (hinputs' : (retentionSystem M sign' pubkey').Admits (KeepsSettled M) r' inputs')
    (hdistinct : DistinctHashes M.toCtx ((retentionSystem M sign pubkey).run r inputs).chain) :
    let s := (retentionSystem M sign pubkey).run r inputs
    let s' := (retentionSystem M sign' pubkey').run r' inputs'
    (∀ block ∈ s.chain, (1, block.hash M.toCtx) ∉ s.node.settledSources → s.HoldsSource M.toCtx block) ∧
      (s'.chain = s.chain → ∀ a : ProofAmendment, s.CoversUnsettled M.toCtx a →
        s'.validateL1ProofSourceBinding M a = s.validateL1ProofSourceBinding M a ∧
          (s'.node.settlementView M).starkRewardValue a = (s.node.settlementView M).starkRewardValue a) ∧
      (ReadsRecentHashes M → KeepsReads M r → KeepsReads M r' → SameLive r r' → List.Forall₂ SameInput inputs inputs' →
        (retentionSystem M sign pubkey).Admits (ImportsNext M) r inputs →
        (retentionSystem M sign pubkey).Admits (KeepsInputs M) r inputs →
        (retentionSystem M sign' pubkey').Admits (KeepsInputs M) r' inputs' →
        SameLive s s' ∧ ∀ (now : Nat) (block : Block) (finalizedImport : Bool), s.node.head.Extends M.toCtx block →
          ((∃ next, importBlockInner M now s.node block finalizedImport = .ok next) ↔
            ∃ next, importBlockInner M now s'.node block finalizedImport = .ok next)) := by
  intro s s'
  have hs : KeepsSources M s := hstart.run hcodec hbinds.bindsLayers hinputs hdistinct
  refine ⟨hs.sources, ?_, ?_⟩
  · intro hchain a ha
    have hs' : KeepsSources M s' := hstart'.run hcodec hbinds.bindsLayers hinputs' (hchain ▸ hdistinct)
    exact ⟨hs.validateL1_eq hs' hchain ha, hs.starkRewardValue_eq hs' hchain fun _ => ha⟩
  · intro hreads hr hr' hlive hsame hnext hkeeps hkeeps'
    have hagree : Agree M s s' := Agree.run hcodec hbinds hreads hsame (fun _ => ⟨hstart, hstart', hr, hr', hlive⟩) hnext
      (TransitionSystem.admits_and.mpr ⟨hinputs, hkeeps⟩) (TransitionSystem.admits_and.mpr ⟨hinputs', hkeeps'⟩) hdistinct
    -- what one of two such nodes accepts the other one accepts
    have haccepts : ∀ {t u : RetainingNode σ ρ}, Agree M t u → ∀ {now : Nat} {block : Block} {finalizedImport : Bool},
        t.node.head.Extends M.toCtx block → (∃ next, importBlockInner M now t.node block finalizedImport = .ok next) →
        ∃ next, importBlockInner M now u.node block finalizedImport = .ok next := by
      rintro t u h now block finalizedImport hblock ⟨next, hok⟩
      obtain ⟨_, _, -, hother, -⟩ := h.importBlockInner_ok hbinds hreads hblock hok
      exact ⟨_, hother⟩
    exact ⟨hagree.live, fun now block finalizedImport hblock => ⟨haccepts hagree hblock,
      haccepts hagree.symm (hagree.head.symm ▸ hblock)⟩⟩

/-! ## Deciding the conditions -/

section

variable (r : RetainingNode σ ρ)

instance (n : Nat) : Decidable (r.Behind n) :=
  inferInstanceAs (Decidable (_ ∧ _))

instance decidableKeepsChain : ∀ input, Decidable (KeepsChain M r input)
  | .produce _ _ _ _ _ => .isTrue trivial
  | .importBlock _ imported _ _ => inferInstanceAs (Decidable (∀ block ∈ r.chain,
      imported.hash M.toCtx = block.hash M.toCtx → imported.number = block.number))
  | .consensus _ _ _ _ => inferInstanceAs (Decidable (_ ∧ _))
  | .adoptFork _ _ => .isFalse id
  | .recover _ => .isFalse id

theorem importsSettled_iff (layer : Nat) (block : Block) : (∀ entry ∈ (r.chain ++ [block]).zipIdx, r.Behind entry.2 →
      (layer, entry.1.hash M.toCtx) ∈ chainKeys M (r.chain ++ [block])) ↔
    ∀ (n : Nat) (covered : Block), (r.chain ++ [block])[n]? = some covered → r.Behind n →
      (layer, covered.hash M.toCtx) ∈ chainKeys M (r.chain ++ [block]) := by
  constructor
  · intro h n covered hcovered
    exact h (covered, n) (List.mem_zipIdx_iff_getElem?.mpr hcovered)
  · rintro h ⟨covered, n⟩ hentry
    exact h n covered (List.mem_zipIdx_iff_getElem?.mp hentry)

theorem lawfulBEq_source : LawfulBEq (Nat × ShellHash) :=
  inferInstance

instance decidableImportsSettled (layer : Nat) : ∀ input, Decidable (ImportsSettled M layer r input)
  | .importBlock _ block _ _ =>
    haveI := lawfulBEq_source
    haveI := decidable_of_iff _ (importsSettled_iff (M := M) r layer block)
    inferInstanceAs (Decidable (block.number = r.node.head.number + 1 → _))
  | .consensus _ _ _ _ => .isTrue trivial
  | .produce _ _ _ _ _ => .isFalse id
  | .adoptFork _ _ => .isFalse id
  | .recover _ => .isFalse id

instance (input : NodeInput) : Decidable (KeepsSettled M r input) :=
  inferInstanceAs (Decidable (_ ∧ _))

theorem keepsRecent_iff (number : Nat) :
    (r.pruning.bodyRetention ≠ 0 → ∀ n < retentionCutoff r.finalizedHeight r.pruning.bodyRetention,
      n + blockHashWindow ≤ number) ↔ ∀ n, r.Behind n → n + blockHashWindow ≤ number :=
  ⟨fun h n hn => h hn.1 n hn.2, fun h hretention n hn => h n ⟨hretention, hn⟩⟩

instance decidableKeepsRecent : ∀ input, Decidable (r.KeepsRecent input)
  | .importBlock _ block _ _ => decidable_of_iff _ (keepsRecent_iff r block.number)
  | .consensus _ _ _ _ => .isTrue trivial
  | .produce _ _ _ _ _ => .isTrue trivial
  | .adoptFork _ _ => .isTrue trivial
  | .recover _ => .isTrue trivial

instance (input : NodeInput) : Decidable (KeepsInputs M r input) :=
  inferInstanceAs (Decidable (_ ∧ _))

instance decidableImportsNext : ∀ input, Decidable (ImportsNext M r input)
  | .importBlock _ block _ _ => inferInstanceAs (Decidable (r.node.head.Extends M.toCtx block))
  | .consensus _ _ _ _ => .isTrue trivial
  | .produce _ _ _ _ _ => .isTrue trivial
  | .adoptFork _ _ => .isTrue trivial
  | .recover _ => .isTrue trivial

instance (Γ : Ctx) (a : ProofAmendment) : Decidable (r.CoversUnsettled Γ a) :=
  inferInstanceAs (Decidable (∀ h ∈ a.coveredHashes, _))

end

/-! ## A machine that checks the sources -/

/-- The context in which only the hashes of the last 256 blocks are known. -/
def ExecContext.windowed (ctx : ExecContext) : ExecContext :=
  ctx.withChain ctx.headNumber fun n =>
    if n < ctx.env.number ∧ ctx.env.number ≤ n + blockHashWindow then ctx.blockHash n else none

/-- The machine with settlements whose executions know the hashes of the last blocks only. -/
def bindingMachine : Machine SampleWorld Unit :=
  { settlingMachine with execute := fun ctx => sampleExecute ctx.windowed }

theorem payloadCodec_bindingMachine : PayloadCodec bindingMachine :=
  payloadCodec_settlingMachine

theorem readsRecentHashes_bindingMachine : ReadsRecentHashes bindingMachine := by
  intro ctx blockHash hagree stx
  refine ⟨fun s index gas => ?_, fun _ _ => rfl, fun _ _ => rfl⟩
  have hwindow : (ctx.withChain ctx.headNumber blockHash).windowed = ctx.windowed := by
    refine congrArg (ctx.withChain ctx.headNumber) (funext fun n => ?_)
    change (if n < ctx.env.number ∧ ctx.env.number ≤ n + blockHashWindow then blockHash n else none) = _
    split_ifs with hn
    · exact hagree n hn.1 hn.2
    · rfl
  change sampleExecute (ctx.withChain ctx.headNumber blockHash).windowed s stx index gas = sampleExecute ctx.windowed s stx
    index gas
  rw [hwindow]

theorem bindsSources_bindingMachine : BindsSources bindingMachine := by
  refine ⟨?_, ?_, ?_⟩
  · intro blocks bundles a hlayer hsources
    have hcongr : canonicalL1Sources chainCtx blocks (storedBundle blocks) [] 0 a.coveredHashes =
        canonicalL1Sources chainCtx blocks bundles [] 0 a.coveredHashes := by
      refine canonicalL1Sources_congr (fun h hh => ?_) [] 0
      obtain ⟨block, hblock, hbundle⟩ := hsources h hh
      exact ⟨block, hblock, hblock, fun htxs => by rw [hbundle htxs, storedBundle, hblock]; rfl⟩
    have hsame : validateL1ProofSourceBinding sampleMachine blocks (storedBundle blocks) a =
        validateL1ProofSourceBinding bindingMachine blocks bundles a := by
      change (canonicalL1Sources chainCtx blocks (storedBundle blocks) [] 0 a.coveredHashes).bind _ =
        (canonicalL1Sources chainCtx blocks bundles [] 0 a.coveredHashes).bind _
      rw [hcongr]
      rfl
    change (if a.layer = 1 then (validateL1ProofSourceBinding sampleMachine blocks (storedBundle blocks) a).toBool
      else decide (a.layer = 2)) = _
    rw [if_pos hlayer, hsame]
  · intro blocks blocks' a hlayer
    change (if a.layer = 1 then _ else _) = (if a.layer = 1 then _ else _)
    rw [if_neg (by omega), if_neg (by omega)]
  · intro blocks a h
    have hle := layer_le_of_sampleSourceBinding h
    omega

/-! ## Two nodes on a concrete chain -/

namespace RetentionPairs

def world : SampleWorld :=
  ⟨[], none⟩

/-- A node at genesis that keeps bodies for some blocks, or for ever with zero, and all bundles. -/
def keeping (bodyRetention : Nat) : RetainingNode SampleWorld Unit :=
  genesisStore world (fun _ => none) ⟨0, 0, bodyRetention, u64Max⟩

/-- The validator on the machine that checks the sources. -/
abbrev bindingSystem : TransitionSystem (RetainingNode SampleWorld Unit) NodeInput :=
  retentionSystem bindingMachine validatorSign validatorKey

/-- The settlement of the genesis block. -/
def settlement : ProofAmendment :=
  sampleAmendment 1 0 ((genesisBlock world).hash chainCtx)

/-- The chain of an archive that produces a block for each list of settlements. -/
def authored (settlements : List (List ProofAmendment)) : List Block :=
  (bindingSystem.run (keeping 0)
    (settlements.zipIdx.map fun entry => .produce (1010 + 10 * entry.2) 500 [] entry.1 0)).chain

/-- The import of a block of a chain. -/
def importOf (chain : List Block) (n : Nat) : NodeInput :=
  .importBlock 1100 (chain.getD n (genesisBlock world)) false 0

/-- A block is imported, becomes final, and another one is imported. -/
def inputsOf (chain : List Block) : List NodeInput :=
  [importOf chain 1] ++ [finalizeHead (bindingSystem.run (keeping 0) [importOf chain 1]), importOf chain 2]

/-- A node after these inputs. -/
def after (bodyRetention : Nat) (chain : List Block) : RetainingNode SampleWorld Unit :=
  bindingSystem.run (keeping bodyRetention) (inputsOf chain)

theorem blocks_keeping (bodyRetention : Nat) :
    (keeping bodyRetention).node.blocks ((genesisBlock world).hash bindingMachine.toCtx) = some (genesisBlock world) := by
  rw [show bindingMachine.toCtx = chainCtx from rfl]
  exact blocks_genesisStore

theorem keepsSources_keeping (bodyRetention : Nat) : KeepsSources bindingMachine (keeping bodyRetention) := by
  have htracks : Tracks bindingMachine.toCtx (keeping bodyRetention) := tracks_genesisStore
  have hgenesis : ∀ block ∈ (keeping bodyRetention).chain, block = genesisBlock world := fun _ => List.mem_singleton.mp
  refine ⟨⟨⟨htracks, ⟨nofun, nofun⟩, rfl⟩, ?_, ?_, Nat.le_refl _, Nat.le_refl _, ?_⟩, nofun, nofun, ?_⟩
  · exact ⟨faithful_genesisStore.stored, faithful_genesisStore.extra⟩
  · intro n m block other key hn _ hkey
    obtain rfl := hgenesis block (List.mem_of_getElem? hn)
    cases hkey
  · intro n _ hn
    obtain rfl : n = 0 := Nat.le_zero.mp hn
    rfl
  · intro block hblock _
    obtain rfl := hgenesis block hblock
    exact ⟨blocks_keeping bodyRetention, fun htxs => absurd rfl htxs⟩

theorem keepsReads_keeping (bodyRetention : Nat) : KeepsReads bindingMachine (keeping bodyRetention) := by
  have hgenesis : ∀ n block, (keeping bodyRetention).chain[n]? = some block → n = 0 ∧ genesisBlock world = block := by
    intro n block h
    obtain ⟨hn, heq⟩ := List.getElem?_eq_some_iff.mp h
    obtain rfl : n = 0 := Nat.lt_one_iff.mp hn
    exact ⟨rfl, heq⟩
  refine ⟨rfl, ?_, ?_, ?_⟩
  · intro n block h _
    obtain ⟨rfl, rfl⟩ := hgenesis n block h
    exact Option.isSome_iff_exists.mpr ⟨_, blocks_keeping bodyRetention⟩
  · intro n block h _
    exact Nat.zero_le n
  · intro n block h _
    obtain ⟨rfl, rfl⟩ := hgenesis n block h
    rfl

/-- The first block of this chain settles the genesis block. -/
def settledChain : List Block :=
  authored [[settlement], []]

/-- The settlement of the first block. -/
def nextSettlement : ProofAmendment :=
  sampleAmendment 1 1 ((settledChain.getD 1 (genesisBlock world)).hash chainCtx)

/-- The node that keeps bodies for one block has lost that of the genesis block, which is settled. It finds the settlement
of the next block bound to its source, as the archive does. A node that keeps 300 bodies differs from the archive in nothing
but what it retains. -/
theorem pruned_node_agrees :
    (after 1 settledChain).node.blocks ((genesisBlock world).hash chainCtx) = none ∧
      (after 1 settledChain).validateL1ProofSourceBinding bindingMachine nextSettlement =
        (after 0 settledChain).validateL1ProofSourceBinding bindingMachine nextSettlement ∧
      (after 0 settledChain).validateL1ProofSourceBinding bindingMachine nextSettlement = .ok () ∧
      SameLive (after 0 settledChain) (after 300 settledChain) := by
  have hrun : (bindingSystem.Admits (KeepsSettled bindingMachine) (keeping 0) (inputsOf settledChain) ∧
      bindingSystem.Admits (KeepsSettled bindingMachine) (keeping 1) (inputsOf settledChain) ∧
      bindingSystem.Admits (KeepsSettled bindingMachine) (keeping 300) (inputsOf settledChain)) ∧
      (bindingSystem.Admits (ImportsNext bindingMachine) (keeping 0) (inputsOf settledChain) ∧
      bindingSystem.Admits (KeepsInputs bindingMachine) (keeping 0) (inputsOf settledChain) ∧
      bindingSystem.Admits (KeepsInputs bindingMachine) (keeping 300) (inputsOf settledChain)) ∧
      ((after 0 settledChain).chain.map (Block.hash chainCtx)).Nodup ∧
      (after 1 settledChain).chain = (after 0 settledChain).chain ∧
      (after 0 settledChain).CoversUnsettled chainCtx nextSettlement ∧
      (after 1 settledChain).node.blocks ((genesisBlock world).hash chainCtx) = none ∧
      (after 0 settledChain).validateL1ProofSourceBinding bindingMachine nextSettlement = .ok () := by
    decide +kernel
  obtain ⟨⟨hzero, hone, hmany⟩, ⟨hnext, hinputs, hinputs'⟩, hnodup, hchain, hcovers, hgone, hok⟩ := hrun
  have hdistinct : DistinctHashes bindingMachine.toCtx (after 0 settledChain).chain := distinctHashes_of_nodup hnodup
  unfold after bindingSystem at hchain hdistinct hcovers hgone hok ⊢
  obtain ⟨-, hverdict, -⟩ := settlement_inputs_retained payloadCodec_bindingMachine bindsSources_bindingMachine
    (keepsSources_keeping 0) (keepsSources_keeping 1) hzero hone hdistinct
  obtain ⟨-, -, hlive⟩ := settlement_inputs_retained payloadCodec_bindingMachine bindsSources_bindingMachine
    (keepsSources_keeping 0) (keepsSources_keeping 300) hzero hmany hdistinct
  exact ⟨hgone, (hverdict hchain nextSettlement hcovers).1, hok,
    (hlive readsRecentHashes_bindingMachine (keepsReads_keeping 0) (keepsReads_keeping 300) ⟨rfl, rfl⟩
      (.cons (.importBlock ..) (.cons (.consensus ..) (.cons (.importBlock ..) .nil))) hnext hinputs hinputs').1⟩

end RetentionPairs

namespace LostSourceCex

open RetentionPairs

/-- The third block of this chain settles the genesis block. -/
def chain : List Block :=
  authored [[], [], [settlement]]

/-- The archive and the node that keeps bodies for one block have the same chain, on which the genesis block is not
settled. The archive accepts its settlement with a reward, and the block that carries it. The other node has lost the body,
and refuses both. -/
theorem settlement_refused_after_pruning :
    (after 0 chain).chain = (after 1 chain).chain ∧ (after 1 chain).node.settledSources = ∅ ∧
      (after 1 chain).node.blocks ((genesisBlock world).hash chainCtx) = none ∧
      (after 0 chain).validateL1ProofSourceBinding bindingMachine settlement = .ok () ∧
      (after 1 chain).validateL1ProofSourceBinding bindingMachine settlement =
        .error (.sourceNotFound ((genesisBlock world).hash chainCtx)) ∧
      ((after 0 chain).node.settlementView bindingMachine).starkRewardValue settlement = some 50000000000000000000 ∧
      ((after 1 chain).node.settlementView bindingMachine).starkRewardValue settlement = none ∧
      (importBlock bindingMachine 1100 (after 0 chain).node (chain.getD 3 (genesisBlock world))).toOption.isSome = true ∧
      (importBlock bindingMachine 1100 (after 1 chain).node (chain.getD 3 (genesisBlock world))).toOption.isNone = true := by
  decide +kernel

end LostSourceCex

end ShellChain
