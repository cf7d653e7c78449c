import ShellChain.Lemmas.RetentionRuns

/-!
# The scan at a start

`rebuild_settled_stark_sources_from_chain` reads the canonical blocks that are stored. It finds what the readable blocks of
the chain settle, and nothing of a block whose body or canonical hash is gone. The frontiers it computes are sound.
-/

namespace ShellChain

open List

variable {σ ρ : Type} {M : Machine σ ρ}

/-! ## Frontiers from height 0 -/

namespace SettlementView

variable {v : SettlementView} {overlay : LayerOverlay}

/-- The search stops at the first canonical source below the layer. -/
theorem le_layer_of_lt_frontierFrom {layer fuel start : Nat} {n : Nat} (hstart : start ≤ n) (hfuel : n < start + fuel)
    (hn : n < v.frontierFrom overlay layer fuel start) {h : ShellHash} (hh : v.canonicalHash n = some h)
    (hsource : v.isStarkCompressionSource overlay h = true) : layer ≤ v.compressionLayerForSource overlay h := by
  induction fuel generalizing start with
  | zero => omega
  | succ fuel ih =>
    rw [frontierFrom] at hn
    split_ifs at hn with hany
    · omega
    · rcases Nat.eq_or_lt_of_le hstart with rfl | hlt
      · simp only [hh, Option.any_some, hsource, Bool.true_and, decide_eq_true_eq] at hany
        exact Nat.le_of_not_lt hany
      · exact ih hlt (by omega) hn

theorem frontierFrom_le {layer fuel start : Nat} (hfuel : start + fuel ≤ v.headNumber + 1) :
    v.frontierFrom overlay layer fuel start ≤ v.headNumber + 1 := by
  induction fuel generalizing start with
  | zero => exact Nat.min_le_left _ _
  | succ fuel ih =>
    rw [frontierFrom]
    split_ifs
    · omega
    · exact ih (by omega)

/-- The search does not read the cached frontiers. -/
theorem frontierFrom_withFrontiers (v : SettlementView) (frontiers : Nat → Option Nat) (layer fuel start : Nat) :
    ({ v with settledFrontiers := frontiers } : SettlementView).frontierFrom overlay layer fuel start =
      v.frontierFrom overlay layer fuel start := by
  induction fuel generalizing start with
  | zero => rfl
  | succ fuel ih =>
    rw [frontierFrom, frontierFrom, ih]
    rfl

end SettlementView

theorem frontiersOk_withScanned {node : ChainNode σ ρ} (hbelow : node.CanonicalBelow)
    (hstored : ∀ n hash, node.canonical n = some hash →
      node.storedArtifact hash = true ∨ (node.blocks hash).isSome = true) (scanned : List (Nat × ProofAmendment)) :
    FrontiersOk M (node.withScanned M scanned) := by
  have hsome : ∀ layer frontier, (node.withScanned M scanned).settledFrontiers layer = some frontier →
      frontier = ((node.withScanned M scanned).settlementView M).frontierFrom (fun _ => none) layer
        (node.head.number + 1) 0 := by
    intro layer frontier hfrontier
    simp only [ChainNode.withScanned] at hfrontier
    split_ifs at hfrontier
    rw [← Option.some.inj hfrontier]
    exact (SettlementView.frontierFrom_withFrontiers _ (node.withScanned M scanned).settledFrontiers _ _ _).symm
  refine ⟨?_, ?_⟩
  · intro layer frontier hfrontier n hn hash hhash
    obtain rfl := hsome layer frontier hfrontier
    have hle : n ≤ node.head.number := hbelow n hash hhash
    refine SettlementView.le_layer_of_lt_frontierFrom (Nat.zero_le n) (by omega) hn hhash ?_
    simpa [SettlementView.isStarkCompressionSource, ChainNode.settlementView, ChainNode.withScanned]
      using hstored n hash hhash
  · intro layer frontier hfrontier
    obtain rfl := hsome layer frontier hfrontier
    exact SettlementView.frontierFrom_le (by rw [Nat.zero_add]; rfl)

namespace RetainingNode

variable {r s : RetainingNode σ ρ}

/-! ## What the scan finds -/

/-- The stored blocks of the chain are the committed ones up to their witnesses, and none has settlements in its extra
data. -/
structure Faithful (M : Machine σ ρ) (r : RetainingNode σ ρ) : Prop where
  stored : ∀ (block stored : Block), block ∈ r.chain → r.node.blocks (block.hash M.toCtx) = some stored →
    stored.header = block.header ∧ stored.systemTransactions = block.systemTransactions
  extra : ∀ block ∈ r.chain, decodeSystemExtra M block.header.extraData = .ok []

/-- Every canonical block that carries a settlement can be read by its height. -/
def SettlementsReadable (M : Machine σ ρ) (r : RetainingNode σ ρ) : Prop :=
  ∀ (n : Nat) (block : Block), r.chain[n]? = some block → block.settlements M ≠ [] → (r.node.blockAt n).isSome = true

theorem scanSettlements_ok (htracks : Tracks M.toCtx r) (hfaithful : Faithful M r) (numbers : List Nat) :
    ∃ scanned, r.node.scanSettlements M numbers = .ok scanned ∧ ∀ found : Nat × ProofAmendment, found ∈ scanned ↔
      found.1 ∈ numbers ∧ (r.node.blockAt found.1).isSome = true ∧
        ∃ block, r.chain[found.1]? = some block ∧ found.2 ∈ block.settlements M := by
  induction numbers with
  | nil => exact ⟨[], rfl, by simp⟩
  | cons number rest ih =>
    obtain ⟨others, hothers, hmem⟩ := ih
    cases hat : r.node.blockAt number with
    | none =>
      refine ⟨others, by simp [ChainNode.scanSettlements, hat, hothers, bind, Except.bind, pure, Except.pure], ?_⟩
      rintro ⟨n, a⟩
      rw [hmem]
      constructor
      · rintro ⟨hn, hrest⟩
        exact ⟨mem_cons_of_mem _ hn, hrest⟩
      · rintro ⟨hn, hsome, hrest⟩
        rcases mem_cons.mp hn with rfl | hn
        · rw [hat] at hsome
          cases hsome
        · exact ⟨hn, hsome, hrest⟩
    | some stored =>
      -- the stored block is the one of the chain, up to its witnesses
      obtain ⟨hash, hhash, hstored⟩ := Option.bind_eq_some_iff.mp hat
      obtain ⟨block, hblock, rfl⟩ := htracks.canonical _ hash hhash
      obtain ⟨hheader, hsystem⟩ := hfaithful.stored block stored (mem_of_getElem? hblock) hstored
      have hreverted : stored.revertedStarkSettlements M = .ok (block.settlements M) := by
        simp only [Block.revertedStarkSettlements, hheader, hfaithful.extra block (mem_of_getElem? hblock),
          Block.settlements, Block.starkRewards, hsystem, bind, Except.bind, nil_append, pure, Except.pure]
      refine ⟨(block.settlements M).map (fun a => (number, a)) ++ others,
        by simp [ChainNode.scanSettlements, hat, hreverted, hothers, bind, Except.bind, pure, Except.pure], ?_⟩
      rintro ⟨n, a⟩
      rw [mem_append, hmem]
      constructor
      · rintro (hfound | ⟨hn, hrest⟩)
        · obtain ⟨b, hb, heq⟩ := mem_map.mp hfound
          obtain ⟨rfl, rfl⟩ := Prod.mk.inj heq
          exact ⟨mem_cons_self .., by rw [hat]; rfl, block, hblock, hb⟩
        · exact ⟨mem_cons_of_mem _ hn, hrest⟩
      · rintro ⟨hn, hsome, b, hb, ha⟩
        rcases mem_cons.mp hn with rfl | hn
        · obtain rfl := Option.some.inj (hblock.symm.trans hb)
          exact .inl (mem_map.mpr ⟨a, ha, rfl⟩)
        · exact .inr ⟨hn, hsome, b, hb, ha⟩

/-! ## The rebuilt node -/

/-- What a rebuild leaves: a node pruned by the grace queue only, whose settled sources are those of the readable
blocks. -/
structure Rebuilt (M : Machine σ ρ) (r s : RetainingNode σ ρ) : Prop where
  tracks : Tracks M.toCtx s
  frontiers : FrontiersOk M s.node
  chain : s.chain = r.chain
  settledSources : ∀ key, key ∈ s.node.settledSources ↔
    ∃ (n : Nat) (block : Block), r.chain[n]? = some block ∧ (r.node.blockAt n).isSome = true ∧ key ∈ block.settledKeys M
  canonical : s.node.canonical = r.node.canonical
  head : s.node.head = r.node.head
  stored : ∀ n hash, r.node.canonical n = some hash →
    s.node.storedArtifact hash = true ∨ (s.node.blocks hash).isSome = true
  prunes : ∃ scanned queue, (∀ h deleteAt, queue.lookup h = some deleteAt → r.graceDeletes.lookup h = some deleteAt ∨
      ∃ (n : Nat) (block : Block), r.chain[n]? = some block ∧
        deleteAt = saturatingAdd n r.pruning.proofReplacementGrace ∧ ∃ a ∈ block.settlements M, h ∈ a.coveredHashes) ∧
    let base : RetainingNode σ ρ := { r with node := r.node.withScanned M scanned, graceDeletes := queue }
    Prunes (base.GraceDue r.node.finality.lastFinalizedNumber) (fun _ => False) base s

theorem rebuild_ok (htracks : Tracks M.toCtx r) (hfaithful : Faithful M r) : ∃ s, r.rebuild M = .ok s ∧ Rebuilt M r s := by
  obtain ⟨scanned, hscanned, hmem⟩ := scanSettlements_ok htracks hfaithful (range (r.node.head.number + 1))
  have hrebuilt : r.node.rebuildSettledStarkSources M = .ok (r.node.withScanned M scanned, scanned) := by
    simp [ChainNode.rebuildSettledStarkSources, hscanned, bind, Except.bind, pure, Except.pure]
  refine ⟨_, by simp only [rebuild, hrebuilt, bind, Except.bind, pure, Except.pure]; rfl, ?_⟩
  have hframe := foldl_schedule_eq (fun found : Nat × ProofAmendment => [found.2]) Prod.fst scanned
    { r with node := r.node.withScanned M scanned }
  have hqueue := fun hash deleteAt (hlookup : (scanned.foldl (fun (s : RetainingNode σ ρ) (found : Nat × ProofAmendment) =>
      s.scheduleSettledWitnessDeletes [found.2] found.1)
      { r with node := r.node.withScanned M scanned }).graceDeletes.lookup hash = some deleteAt) =>
    lookup_foldl_schedule (fun found : Nat × ProofAmendment => [found.2]) Prod.fst hlookup
  simp only at hframe
  rw [hframe]
  generalize foldl _ _ scanned = scheduled at hqueue
  set base : RetainingNode σ ρ := { r with
    node := r.node.withScanned M scanned, graceDeletes := scheduled.graceDeletes } with hbase
  have hp := base.prunes_pruneGraceWitnesses r.node.finality.lastFinalizedNumber (B := fun _ => False)
  have htracksBase : Tracks M.toCtx base := ⟨htracks.length, htracks.number, htracks.canonical, htracks.stored⟩
  have htracksFinal := htracksBase.of_prunes hp
  have hcanonical : (base.pruneGraceWitnesses r.node.finality.lastFinalizedNumber).node.canonical = r.node.canonical := rfl
  refine ⟨htracksFinal, ?_, hp.chain, ?_, hcanonical, hp.head, fun n hash hhash => htracksFinal.stored n hash hhash,
    scanned, scheduled.graceDeletes, ?_, hp⟩
  · exact frontiersOk_of_prunes (r := base) (frontiersOk_withScanned htracks.canonicalBelow htracks.stored scanned) hp
  · intro key
    rw [hp.settledSources]
    change key ∈ (scanned.flatMap fun found : Nat × ProofAmendment => found.2.sourceKeys).toFinset ↔ _
    rw [mem_toFinset, mem_flatMap]
    constructor
    · rintro ⟨⟨n, a⟩, hfound, hkey⟩
      obtain ⟨-, hsome, block, hblock, ha⟩ := (hmem _).mp hfound
      exact ⟨n, block, hblock, hsome, mem_flatMap.mpr ⟨a, ha, hkey⟩⟩
    · rintro ⟨n, block, hblock, hsome, hkey⟩
      obtain ⟨a, ha, hkey⟩ := mem_flatMap.mp hkey
      have hlt := (List.getElem?_eq_some_iff.mp hblock).1
      rw [htracks.length] at hlt
      exact ⟨(n, a), (hmem _).mpr ⟨mem_range.mpr hlt, hsome, block, hblock, ha⟩, hkey⟩
  · intro hash deleteAt hlookup
    rcases hqueue hash deleteAt hlookup with hold | ⟨⟨n, a⟩, hfound, hat, b, hb, hh⟩
    · exact .inl hold
    · obtain ⟨-, -, block, hblock, ha⟩ := (hmem _).mp hfound
      obtain rfl := mem_singleton.mp hb
      exact .inr ⟨n, block, hblock, hat, b, ha, hh⟩

/-- With every settlement readable the rebuild finds what the chain settles. -/
theorem Rebuilt.settledSources_eq (h : Rebuilt M r s) (hreadable : SettlementsReadable M r) :
    s.node.settledSources = (chainKeys M s.chain).toFinset := by
  ext key
  rw [h.settledSources, h.chain, mem_toFinset, chainKeys, mem_flatMap]
  constructor
  · rintro ⟨n, block, hblock, -, hkey⟩
    exact ⟨block, mem_of_getElem? hblock, hkey⟩
  · rintro ⟨block, hblock, hkey⟩
    obtain ⟨n, hn⟩ := mem_iff_getElem?.mp hblock
    refine ⟨n, block, hn, hreadable n block hn ?_, hkey⟩
    intro hnil
    simp [Block.settledKeys, hnil] at hkey

end RetainingNode

end ShellChain
