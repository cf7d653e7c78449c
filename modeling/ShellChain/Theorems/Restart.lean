import ShellChain.Lemmas.ForwardChain
import ShellChain.SampleSettlements

/-!
# A restart and the settled sources

A running node keeps in memory what its chain has settled. A start reads it back from the canonical blocks that can be read
by their heights. The body pruner takes the body of a block whatever it settles, so the two agree exactly when every block
that carries a settlement is still readable.
-/

namespace ShellChain

open RetainingNode

variable {σ ρ : Type} {M : Machine σ ρ}

/-! ## The restart -/

/-- The search for the first block below a layer, with no settlement of the same block before. -/
def frontierOf (M : Machine σ ρ) (r : RetainingNode σ ρ) (layer : Nat) : Nat :=
  (r.node.settlementView M).firstCanonicalBlockBelowLayer (fun _ => none) layer

/-- A block that carries a settlement settles a source. -/
theorem exists_mem_settledKeys {block : Block} (h : block.settlements M ≠ []) : ∃ key, key ∈ block.settledKeys M := by
  obtain ⟨a, ha⟩ := List.exists_mem_of_ne_nil _ h
  have hcovered : a.coveredHashes ≠ [] := by
    unfold ProofAmendment.coveredHashes
    split_ifs with hnil
    · exact List.cons_ne_nil _ _
    · exact hnil
  obtain ⟨hash, hh⟩ := List.exists_mem_of_ne_nil _ hcovered
  exact ⟨_, List.mem_flatMap.mpr ⟨a, ha, List.mem_map.mpr ⟨hash, hh, rfl⟩⟩⟩

/-- The rebuilt sources are those in memory exactly when every settlement can be read. -/
theorem Anchored.settledSources_eq_iff {r s : RetainingNode σ ρ} (h : Anchored M r) (hrebuilt : Rebuilt M r s) :
    s.node.settledSources = r.node.settledSources ↔ SettlementsReadable M r := by
  constructor
  · intro heq n block hblock hsettles
    obtain ⟨key, hkey⟩ := exists_mem_settledKeys hsettles
    have hmem : key ∈ s.node.settledSources := by
      rw [heq, h.settledByChain.settled, List.mem_toFinset]
      exact List.mem_flatMap.mpr ⟨block, List.mem_of_getElem? hblock, hkey⟩
    obtain ⟨m, other, hother, hreadable, hkey'⟩ := (hrebuilt.settledSources key).mp hmem
    rwa [h.once n m block other key hblock hother hkey hkey']
  · intro hreadable
    rw [hrebuilt.settledSources_eq hreadable, hrebuilt.chain, h.settledByChain.settled]

/-- The canonical hash of every height up to the head is stored. -/
def CanonicalComplete (Γ : Ctx) (r : RetainingNode σ ρ) : Prop :=
  ∀ (n : Nat) (block : Block), r.chain[n]? = some block → r.node.canonical n = some (block.hash Γ)

theorem canonical_eq_of_complete {r s : RetainingNode σ ρ} (hr : Tracks M.toCtx r) (hs : Tracks M.toCtx s)
    (hchain : s.chain = r.chain) (hcompleteR : CanonicalComplete M.toCtx r) (hcompleteS : CanonicalComplete M.toCtx s) :
    s.node.canonical = r.node.canonical := by
  funext n
  cases hn : r.chain[n]? with
  | some block => rw [hcompleteR n block hn, hcompleteS n block (by rw [hchain, hn])]
  | none =>
    have hnone : ∀ {t : RetainingNode σ ρ}, Tracks M.toCtx t → t.chain = r.chain → t.node.canonical n = none := by
      intro t ht hchain
      by_contra hsome
      obtain ⟨hash, hhash⟩ := Option.ne_none_iff_exists'.mp hsome
      obtain ⟨block, hblock, -⟩ := ht.canonical n hash hhash
      rw [hchain, hn] at hblock
      cases hblock
    rw [hnone hr rfl, hnone hs hchain]

/-- After every run without reorganisations from a start on which every settlement is readable, a restart succeeds. It
leaves the settled sources and the first blocks below each layer as they were exactly when every canonical block that
carries a settlement can still be read by its height. Then it changes no verdict, and the restarted node agrees with every
node on the same chain when both still have all canonical hashes. -/
theorem rebuild_unchanged_iff_readable (hcodec : PayloadCodec M) (hlayers : BindsLayers M)
    {sign sign' : Bytes → PQSignature} {pubkey pubkey' : Bytes} {store store' start start' : RetainingNode σ ρ}
    (hstore : SettlementStore M store) (hstart : store.rebuild M = .ok start) {inputs : List NodeInput}
    (hinputs : (retentionSystem M sign pubkey).Admits (KeepsChain M) start inputs)
    (hdistinct : DistinctHashes M.toCtx ((retentionSystem M sign pubkey).run start inputs).chain)
    (hstore' : SettlementStore M store') (hstart' : store'.rebuild M = .ok start') {inputs' : List NodeInput}
    (hinputs' : (retentionSystem M sign' pubkey').Admits (KeepsChain M) start' inputs') :
    let r := (retentionSystem M sign pubkey).run start inputs
    let archive := (retentionSystem M sign' pubkey').run start' inputs'
    ∃ s, r.rebuild M = .ok s ∧
      ((s.node.settledSources = r.node.settledSources ∧ ∀ layer, frontierOf M s layer = frontierOf M r layer) ↔
        SettlementsReadable M r) ∧
      (SettlementsReadable M r → ∀ amendments,
        (s.node.settlementView M).validateStarkSettlementSequence amendments =
            (r.node.settlementView M).validateStarkSettlementSequence amendments ∧
          (archive.chain = r.chain → CanonicalComplete M.toCtx r → CanonicalComplete M.toCtx archive →
            (s.node.settlementView M).validateStarkSettlementSequence amendments =
              (archive.node.settlementView M).validateStarkSettlementSequence amendments)) := by
  intro r archive
  have hr : Anchored M r := TransitionSystem.invariant_run (I := fun s => DistinctHashes M.toCtx s.chain → Anchored M s)
    (fun s input hs hkeeps => Anchored.moves hlayers hs hkeeps (moves_step hcodec sign pubkey s input))
    (fun _ => anchored_of_rebuild hstore hstart) hinputs hdistinct
  have harchive : SettledByChain M archive :=
    TransitionSystem.invariant_run (fun s input hs hkeeps => hs.moves (revertsNoSettlement_of_keepsChain hkeeps)
      (moves_step hcodec sign' pubkey' s input)) (anchored_of_rebuild hstore' hstart').settledByChain hinputs'
  obtain ⟨s, hs, hrebuilt⟩ := rebuild_ok hr.settledByChain.tracks hr.faithful
  have hsettled : SettlementsReadable M r → SettledByChain M s := fun hreadable =>
    ⟨hrebuilt.tracks, hrebuilt.frontiers, hrebuilt.settledSources_eq hreadable⟩
  refine ⟨s, hs, ⟨fun h => (hr.settledSources_eq_iff hrebuilt).mp h.1, fun hreadable => ⟨?_, fun layer => ?_⟩⟩, ?_⟩
  · exact (hr.settledSources_eq_iff hrebuilt).mpr hreadable
  · exact (sameChain_of_settledByChain hr.settledByChain (hsettled hreadable) hrebuilt.chain
      hrebuilt.canonical).firstCanonicalBlockBelowLayer hr.settledByChain.frontiers.sound hrebuilt.frontiers.sound
      (SettlementView.overlaySound_empty _) layer
  · intro hreadable amendments
    have hverdict := hr.settledByChain.verdict_eq (hsettled hreadable) hrebuilt.chain hrebuilt.canonical amendments
    refine ⟨hverdict, fun hchain hcomplete hcomplete' => hverdict.trans ?_⟩
    exact harchive.verdict_eq hr.settledByChain hchain.symm
      (canonical_eq_of_complete harchive.tracks hr.settledByChain.tracks hchain.symm hcomplete' hcomplete) amendments

/-! ## Bodies on a concrete chain -/

theorem settlementStore_genesisStore {w : SampleWorld} {pubkeys : KeyTable} {pruning : PruningConfig} :
    SettlementStore settlingMachine (genesisStore w pubkeys pruning) := by
  refine ⟨tracks_genesisStore, faithful_genesisStore, settlementsReadable_genesisStore, ?_, Nat.le_refl _, Nat.le_refl _, ?_⟩
  · intro n m block other key hn _ hkey
    obtain rfl := List.mem_singleton.mp (List.mem_of_getElem? hn)
    cases hkey
  · intro n _ hn
    obtain rfl : n = 0 := Nat.le_zero.mp hn
    rfl

theorem bindsLayers_settlingMachine : BindsLayers settlingMachine := by
  intro blocks a h
  have hle := layer_le_of_sampleSourceBinding h
  omega

namespace RestartRuns

def world : SampleWorld :=
  ⟨[], none⟩

/-- Bodies are kept for one block, bundles for ever. -/
def pruning : PruningConfig :=
  ⟨0, 0, 1, u64Max⟩

/-- The node that has started at genesis. -/
def start : RetainingNode SampleWorld Unit :=
  genesisStart world (fun _ => none) pruning

theorem rebuild_start : (genesisStore world (fun _ => none) pruning).rebuild settlingMachine = .ok start :=
  rebuild_genesisStore

/-- The settlement of the genesis block. -/
def settlement : ProofAmendment :=
  sampleAmendment 1 0 ((genesisBlock world).hash chainCtx)

/-- Two blocks with the given settlements are produced. -/
def twoWith (first second : List ProofAmendment) : RetainingNode SampleWorld Unit :=
  settlingSystem.run start [.produce 1010 500 [] first 0, .produce 1020 500 [] second 0]

/-- The second of two blocks becomes final, and a third one is produced. -/
def inputsWith (first second : List ProofAmendment) : List NodeInput :=
  [.produce 1010 500 [] first 0, .produce 1020 500 [] second 0] ++
    [finalizeHead (twoWith first second), .produce 1030 500 [] [] 0]

/-- The node after these inputs: the bodies of blocks 0 and 1 are gone. -/
def prunedWith (first second : List ProofAmendment) : RetainingNode SampleWorld Unit :=
  settlingSystem.run start (inputsWith first second)

theorem keepsChain_finalizeHead {r : RetainingNode SampleWorld Unit}
    (h : r.node.finality.lastFinalizedNumber ≤ r.node.head.number) : KeepsChain settlingMachine r (finalizeHead r) :=
  ⟨h, Nat.le_refl _⟩

theorem admits_inputsWith (first second : List ProofAmendment)
    (h : (twoWith first second).node.finality.lastFinalizedNumber ≤ (twoWith first second).node.head.number) :
    settlingSystem.Admits (KeepsChain settlingMachine) start (inputsWith first second) := by
  refine TransitionSystem.admits_append.mpr ⟨⟨trivial, trivial, trivial⟩, ?_, ?_⟩
  · change KeepsChain settlingMachine (twoWith first second) _
    exact keepsChain_finalizeHead h
  · exact ⟨trivial, trivial⟩

/-- Block 2 settles the genesis block and can be read after the bodies of blocks 0 and 1 have gone: a restart keeps the
settled source. -/
theorem restart_keeps_settlement : ∃ s, (prunedWith [] [settlement]).rebuild settlingMachine = .ok s ∧
    s.node.settledSources = (prunedWith [] [settlement]).node.settledSources ∧
    (prunedWith [] [settlement]).node.settledSources.card = 1 ∧
    ((prunedWith [] [settlement]).node.blockAt 1).isNone = true := by
  have hfinal : (twoWith [] [settlement]).node.finality.lastFinalizedNumber ≤ (twoWith [] [settlement]).node.head.number := by
    decide +kernel
  have hstate : ((prunedWith [] [settlement]).chain.map (Block.hash chainCtx)).Nodup ∧
      (∀ entry ∈ (prunedWith [] [settlement]).chain.zipIdx, entry.1.settlements settlingMachine ≠ [] →
        ((prunedWith [] [settlement]).node.blockAt entry.2).isSome = true) ∧
      (prunedWith [] [settlement]).node.settledSources.card = 1 ∧
      ((prunedWith [] [settlement]).node.blockAt 1).isNone = true := by
    decide +kernel
  obtain ⟨hnodup, hreadable, hcard, hnone⟩ := hstate
  unfold prunedWith settlingSystem at hnodup hreadable hcard hnone ⊢
  obtain ⟨s, hs, hiff, -⟩ := rebuild_unchanged_iff_readable payloadCodec_settlingMachine bindsLayers_settlingMachine
    settlementStore_genesisStore rebuild_start (admits_inputsWith [] [settlement] hfinal) (distinctHashes_of_nodup hnodup)
    settlementStore_genesisStore rebuild_start (admits_inputsWith [] [settlement] hfinal)
  refine ⟨s, hs, (hiff.mpr fun n block hblock => ?_).1, hcard, hnone⟩
  exact hreadable (block, n) (List.mem_zipIdx_iff_getElem?.mpr hblock)

end RestartRuns

/-! ## A settlement that a restart forgets -/

namespace ForgottenSettlementCex

open RestartRuns

/-- Block 1 settles the genesis block; its body has gone. -/
def running : RetainingNode SampleWorld Unit :=
  prunedWith [settlement] []

/-- The node after a restart. -/
def restarted : RetainingNode SampleWorld Unit :=
  (running.rebuild settlingMachine).toOption.getD running

/-- The restarted node has forgotten the settlement. It starts the first layer at the genesis block again and accepts the
same settlement once more, which the running node refuses. -/
theorem restart_forgets_settlement :
    (running.rebuild settlingMachine).toOption.isSome = true ∧
      running.node.settledSources = {(1, (genesisBlock world).hash chainCtx)} ∧ restarted.node.settledSources = ∅ ∧
      frontierOf settlingMachine running 1 = 1 ∧ frontierOf settlingMachine restarted 1 = 0 ∧
      ((running.node.settlementView settlingMachine).validateStarkSettlementSequence [settlement]).toOption = none ∧
      ((restarted.node.settlementView settlingMachine).validateStarkSettlementSequence [settlement]).toOption =
        some () := by
  decide +kernel

end ForgottenSettlementCex

end ShellChain
