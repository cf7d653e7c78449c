import ShellChain.Lemmas.SettledChain
import ShellChain.SampleSettlements

/-!
# Settled sources and the canonical chain

The settled sources only grow: a block that becomes canonical adds what it settles, and neither an adoption nor a recovery
takes anything back. So the set is that of the canonical chain in the runs that revert no settlement, and then the verdict on
a settlement is a function of the chain.
-/

namespace ShellChain

open RetainingNode

variable {σ ρ : Type} {M : Machine σ ρ}

/-- From a start on which every settlement of the chain is readable, in every run that reverts no settlement the settled
sources are exactly those of the canonical chain, and nodes that have come to the same chain give the same verdicts. -/
theorem settledSources_eq_chainKeys (hcodec : PayloadCodec M) {sign sign' : Bytes → PQSignature} {pubkey pubkey' : Bytes}
    {store store' r r' : RetainingNode σ ρ} (htracks : Tracks M.toCtx store) (hfaithful : Faithful M store)
    (hreadable : SettlementsReadable M store) (hstart : store.rebuild M = .ok r) {inputs : List NodeInput}
    (hinputs : (retentionSystem M sign pubkey).Admits (RevertsNoSettlement M) r inputs)
    (htracks' : Tracks M.toCtx store') (hfaithful' : Faithful M store') (hreadable' : SettlementsReadable M store')
    (hstart' : store'.rebuild M = .ok r') {inputs' : List NodeInput}
    (hinputs' : (retentionSystem M sign' pubkey').Admits (RevertsNoSettlement M) r' inputs') :
    let s := (retentionSystem M sign pubkey).run r inputs
    let s' := (retentionSystem M sign' pubkey').run r' inputs'
    (s.node.settledSources = (chainKeys M s.chain).toFinset ∧ Tracks M.toCtx s) ∧
      (s'.chain = s.chain → s'.node.canonical = s.node.canonical → ∀ amendments,
        (s'.node.settlementView M).validateStarkSettlementSequence amendments =
          (s.node.settlementView M).validateStarkSettlementSequence amendments) := by
  have hs := TransitionSystem.invariant_run (fun r input h hc => h.moves hc (moves_step hcodec sign pubkey r input))
    (settledByChain_of_rebuild htracks hfaithful hreadable hstart) hinputs
  have hs' := TransitionSystem.invariant_run (fun r input h hc => h.moves hc (moves_step hcodec sign' pubkey' r input))
    (settledByChain_of_rebuild htracks' hfaithful' hreadable' hstart') hinputs'
  exact ⟨⟨hs.settled, hs.tracks⟩, fun hchain hcanonical => hs.verdict_eq hs' hchain hcanonical⟩

namespace AdoptionWitness

def world : SampleWorld :=
  ⟨[], none⟩

/-- A node that keeps everything. -/
def start : RetainingNode SampleWorld Unit :=
  genesisStart world (fun _ => none) ⟨0, 0, 0, u64Max⟩

theorem rebuild_start : (genesisStore world (fun _ => none) ⟨0, 0, 0, u64Max⟩).rebuild settlingMachine = .ok start :=
  rebuild_genesisStore

def genesisHash : ShellHash :=
  (genesisBlock world).hash chainCtx

/-- The empty block of another branch. -/
def otherBlock : Block :=
  emptyOnGenesis world 1011

/-- The other branch arrives and gets the quorum. -/
def preferOther (old : ShellHash) : List NodeInput :=
  [.importBlock 1100 otherBlock false 0,
    .consensus sampleEngine (preferred 1 genesisHash old (otherBlock.hash chainCtx)) start.node.finality none]

/-- An empty block is produced. -/
def produced : RetainingNode SampleWorld Unit :=
  settlingSystem.run start [.produce 1010 500 [] [] 0]

/-- An empty block is produced, and the other branch is preferred. -/
def prepareInputs : List NodeInput :=
  .produce 1010 500 [] [] 0 :: preferOther (produced.node.head.hash chainCtx)

/-- The other branch is adopted, and a block on it settles the genesis block. -/
def inputs : List NodeInput :=
  prepareInputs ++ [.adoptFork 1100 0, .produce 1020 500 [] [sampleAmendment 1 0 genesisHash] 0]

theorem admits_inputs : settlingSystem.Admits (RevertsNoSettlement settlingMachine) start inputs := by
  have hnone : ∀ block ∈ (settlingSystem.run start prepareInputs).chain, block.settlements settlingMachine = [] := by
    decide +kernel
  refine TransitionSystem.admits_append.mpr ⟨admits_of_not_reverts (by simp [prepareInputs, preferOther, NodeInput.reverts]) _,
    ?_, admits_of_not_reverts (by simp [NodeInput.reverts]) _⟩
  intro plan _ block hblock
  exact hnone block (List.mem_of_mem_drop hblock)

/-- A node that has switched to another branch settles what the blocks of that branch settle. -/
theorem settledSources_after_adoption :
    (settlingSystem.run start inputs).node.settledSources = {(1, genesisHash)} ∧
      (settlingSystem.run start inputs).chain.length = 3 := by
  have hchain : (chainKeys settlingMachine (settlingSystem.run start inputs).chain).toFinset = {(1, genesisHash)} ∧
      (settlingSystem.run start inputs).chain.length = 3 := by
    decide +kernel
  obtain ⟨⟨hsettled, -⟩, -⟩ := settledSources_eq_chainKeys payloadCodec_settlingMachine
    tracks_genesisStore faithful_genesisStore settlementsReadable_genesisStore rebuild_start admits_inputs
    tracks_genesisStore faithful_genesisStore settlementsReadable_genesisStore rebuild_start admits_inputs
  unfold settlingSystem at hchain ⊢
  exact ⟨hsettled.trans hchain.1, hchain.2⟩

end AdoptionWitness

/-! ## A reverted settlement -/

namespace RevertedSettlementCex

open AdoptionWitness

/-- The validator produces a block that settles the genesis block. -/
def settled : RetainingNode SampleWorld Unit :=
  settlingSystem.run start [.produce 1010 500 [] [sampleAmendment 1 0 genesisHash] 0]

/-- The branch without the settlement is adopted. -/
def reverted : RetainingNode SampleWorld Unit :=
  settlingSystem.run settled (preferOther (settled.node.head.hash chainCtx) ++ [.adoptFork 1100 0])

/-- A node that only saw this branch. -/
def direct : RetainingNode SampleWorld Unit :=
  settlingSystem.run start [.importBlock 1100 otherBlock false 0]

/-- After the switch no canonical block settles anything, but the genesis block stays settled. Its settlement is refused
there and accepted by a node that never saw the other branch. -/
theorem reverted_settlement_kept :
    (settled.chain.map fun block => (block.settlements settlingMachine).length) = [0, 1] ∧
      reverted.chain = [genesisBlock world, otherBlock] ∧ direct.chain = reverted.chain ∧
      chainKeys settlingMachine reverted.chain = [] ∧ (1, genesisHash) ∈ reverted.node.settledSources ∧
      ((reverted.node.settlementView settlingMachine).validateStarkSettlementSequence
        [sampleAmendment 1 0 genesisHash]).toOption = none ∧
      ((direct.node.settlementView settlingMachine).validateStarkSettlementSequence
        [sampleAmendment 1 0 genesisHash]).toOption = some () := by
  decide +kernel

end RevertedSettlementCex

end ShellChain
