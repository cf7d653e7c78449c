import ShellChain.Lemmas.Finality
import ShellChain.Lemmas.Rebuild

/-!
# Why a witness bundle is deleted

A bundle is deleted for an entry of the grace queue or because its block is settled and old. Both are records of settlements
that were canonical when they were made. The invariant says that each of them still stands for a settlement of the first
layer on the canonical chain, and that a block with transactions has lost its bundle only to a final one.
-/

namespace ShellChain

open List

variable {σ ρ : Type} {M : Machine σ ρ}

/-! ## Settlements of the first layer -/

/-- A block of the chain up to a height settles the hash at the first layer. -/
def SettledUpTo (M : Machine σ ρ) (chain : List Block) (height : Nat) (h : ShellHash) : Prop :=
  ∃ block ∈ chain, block.number ≤ height ∧ ∃ a ∈ block.settlements M, a.layer = 1 ∧ h ∈ a.coveredHashes

variable {chain : List Block} {h : ShellHash} {height : Nat}

theorem SettledUpTo.mono {chain' : List Block} {height' : Nat} (hs : SettledUpTo M chain height h)
    (hchain : ∀ block ∈ chain, block ∈ chain') (hle : height ≤ height') : SettledUpTo M chain' height' h := by
  obtain ⟨block, hblock, hnumber, a, ha, hlayer, hh⟩ := hs
  exact ⟨block, hchain block hblock, hnumber.trans hle, a, ha, hlayer, hh⟩

/-- What a block settles at any layer is settled at the first one, by the block itself or before it. -/
theorem settledUpTo_of_settles {node : ChainNode σ ρ} {block : Block} (hsettles : Settles M node block)
    (hblock : block ∈ chain) (hle : block.number ≤ height)
    (hbefore : ∀ key ∈ node.settledSources, SettledUpTo M chain height key.2) {a : ProofAmendment}
    (ha : a ∈ block.settlements M) (hh : h ∈ a.coveredHashes) : SettledUpTo M chain height h := by
  -- the overlay gives a layer to hashes that earlier settlements of the block cover
  refine SettlementView.validateSequence_induction (v := node.settlementView M)
    (I := fun overlay => ∀ h layer, overlay h = some layer → SettledUpTo M chain height h)
    (Q := fun a => ∀ h ∈ a.coveredHashes, SettledUpTo M chain height h) ?_ ?_ hsettles.sequence a ha h hh
  · intro overlay a ha hoverlay haccepted
    have hcovered : ∀ h ∈ a.coveredHashes, SettledUpTo M chain height h := by
      intro h hh
      rcases haccepted.next h hh with hlayer | hnext
      · exact ⟨block, hblock, hle, a, ha, Nat.le_antisymm hlayer haccepted.layer_pos, hh⟩
      · cases hfound : overlay h with
        | some layer => exact hoverlay h layer hfound
        | none =>
          by_cases hfirst : a.layer = 1
          · exact ⟨block, hblock, hle, a, ha, hfirst, hh⟩
          · have hpos : 0 < (node.settlementView M).settledLayer h := by
              have hlayer := haccepted.layer_pos
              simp only [SettlementView.settledLayer, SettlementView.compressionLayerForSource, hfound,
                Option.getD_none] at hnext ⊢
              omega
            exact hbefore _ (SettlementView.mem_of_settledLayer_pos hpos).2
    refine ⟨fun h layer hlayer => ?_, hcovered⟩
    unfold LayerOverlay.insertCovered at hlayer
    split_ifs at hlayer with hmem
    · exact hcovered h hmem
    · exact hoverlay h layer hlayer
  · intro h layer hlayer
    cases hlayer

namespace RetainingNode

variable {r s : RetainingNode σ ρ}

/-! ## The invariant -/

/-- What is recorded as settled or due stands for a settlement on the chain, and a bundle of the chain or of a stored block
is missing only when the settlement is final. -/
structure Retains (M : Machine σ ρ) (r : RetainingNode σ ρ) : Prop where
  tracks : Tracks M.toCtx r
  finalized_le : r.finalizedHeight ≤ r.node.head.number
  settled : ∀ key ∈ r.node.settledSources, SettledUpTo M r.chain r.node.head.number key.2
  grace : ∀ h deleteAt, r.graceDeletes.lookup h = some deleteAt → SettledUpTo M r.chain deleteAt h
  chain : ∀ block ∈ r.chain, block.transactions ≠ [] →
    (r.bundles (block.hash M.toCtx)).isSome = true ∨ SettledUpTo M r.chain r.finalizedHeight (block.hash M.toCtx)
  stored : ∀ h block, r.node.blocks h = some block → block.transactions ≠ [] →
    (r.bundles h).isSome = true ∨ SettledUpTo M r.chain r.finalizedHeight h

/-- The amendments of the first layer cover no block of the chain that is behind the witness window. -/
def CoversRecent (Γ : Ctx) (pruning : PruningConfig) (finalized : Nat) (chain : List Block)
    (amendments : List ProofAmendment) : Prop :=
  pruning.witnessRetention = 0 ∨ ∀ a ∈ amendments, a.layer = 1 → ∀ (n : Nat) (block : Block), chain[n]? = some block →
    block.hash Γ ∈ a.coveredHashes → retentionCutoff finalized pruning.witnessRetention ≤ n

/-- The settlements that are not final yet cover no block behind the witness window. -/
def LateCoversRecent (M : Machine σ ρ) (pruning : PruningConfig) (finalized : Nat) (chain : List Block) : Prop :=
  ∀ block ∈ chain, finalized < block.number → CoversRecent M.toCtx pruning finalized chain (block.settlements M)

variable {hash : ShellHash} {block : Block} {next : ChainNode σ ρ} {plan : ForkAdoptionPlan}

theorem Retains.settledUpTo_of_graceDue (h : Retains M r) (hdue : r.GraceDue r.node.finality.lastFinalizedNumber hash) :
    SettledUpTo M r.chain r.finalizedHeight hash := by
  obtain ⟨deleteAt, hlookup, hle⟩ := hdue
  exact (h.grace hash deleteAt hlookup).mono (fun _ hb => hb) (hle.trans (Nat.le_max_right _ _))

theorem Retains.settledUpTo_of_witnessDue (h : Retains M r) (hlate : LateCoversRecent M r.pruning r.finalizedHeight r.chain)
    (hdue : r.WitnessDue hash) : SettledUpTo M r.chain r.finalizedHeight hash := by
  rcases hdue with hgrace | ⟨hsettled, hretention, n, hn, hlt⟩
  · exact h.settledUpTo_of_graceDue hgrace
  · obtain ⟨block, hblock, hnumber, a, ha, hlayer, hh⟩ := h.settled _ hsettled
    by_cases hfinal : block.number ≤ r.finalizedHeight
    · exact ⟨block, hblock, hfinal, a, ha, hlayer, hh⟩
    · rcases hlate block hblock (Nat.lt_of_not_le hfinal) with harchive | hrecent
      · exact absurd harchive hretention
      · obtain ⟨covered, hcovered, rfl⟩ := h.tracks.canonical n hash hn
        have hle := hrecent a ha hlayer n covered hcovered hh
        omega

/-- Pruning with reasons that are final settlements keeps the invariant. -/
theorem Retains.of_prunes {W B : ShellHash → Prop} (h : Retains M r) (hp : Prunes W B r s)
    (hdue : ∀ hash, W hash → SettledUpTo M r.chain r.finalizedHeight hash) : Retains M s := by
  have hbundle : ∀ hash, (r.bundles hash).isSome = true ∨ SettledUpTo M r.chain r.finalizedHeight hash →
      (s.bundles hash).isSome = true ∨ SettledUpTo M s.chain s.finalizedHeight hash := by
    intro hash hkept
    rw [hp.chain, hp.finalizedHeight]
    rcases hkept with hsome | hfinal
    · rcases hp.bundles hash with heq | ⟨-, hwhy⟩
      · exact .inl (heq ▸ hsome)
      · exact .inr (hdue hash hwhy)
    · exact .inr hfinal
  refine ⟨h.tracks.of_prunes hp, ?_, ?_, ?_, ?_, ?_⟩
  · rw [hp.finalizedHeight, hp.head]
    exact h.finalized_le
  · rw [hp.settledSources, hp.chain, hp.head]
    exact h.settled
  · intro hash deleteAt hlookup
    rw [hp.chain]
    exact h.grace hash deleteAt (hp.graceDeletes hash deleteAt hlookup)
  · intro block hblock htxs
    rw [hp.chain] at hblock
    exact hbundle _ (h.chain block hblock htxs)
  · intro hash block hstored htxs
    refine hbundle hash ?_
    rcases hp.blocks hash with heq | ⟨heq, -⟩ | ⟨heq, -⟩
    · exact h.stored hash block (heq ▸ hstored) htxs
    · rw [heq] at hstored
      obtain ⟨old, hold, rfl⟩ := Option.map_eq_some_iff.mp hstored
      refine h.stored hash old hold fun hnil => htxs ?_
      simp [Block.withoutWitnesses, StrippedBlock.split, StrippedBlock.intoBlock, StrippedBlock.intoTransactions, hnil]
    · rw [heq] at hstored
      cases hstored

/-! ## Committed blocks -/

/-- A stored block brings its bundle, and no other bundle is lost. -/
theorem isSome_bundles_putBlock (r : RetainingNode σ ρ) (block : Block)
    (h : (r.bundles hash).isSome = true ∨ (hash = block.hash M.toCtx ∧ block.transactions ≠ [])) :
    ((r.putBlock M.toCtx block).bundles hash).isSome = true := by
  simp only [putBlock]
  split_ifs with htxs
  · rcases h with h | h
    · exact h
    · exact absurd htxs h.2
  · by_cases heq : hash = block.hash M.toCtx
    · rw [heq, Function.update_self]
      rfl
    · rw [Function.update_of_ne heq]
      rcases h with h | h
      · exact h
      · exact absurd h.1 heq

theorem Retains.staged (h : Retains M r) (hnext : CommittedNext M r.node next block) :
    Retains M (r.staged M next block) := by
  have htracks := h.tracks.staged hnext
  have hnumber := hnext.number
  have hmem : block ∈ r.chain ++ [block] := mem_append_right _ (mem_singleton_self _)
  have hold : ∀ b ∈ r.chain, b ∈ r.chain ++ [block] := fun b hb => mem_append_left _ hb
  have hcovered : ∀ a ∈ block.settlements M, ∀ hash ∈ a.coveredHashes,
      SettledUpTo M (r.chain ++ [block]) block.number hash := by
    intro a ha hash hh
    exact settledUpTo_of_settles hnext.settles hmem (Nat.le_refl _)
      (fun key hkey => (h.settled key hkey).mono hold (by omega)) ha hh
  have hgrace : ∀ hash deleteAt, (r.staged M next block).graceDeletes.lookup hash = some deleteAt →
      SettledUpTo M (r.chain ++ [block]) deleteAt hash := by
    intro hash deleteAt hlookup
    rcases lookup_schedule hlookup with hlookup | ⟨rfl, a, ha, hh⟩
    · exact (h.grace hash deleteAt hlookup).mono hold (Nat.le_refl _)
    · exact (hcovered a ha hash hh).mono (fun _ hb => hb) (Nat.le_min.mpr ⟨Nat.le_add_right _ _, hnext.number_le⟩)
  obtain ⟨authorities, processed, rfl⟩ := hnext.next_eq
  have hkept : ∀ hash, (r.bundles hash).isSome = true ∨ SettledUpTo M r.chain r.finalizedHeight hash →
      ((r.putBlock M.toCtx block).bundles hash).isSome = true ∨
        SettledUpTo M (r.chain ++ [block]) r.finalizedHeight hash := by
    intro hash hkept
    rcases hkept with hsome | hfinal
    · exact .inl (isSome_bundles_putBlock r block (.inl hsome))
    · exact .inr (hfinal.mono hold (Nat.le_refl _))
  rw [staged_eq] at htracks ⊢
  refine ⟨htracks, ?_, ?_, hgrace, ?_, ?_⟩
  · change r.finalizedHeight ≤ block.number
    have := h.finalized_le
    omega
  · intro key hkey
    change key ∈ r.node.settledSources ∪ _ at hkey
    change SettledUpTo M (r.chain ++ [block]) block.number key.2
    rcases Finset.mem_union.mp hkey with hkey | hkey
    · exact (h.settled key hkey).mono hold (by omega)
    · obtain ⟨a, ha, hkey⟩ := mem_flatMap.mp (mem_toFinset.mp hkey)
      obtain ⟨hash, hh, rfl⟩ := mem_map.mp hkey
      exact hcovered a ha hash hh
  · intro b hb htxs
    rcases mem_append.mp hb with hb | hb
    · exact hkept _ (h.chain b hb htxs)
    · obtain rfl := mem_singleton.mp hb
      exact .inl (isSome_bundles_putBlock r b (.inr ⟨rfl, htxs⟩))
  · intro hash b hstored htxs
    rcases Function.update_eq_some.mp hstored with ⟨rfl, rfl⟩ | ⟨-, hstored⟩
    · exact .inl (isSome_bundles_putBlock r block (.inr ⟨rfl, htxs⟩))
    · exact hkept hash (h.stored hash b hstored htxs)

/-! ## Another branch -/

theorem finalizedHeight_of_adopted (hnext : AdoptedFork M r.node next plan) :
    max (next.finalizedNumber.getD 0) next.finality.lastFinalizedNumber =
      if r.node.finality.canFinalizeWeighted plan.preferredHash plan.preferredNumber r.node.engine.validatorWeights.total
      then plan.preferredNumber else r.finalizedHeight := by
  rw [hnext.finality, hnext.finalizedNumber, FinalityState.checkFinalityWeighted_snd]
  unfold FinalityState.checkFinalityWeighted
  split_ifs with hfinal
  · exact Nat.max_self _
  · rfl

theorem Retains.stagedSwitch {reverted : List (List ProofAmendment)} (h : Retains M r)
    (hfacts : PlanFacts M.toCtx r.node plan) (hnext : AdoptedFork M r.node next plan)
    (hcross : r.finalizedHeight ≤ plan.ancestorNumber)
    (hdrop : ∀ block ∈ r.chain.drop (plan.ancestorNumber + 1), ∀ a ∈ block.settlements M, a.layer ≠ 1) :
    Retains M (r.stagedSwitch M next plan reverted) := by
  have htracks : Tracks M.toCtx (r.stagedSwitch M next plan reverted) := h.tracks.stagedSwitch hfacts hnext
  have hpreferred := hfacts.preferred
  have hheight := finalizedHeight_of_adopted hnext
  have hnumbers : ∀ block ∈ plan.newChain, plan.ancestorNumber < block.number ∧ block.number ≤ plan.preferredNumber ∧
      block.number ≤ u64Max ∧ r.node.blocks (block.hash M.toCtx) = some block := by
    intro block hblock
    obtain ⟨i, hi⟩ := mem_iff_getElem?.mp hblock
    have hlt := (List.getElem?_eq_some_iff.mp hi).1
    obtain ⟨hnumber, hle, hstored⟩ := hfacts.newChain i block hi
    exact ⟨by omega, by omega, hle, hstored⟩
  -- what was settled is settled below the ancestor
  have hkept : ∀ {height hash}, SettledUpTo M r.chain height hash →
      SettledUpTo M (r.chain.take (plan.ancestorNumber + 1) ++ plan.newChain) (min height plan.ancestorNumber) hash := by
    intro height hash hs
    obtain ⟨block, hblock, hnumber, a, ha, hlayer, hh⟩ := hs
    rw [← take_append_drop (plan.ancestorNumber + 1) r.chain] at hblock
    have hblock := (mem_append.mp hblock).resolve_right fun hdropped => hdrop block hdropped a ha hlayer
    have hlt := h.tracks.number_lt_of_mem_take hblock
    exact ⟨block, mem_append_left _ hblock, Nat.le_min.mpr ⟨hnumber, by omega⟩, a, ha, hlayer, hh⟩
  have hcovered : ∀ block ∈ plan.newChain, ∀ a ∈ block.settlements M, ∀ hash ∈ a.coveredHashes,
      SettledUpTo M (r.chain.take (plan.ancestorNumber + 1) ++ plan.newChain) block.number hash := by
    intro block hblock a ha hash hh
    refine settledUpTo_of_settles (hnext.settles block hblock) (mem_append_right _ hblock) (Nat.le_refl _) ?_ ha hh
    intro key hkey
    exact (hkept (h.settled key hkey)).mono (fun _ hb => hb)
      ((Nat.min_le_right _ _).trans (hnumbers block hblock).1.le)
  have hgrace : ∀ hash deleteAt, (r.stagedSwitch M next plan reverted).graceDeletes.lookup hash = some deleteAt →
      SettledUpTo M (r.chain.take (plan.ancestorNumber + 1) ++ plan.newChain) deleteAt hash := by
    intro hash deleteAt hlookup
    rcases lookup_foldl_schedule _ _ hlookup with hlookup | ⟨block, hblock, rfl, a, ha, hh⟩
    · have hold := lookup_foldl_cancel hlookup
      exact (hkept (h.grace hash deleteAt hold)).mono (fun _ hb => hb) (Nat.min_le_left _ _)
    · exact (hcovered block hblock a ha hash hh).mono (fun _ hb => hb)
        (Nat.le_min.mpr ⟨Nat.le_add_right _ _, (hnumbers block hblock).2.2.1⟩)
  have hgrows : r.finalizedHeight ≤ max (next.finalizedNumber.getD 0) next.finality.lastFinalizedNumber := by
    rw [hheight]
    split_ifs <;> omega
  have hbundle : ∀ hash, (r.bundles hash).isSome = true ∨ SettledUpTo M r.chain r.finalizedHeight hash →
      (r.bundles hash).isSome = true ∨ SettledUpTo M (r.chain.take (plan.ancestorNumber + 1) ++ plan.newChain)
        (max (next.finalizedNumber.getD 0) next.finality.lastFinalizedNumber) hash := by
    intro hash hb
    rcases hb with hsome | hfinal
    · exact .inl hsome
    · exact .inr ((hkept hfinal).mono (fun _ hb => hb) ((Nat.min_le_left _ _).trans hgrows))
  rw [stagedSwitch_eq] at htracks ⊢
  refine ⟨htracks, ?_, ?_, hgrace, ?_, ?_⟩
  · change max (next.finalizedNumber.getD 0) next.finality.lastFinalizedNumber ≤ next.head.number
    rw [hheight, hnext.head]
    split_ifs <;> omega
  · intro key hkey
    change key ∈ next.settledSources at hkey
    change SettledUpTo M _ next.head.number key.2
    rw [hnext.settledSources] at hkey
    rw [hnext.head]
    rcases Finset.mem_union.mp hkey with hkey | hkey
    · exact (hkept (h.settled key hkey)).mono (fun _ hb => hb) ((Nat.min_le_right _ _).trans (by omega))
    · obtain ⟨block, hblock, hkey⟩ := mem_flatMap.mp (mem_toFinset.mp hkey)
      obtain ⟨a, ha, hkey⟩ := mem_flatMap.mp hkey
      obtain ⟨hash, hh, rfl⟩ := mem_map.mp hkey
      exact (hcovered block hblock a ha hash hh).mono (fun _ hb => hb) (hnumbers block hblock).2.1
  · intro block hblock htxs
    rcases mem_append.mp hblock with hblock | hblock
    · exact hbundle _ (h.chain block (mem_of_mem_take hblock) htxs)
    · exact hbundle _ (h.stored _ block (hnumbers block hblock).2.2.2 htxs)
  · intro hash block hstored htxs
    change next.blocks hash = some block at hstored
    rw [hnext.blocks] at hstored
    exact hbundle hash (h.stored hash block hstored htxs)

/-! ## A start -/

/-- What a store must hold for a node that starts on it: each source of a settlement is settled at the first layer on the
chain, by the same block or before, and the bundles are complete up to final settlements. -/
structure WitnessStore (M : Machine σ ρ) (r : RetainingNode σ ρ) : Prop where
  tracks : Tracks M.toCtx r
  faithful : Faithful M r
  finalized_le : r.finalizedHeight ≤ r.node.head.number
  layered : ∀ block ∈ r.chain, ∀ a ∈ block.settlements M, ∀ h ∈ a.coveredHashes,
    SettledUpTo M r.chain block.number h
  number_le : ∀ block ∈ r.chain, block.number ≤ u64Max
  grace : ∀ h, r.graceDeletes.lookup h = none
  chain : ∀ block ∈ r.chain, block.transactions ≠ [] →
    (r.bundles (block.hash M.toCtx)).isSome = true ∨ SettledUpTo M r.chain r.finalizedHeight (block.hash M.toCtx)
  stored : ∀ h block, r.node.blocks h = some block → block.transactions ≠ [] →
    (r.bundles h).isSome = true ∨ SettledUpTo M r.chain r.finalizedHeight h

theorem retains_of_rebuild (hstore : WitnessStore M r) (h : r.rebuild M = .ok s) : Retains M s := by
  obtain ⟨t, ht, hrebuilt⟩ := rebuild_ok hstore.tracks hstore.faithful
  obtain rfl := Except.ok.inj (h.symm.trans ht)
  obtain ⟨scanned, queue, hqueue, hprunes⟩ := hrebuilt.prunes
  have hsettled : ∀ key ∈ s.node.settledSources, SettledUpTo M r.chain r.node.head.number key.2 := by
    intro key hkey
    obtain ⟨n, block, hblock, -, hkey⟩ := (hrebuilt.settledSources key).mp hkey
    obtain ⟨a, ha, hkey⟩ := mem_flatMap.mp hkey
    obtain ⟨hash, hh, rfl⟩ := mem_map.mp hkey
    have hmem := mem_of_getElem? hblock
    exact (hstore.layered block hmem a ha hash hh).mono (fun _ hb => hb) (hstore.tracks.number_le hmem)
  rw [hprunes.settledSources] at hsettled
  have hbase : Retains M ({ r with node := r.node.withScanned M scanned, graceDeletes := queue } : RetainingNode σ ρ) := by
    refine ⟨⟨hstore.tracks.length, hstore.tracks.number, hstore.tracks.canonical, hstore.tracks.stored⟩,
      hstore.finalized_le, hsettled, ?_, hstore.chain, hstore.stored⟩
    intro hash deleteAt hlookup
    rcases hqueue hash deleteAt hlookup with hold | ⟨n, block, hblock, rfl, a, ha, hh⟩
    · rw [hstore.grace hash] at hold
      cases hold
    · have hmem := mem_of_getElem? hblock
      have hnumber := hstore.tracks.number n block hblock
      refine (hstore.layered block hmem a ha hash hh).mono (fun _ hb => hb) (Nat.le_min.mpr ⟨?_, hstore.number_le block hmem⟩)
      omega
  exact hbase.of_prunes hprunes fun hash hdue => hbase.settledUpTo_of_graceDue hdue

end RetainingNode

end ShellChain
