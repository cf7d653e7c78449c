import ShellChain.Lemmas.SettledChain

/-!
# Nodes that only go forward

In a run without reorganisations, whose finalized height does not fall, the store of a node holds of every canonical block
what was committed or nothing, and every source is settled once at a layer.
-/

namespace ShellChain

open RetainingNode List Function

variable {σ ρ : Type} {M : Machine σ ρ}

/-! ## Sources that are settled once -/

/-- Proofs are bound to their sources at layers up to the third only. The check of the source refuses layers above the
second. -/
def BindsLayers (M : Machine σ ρ) : Prop :=
  ∀ blocks a, M.proofSourceBinding blocks a = true → a.layer ≤ 3

variable {block : Block} {chain : List Block} {Γ : Ctx} {B W : ShellHash → Prop} {r s : RetainingNode σ ρ}
  {input : NodeInput} {next : ChainNode σ ρ}

/-- A block settles no source again at a layer at which it is settled. -/
theorem Settles.not_mem (hlayers : BindsLayers M) {node : ChainNode σ ρ} (h : Settles M node block) {key : SourceKey}
    (hkey : key ∈ block.settledKeys M) : key ∉ node.settledSources := by
  obtain ⟨a, ha, hkey⟩ := mem_flatMap.mp hkey
  obtain ⟨hash, hh, rfl⟩ := mem_map.mp hkey
  have hbelow : 1 ≤ a.layer ∧ (node.settlementView M).settledLayer hash < a.layer := by
    refine SettlementView.validateSequence_induction (v := node.settlementView M)
      (I := (node.settlementView M).OverlaySound)
      (Q := fun a => ∀ hash ∈ a.coveredHashes, 1 ≤ a.layer ∧ (node.settlementView M).settledLayer hash < a.layer)
      ?_ (SettlementView.overlaySound_empty _) h.sequence a ha hash hh
    intro overlay a _ hoverlay haccepted
    refine ⟨haccepted.overlaySound hoverlay, fun hash hh => ⟨haccepted.layer_pos, ?_⟩⟩
    exact (SettlementView.settledLayer_le_compressionLayer hoverlay hash).trans_lt (haccepted.below hash hh)
  intro hmem
  have hlayer : a.layer ∈ [1, 2, 3] := by
    have hle := hlayers _ a (h.binding a ha)
    have hpos := hbelow.1
    simp only [mem_cons, not_mem_nil, or_false]
    omega
  have hle := SettlementView.le_settledLayer (v := node.settlementView M) hlayer hmem
  omega

/-! ## Nodes that only go forward -/

/-- No two blocks of a chain settle the same source at the same layer. -/
def SettlesOnce (M : Machine σ ρ) (chain : List Block) : Prop :=
  ∀ (n m : Nat) (block other : Block) (key : SourceKey), chain[n]? = some block → chain[m]? = some other →
    key ∈ block.settledKeys M → key ∈ other.settledKeys M → n = m

/-- The blocks of a chain have distinct hashes. -/
def DistinctHashes (Γ : Ctx) (chain : List Block) : Prop :=
  ∀ (n m : Nat) (block other : Block), chain[n]? = some block → chain[m]? = some other →
    block.hash Γ = other.hash Γ → n = m

theorem DistinctHashes.of_append (h : DistinctHashes Γ (chain ++ [block])) : DistinctHashes Γ chain := by
  intro n m b b' hn hm
  refine h n m b b' ?_ ?_
  · rw [getElem?_append_left (List.getElem?_eq_some_iff.mp hn).1, hn]
  · rw [getElem?_append_left (List.getElem?_eq_some_iff.mp hm).1, hm]

theorem DistinctHashes.ne_last (h : DistinctHashes Γ (chain ++ [block])) : ∀ b ∈ chain, b.hash Γ ≠ block.hash Γ := by
  intro b hb heq
  obtain ⟨n, hn⟩ := mem_iff_getElem?.mp hb
  have hlt := (List.getElem?_eq_some_iff.mp hn).1
  have hlast : (chain ++ [block])[chain.length]? = some block := by simp
  have := h n _ b block (by rw [getElem?_append_left hlt, hn]) hlast heq
  omega

theorem distinctHashes_of_nodup (h : (chain.map (Block.hash Γ)).Nodup) : DistinctHashes Γ chain := by
  intro n m block other hn hm heq
  have hlt : n < (chain.map (Block.hash Γ)).length := by simpa using (List.getElem?_eq_some_iff.mp hn).1
  refine (getElem?_inj hlt h).mp ?_
  rw [getElem?_map, getElem?_map, hn, hm, Option.map_some, Option.map_some, heq]

/-- What the store holds above the finalized height: every canonical hash, and nothing finalized that the node does not
know. -/
structure MappedAboveFinal (r : RetainingNode σ ρ) : Prop where
  persisted : r.node.finalizedNumber.getD 0 ≤ r.node.finality.lastFinalizedNumber
  prunable : r.statePruner.prunableBelow ≤ r.node.finality.lastFinalizedNumber
  mapped : ∀ n, r.node.finality.lastFinalizedNumber ≤ n → n ≤ r.node.head.number → (r.node.canonical n).isSome = true

theorem MappedAboveFinal.of_prunes (h : MappedAboveFinal r) (hp : Prunes W B r s) : MappedAboveFinal s := by
  have hfinality : s.node.finality = r.node.finality := by rw [hp.node]
  have hnumber : s.node.finalizedNumber = r.node.finalizedNumber := by rw [hp.node]
  obtain ⟨hprunable, hcanonical⟩ := hp.mapped r.node.finality.lastFinalizedNumber
    (Nat.max_le.mpr ⟨h.persisted, Nat.le_refl _⟩) h.prunable
  refine ⟨?_, ?_, ?_⟩
  · rw [hnumber, hfinality]
    exact h.persisted
  · rw [hfinality]
    exact hprunable
  · intro n hle hn
    rw [hfinality] at hle
    rw [hp.head] at hn
    rw [hcanonical n hle]
    exact h.mapped n hle hn

theorem RetainingNode.Faithful.of_prunes (h : Faithful M r) (hp : Prunes W B r s) : Faithful M s := by
  refine ⟨?_, ?_⟩
  · intro block stored hblock hstored
    rw [hp.chain] at hblock
    rcases hp.blocks (block.hash M.toCtx) with heq | ⟨heq, -⟩ | ⟨heq, -⟩
    · exact h.stored block stored hblock (heq ▸ hstored)
    · rw [heq] at hstored
      obtain ⟨old, hold, rfl⟩ := Option.map_eq_some_iff.mp hstored
      exact h.stored block old hblock hold
    · rw [heq] at hstored
      cases hstored
  · rw [hp.chain]
    exact h.extra

/-- A node in memory and on disk after a run without reorganisations. -/
structure Anchored (M : Machine σ ρ) (r : RetainingNode σ ρ) : Prop where
  settledByChain : SettledByChain M r
  faithful : Faithful M r
  once : SettlesOnce M r.chain
  mapped : MappedAboveFinal r

/-- The input keeps the chain: no block is reverted, the finalized height does not fall, and an imported block has the hash
of a canonical one at its own height only. -/
def KeepsChain (M : Machine σ ρ) (r : RetainingNode σ ρ) : NodeInput → Prop
  | .produce _ _ _ _ _ => True
  | .importBlock _ imported _ _ => ∀ block ∈ r.chain, imported.hash M.toCtx = block.hash M.toCtx →
      imported.number = block.number
  | .consensus _ _ finality finalizedNumber =>
      r.node.finality.lastFinalizedNumber ≤ finality.lastFinalizedNumber ∧
        finalizedNumber.getD 0 ≤ finality.lastFinalizedNumber
  | _ => False

theorem revertsNoSettlement_of_keepsChain (h : KeepsChain M r input) : RevertsNoSettlement M r input := by
  cases input with
  | adoptFork | recover => exact h.elim
  | produce | importBlock | consensus => trivial

theorem SettlesOnce.concat (h : SettlesOnce M chain) (hnew : ∀ key ∈ block.settledKeys M, key ∉ chainKeys M chain) :
    SettlesOnce M (chain ++ [block]) := by
  have habsent : ∀ {n : Nat} {b : Block} {key}, chain[n]? = some b → key ∈ b.settledKeys M → key ∉ block.settledKeys M :=
    fun hb hkey hblock => hnew _ hblock (mem_flatMap.mpr ⟨_, mem_of_getElem? hb, hkey⟩)
  intro n m b b' key hn hm hkey hkey'
  rcases getElem?_concat hn with hb | ⟨hlast, rfl⟩
  · rcases getElem?_concat hm with hb' | ⟨-, rfl⟩
    · exact h n m b b' key hb hb' hkey hkey'
    · exact absurd hkey' (habsent hb hkey)
  · rcases getElem?_concat hm with hb' | ⟨hlast', -⟩
    · exact absurd hkey (habsent hb' hkey')
    · exact hlast.trans hlast'.symm

theorem MappedAboveFinal.staged (h : MappedAboveFinal r) (hnext : CommittedNext M r.node next block) :
    MappedAboveFinal (r.staged M next block) := by
  have hnumber := hnext.number
  obtain ⟨authorities, processed, rfl⟩ := hnext.next_eq
  rw [staged_eq]
  refine ⟨h.persisted, h.prunable, fun n hle hn => ?_⟩
  change n ≤ block.number at hn
  change (update r.node.canonical block.number _ n).isSome = true
  by_cases heq : n = block.number
  · rw [heq, update_self]
    rfl
  · rw [update_of_ne heq]
    exact h.mapped n hle (by omega)

theorem RetainingNode.Faithful.staged (h : Faithful M r) (hnext : CommittedNext M r.node next block)
    (hdistinct : ∀ b ∈ r.chain, b.hash M.toCtx ≠ block.hash M.toCtx) : Faithful M (r.staged M next block) := by
  have hextra := hnext.settles.extra
  obtain ⟨authorities, processed, rfl⟩ := hnext.next_eq
  rw [staged_eq]
  refine ⟨?_, ?_⟩
  · intro b stored hb hstored
    change update r.node.blocks (block.hash M.toCtx) (some block) (b.hash M.toCtx) = some stored at hstored
    rcases mem_append.mp hb with hb | hb
    · rw [update_of_ne (hdistinct b hb)] at hstored
      exact h.stored b stored hb hstored
    · obtain rfl := mem_singleton.mp hb
      rw [update_self] at hstored
      obtain rfl := Option.some.inj hstored
      exact ⟨rfl, rfl⟩
  · exact forall_mem_append.mpr ⟨h.extra, forall_mem_singleton.mpr hextra⟩

/-- A fork block does not have the hash of a canonical one. -/
theorem Anchored.hash_ne_of_fork (h : Anchored M r) {fork : Block} (hfork : ForkPlace M.toCtx r fork)
    (hheight : ∀ block ∈ r.chain, fork.hash M.toCtx = block.hash M.toCtx → fork.number = block.number) :
    ∀ block ∈ r.chain, fork.hash M.toCtx ≠ block.hash M.toCtx := by
  intro block hblock heq
  have hnumber := hheight block hblock heq
  have hle := h.settledByChain.tracks.number_le hblock
  rcases hfork with ⟨hhead, hfinal, hne⟩ | hnext
  · -- the height is above the finalized one, so its canonical hash is still there
    obtain ⟨hash, hhash⟩ := Option.isSome_iff_exists.mp (h.mapped.mapped fork.number hfinal.le hhead)
    obtain ⟨canonical, hcanonical, rfl⟩ := h.settledByChain.tracks.canonical _ _ hhash
    obtain ⟨n, hn⟩ := mem_iff_getElem?.mp hblock
    rw [hnumber, h.settledByChain.tracks.number n block hn, hn] at hcanonical
    obtain rfl := Option.some.inj hcanonical
    exact hne (hhash.trans (congrArg some heq.symm))
  · omega

/-- A step that keeps the chain, when the hashes of the chain it leaves are distinct. -/
theorem Anchored.moves (hlayers : BindsLayers M) (h : DistinctHashes M.toCtx r.chain → Anchored M r)
    (hkeeps : KeepsChain M r input) (hmoves : RetainingNode.Moves M r input s) (hdistinct : DistinctHashes M.toCtx s.chain) :
    Anchored M s := by
  have hsettled : SettledByChain M r → SettledByChain M s :=
    fun hr => hr.moves (revertsNoSettlement_of_keepsChain hkeeps) hmoves
  cases hmoves with
  | stay => exact h hdistinct
  | store hfork =>
    rename_i fork _ _
    have hr := h hdistinct
    have hne := hr.hash_ne_of_fork hfork hkeeps
    refine ⟨hsettled hr.settledByChain, ⟨?_, hr.faithful.extra⟩, hr.once, ⟨hr.mapped.persisted, hr.mapped.prunable,
      hr.mapped.mapped⟩⟩
    intro b stored hb hstored
    change update r.node.blocks (fork.hash M.toCtx) (some fork) (b.hash M.toCtx) = some stored at hstored
    rw [update_of_ne (hne b hb).symm] at hstored
    exact hr.faithful.stored b stored hb hstored
  | extend _ hnext =>
    rename_i next block trie _
    have hprunes := prunes_extend (M := M) r next block trie
    rw [chain_extend] at hdistinct
    have hr := h hdistinct.of_append
    have hne := hdistinct.ne_last
    refine ⟨hsettled hr.settledByChain, (hr.faithful.staged hnext hne).of_prunes hprunes, ?_,
      (hr.mapped.staged hnext).of_prunes hprunes⟩
    rw [chain_extend]
    refine hr.once.concat fun key hkey hmem => hnext.settles.not_mem hlayers hkey ?_
    rw [hr.settledByChain.settled]
    exact mem_toFinset.mpr hmem
  | adopt | recover => exact hkeeps.elim
  | consensus =>
    have hr := h hdistinct
    obtain ⟨hgrows, hpersisted⟩ := hkeeps
    exact ⟨hsettled hr.settledByChain, ⟨hr.faithful.stored, hr.faithful.extra⟩, hr.once, ⟨hpersisted,
      hr.mapped.prunable.trans hgrows, fun n hle hn => hr.mapped.mapped n (hgrows.trans hle) hn⟩⟩

/-! ## A start -/

/-- A store from which every settlement of the chain can be read. -/
structure SettlementStore (M : Machine σ ρ) (r : RetainingNode σ ρ) : Prop where
  tracks : Tracks M.toCtx r
  faithful : Faithful M r
  readable : SettlementsReadable M r
  once : SettlesOnce M r.chain
  mapped : MappedAboveFinal r

theorem anchored_of_rebuild {store : RetainingNode σ ρ} (hstore : SettlementStore M store) (h : store.rebuild M = .ok r) :
    Anchored M r := by
  have hsettled := settledByChain_of_rebuild hstore.tracks hstore.faithful hstore.readable h
  obtain ⟨s, hs, hrebuilt⟩ := rebuild_ok hstore.tracks hstore.faithful
  obtain rfl := Except.ok.inj (h.symm.trans hs)
  obtain ⟨scanned, queue, -, hprunes⟩ := hrebuilt.prunes
  have hfaithful : Faithful M ({ store with node := store.node.withScanned M scanned, graceDeletes := queue } :
      RetainingNode σ ρ) := ⟨hstore.faithful.stored, hstore.faithful.extra⟩
  have hmapped : MappedAboveFinal ({ store with node := store.node.withScanned M scanned, graceDeletes := queue } :
      RetainingNode σ ρ) := ⟨hstore.mapped.persisted, hstore.mapped.prunable, hstore.mapped.mapped⟩
  refine ⟨hsettled, hfaithful.of_prunes hprunes, ?_, hmapped.of_prunes hprunes⟩
  rw [hrebuilt.chain]
  exact hstore.once

end ShellChain
