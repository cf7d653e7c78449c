import ShellChain.Lemmas.CanonicalChain

/-!
# The order of settlements

A node that only goes forward settles every layer from the genesis block on, without a gap. How many canonical blocks are
settled at a layer says everything about it: the ordering checks accept a settlement only where this count ends, and only
over blocks that the layer below has reached.
-/

namespace ShellChain

open Checks Function List

variable {σ ρ : Type} {M : Machine σ ρ}

/-! ## Blocks that settle -/

/-- A node with the sources that its blocks have settled, in the order in which they were paid. -/
structure SettlingNode (σ ρ : Type) where
  node : ChainNode σ ρ
  paid : List SourceKey

/-- A block with settlements on top of the head: they are validated before the block is committed and recorded after
it. A block whose settlements are refused is not committed. -/
def settleBlock (M : Machine σ ρ) (s : SettlingNode σ ρ) (block : Block) (processed : Processed σ ρ) : SettlingNode σ ρ :=
  match (s.node.settlementView M).validateStarkSettlementSequence processed.settlements with
  | .error _ => s
  | .ok () =>
    ⟨(s.node.commitCanonical M.toCtx block processed).recordSettledSources processed.settlements,
      s.paid ++ processed.settlements.flatMap ProofAmendment.sourceKeys⟩

/-- The blocks of a chain that only grows. -/
def settlementSystem (M : Machine σ ρ) : TransitionSystem (SettlingNode σ ρ) (Block × Processed σ ρ) where
  step s input := settleBlock M s input.1 input.2

/-- The block is the next one of the chain, and no canonical block has its hash. -/
def ExtendsChain (M : Machine σ ρ) (s : SettlingNode σ ρ) (input : Block × Processed σ ρ) : Prop :=
  input.1.number = s.node.head.number + 1 ∧ ∀ n ≤ s.node.head.number, s.node.canonical n ≠ some (input.1.hash M.toCtx)

instance decidableExtendsChain (M : Machine σ ρ) (s : SettlingNode σ ρ) (input : Block × Processed σ ρ) :
    Decidable (ExtendsChain M s input) :=
  inferInstanceAs (Decidable (_ ∧ _))

/-! ## Ranges of a chain -/

namespace SettlementView

variable {v : SettlementView} {overlay : LayerOverlay}

/-- The canonical chain has a stored block at every height up to the head and nowhere else, no block twice. -/
structure Linear (v : SettlementView) : Prop where
  present : ∀ n ≤ v.headNumber, ∃ h, v.canonicalHash n = some h
  below : ∀ n h, v.canonicalHash n = some h → n ≤ v.headNumber
  injective : ∀ n m h, v.canonicalHash n = some h → v.canonicalHash m = some h → n = m
  stored : ∀ n h, v.canonicalHash n = some h → v.storedSource h = true

variable {number l : Nat} {source : ShellHash} {sources : List ShellHash} {counts : Nat → Nat} {paid : List SourceKey}
  {a : ProofAmendment}

/-- A canonical block is among the sources of a range exactly when its height is in the range. -/
theorem Linear.mem_sources_iff (hlinear : v.Linear) (h : v.checkCanonical number sources = .ok ()) {n : Nat}
    {hash : ShellHash} (hn : v.canonicalHash n = some hash) : hash ∈ sources ↔ number ≤ n ∧ n < number + sources.length := by
  constructor
  · intro hmem
    obtain ⟨i, hi⟩ := mem_iff_getElem?.mp hmem
    have hlt := (List.getElem?_eq_some_iff.mp hi).1
    have heq := hlinear.injective _ _ _ hn (canonical_of_checkCanonical h hi)
    omega
  · rintro ⟨hle, hlt⟩
    have hi : sources[n - number]? = some sources[n - number] := getElem?_eq_getElem (by omega)
    have hcanonical := canonical_of_checkCanonical h hi
    rw [Nat.add_sub_cancel' hle, hn] at hcanonical
    rw [Option.some.inj hcanonical]
    exact getElem_mem _

theorem Linear.nodup_sources (hlinear : v.Linear) (h : v.checkCanonical number sources = .ok ()) : sources.Nodup := by
  rw [nodup_iff_getElem?_ne_getElem?]
  intro i j hij hj heq
  have hi := canonical_of_checkCanonical h (getElem?_eq_getElem hj)
  have hi' := canonical_of_checkCanonical h (heq.trans (getElem?_eq_getElem hj))
  have := hlinear.injective _ _ _ hi hi'
  omega

/-! ## The counts of the layers -/

/-- The sources that are settled at the three layers are the first canonical blocks, as many as the counts say, and none
is settled twice at a layer. -/
structure PaidUpTo (v : SettlementView) (paid : List SourceKey) (counts : Nat → Nat) : Prop where
  mem_iff : ∀ n h, v.canonicalHash n = some h → ∀ l, 1 ≤ l → l ≤ 3 → ((l, h) ∈ paid ↔ n < counts l)
  counts_le : ∀ l, 1 ≤ l → l ≤ 3 → counts l ≤ v.headNumber + 1
  antitone : ∀ l, 1 ≤ l → l + 1 ≤ 3 → counts (l + 1) ≤ counts l
  canonical : ∀ key ∈ paid, 1 ≤ key.1 ∧ ∃ n, v.canonicalHash n = some key.2
  once : (paid.filter fun key => key.1 ≤ 3).Nodup

/-- The layers that the checks see are those of the counts. -/
def LayersMatch (v : SettlementView) (overlay : LayerOverlay) (counts : Nat → Nat) : Prop :=
  ∀ n h, v.canonicalHash n = some h → ∀ l, 1 ≤ l → l ≤ 3 → (l ≤ v.compressionLayerForSource overlay h ↔ n < counts l)

theorem PaidUpTo.counts_antitone (h : v.PaidUpTo paid counts) {l' : Nat} (hl : 1 ≤ l) (hle : l ≤ l') (hl' : l' ≤ 3) :
    counts l' ≤ counts l := by
  induction l', hle using Nat.le_induction with
  | base => exact Nat.le_refl _
  | succ l' hle ih => exact (h.antitone l' (hl.trans hle) hl').trans (ih (by omega))

/-- Between blocks the layers that the checks see are those of the settled sources. -/
theorem PaidUpTo.layersMatch (h : v.PaidUpTo paid counts) (hsettled : v.settledSources = paid.toFinset) :
    v.LayersMatch (fun _ => none) counts := by
  intro n hash hn l hl hl3
  rw [← h.mem_iff n hash hn l hl hl3]
  constructor
  · intro hle
    have hpos : 0 < v.settledLayer hash := Nat.lt_of_lt_of_le hl hle
    obtain ⟨hlayer, hmem⟩ := mem_of_settledLayer_pos hpos
    simp only [mem_cons, not_mem_nil, or_false] at hlayer
    rw [hsettled, mem_toFinset, h.mem_iff n hash hn _ hpos (by omega)] at hmem
    rw [h.mem_iff n hash hn l hl hl3]
    exact hmem.trans_le (h.counts_antitone hl hle (by omega))
  · intro hmem
    refine le_settledLayer ?_ ?_
    · simp only [mem_cons, not_mem_nil, or_false]
      omega
    · rw [hsettled, mem_toFinset]
      exact hmem

/-! ## An accepted settlement -/

/-- What the acceptance of a settlement says about its range. -/
theorem range_of_ordering (h : v.validateStarkAmendmentOrdering overlay a = .ok ()) :
    v.checkCanonical (v.firstCanonicalBlockBelowLayer overlay a.layer) a.coveredHashes = .ok () ∧ a.coveredHashes ≠ [] := by
  simp only [validateStarkAmendmentOrdering, bind_ok_iff, ensure_ok_iff, decide_eq_true_eq] at h
  obtain ⟨start, hrange, _, -, hstart⟩ := h
  subst hstart
  refine ⟨(validateRange_ok hrange).2, ?_⟩
  simp only [validateStarkAmendmentRange, bind_ok_iff, ensure_ok_iff, decide_eq_true_eq] at hrange
  obtain ⟨_, -, _, -, _, -, _, hne, -⟩ := hrange
  exact hne

/-- A settlement at one of the three layers starts where the count of its layer ends. -/
theorem Linear.start_eq (hlinear : v.Linear) (hmatch : v.LayersMatch overlay counts) (hsound : v.FrontiersSound)
    (hoverlay : v.OverlaySound overlay) (hl3 : a.layer ≤ 3) (hle : counts a.layer ≤ v.headNumber + 1)
    (h : v.validateStarkAmendmentOrdering overlay a = .ok ()) :
    v.checkCanonical (counts a.layer) a.coveredHashes = .ok () := by
  have haccepted := accepted_of_ordering h
  obtain ⟨hcanonical, hne⟩ := range_of_ordering h
  by_cases hhead : counts a.layer ≤ v.headNumber
  · -- the search for the frontier ends where the count does
    obtain ⟨hash, hhash⟩ := hlinear.present _ hhead
    have hskip := frontierFrom_skip (v := v) overlay a.layer (counts a.layer) 0 (v.headNumber + 1 - counts a.layer)
      fun n _ hn h hh => (hmatch n h hh a.layer haccepted.layer_pos hl3).mpr (by omega)
    have hnot : ¬ a.layer ≤ v.compressionLayerForSource overlay hash :=
      fun hlayer => Nat.lt_irrefl _ ((hmatch _ hash hhash a.layer haccepted.layer_pos hl3).mp hlayer)
    rw [firstCanonicalBlockBelowLayer_eq hsound hoverlay, ← Nat.sub_add_cancel hle, hskip, Nat.zero_add,
      show v.headNumber + 1 - counts a.layer = v.headNumber - counts a.layer + 1 by omega, frontierFrom, hhash] at hcanonical
    simpa [isStarkCompressionSource, hlinear.stored _ hash hhash, Nat.lt_of_not_le hnot] using hcanonical
  · -- every canonical block has the layer, so the first source has it too
    obtain ⟨first, hfirst⟩ := exists_mem_of_ne_nil _ hne
    obtain ⟨n, hn⟩ := haccepted.canonical first hfirst
    have hbelow := hlinear.below n first hn
    have hlayer := (hmatch n first hn a.layer haccepted.layer_pos hl3).mpr (by omega)
    exact absurd (haccepted.below first hfirst) (Nat.not_lt.mpr hlayer)

def countsAfter (counts : Nat → Nat) (a : ProofAmendment) : Nat → Nat :=
  Function.update counts a.layer (counts a.layer + a.coveredHashes.length)

/-- The layer of a source just before it is settled. -/
theorem Accepted.layer_eq (h : Accepted v overlay a) (hmem : source ∈ a.coveredHashes) :
    v.compressionLayerForSource overlay source + 1 = a.layer := by
  have hpos := h.layer_pos
  have hbelow := h.below source hmem
  rcases h.next source hmem with hone | hnext
  · omega
  · exact hnext

theorem compressionLayer_insertCovered (a : ProofAmendment) (source : ShellHash) :
    v.compressionLayerForSource (overlay.insertCovered a) source =
      if source ∈ a.coveredHashes then a.layer else v.compressionLayerForSource overlay source := by
  unfold compressionLayerForSource LayerOverlay.insertCovered
  split_ifs <;> rfl

/-- A settlement above the third layer changes neither the counts nor which of the three layers a block has reached. -/
theorem LayersMatch.insert_above (hmatch : v.LayersMatch overlay counts) (hlayer : 3 < a.layer) (h : Accepted v overlay a) :
    v.LayersMatch (overlay.insertCovered a) counts := by
  intro n hash hn l hl hl3
  rw [← hmatch n hash hn l hl hl3, compressionLayer_insertCovered]
  split_ifs with hmem
  · have := h.layer_eq hmem
    omega
  · rfl

/-- A settlement at one of the three layers moves the count of its layer. -/
theorem LayersMatch.insert (hlinear : v.Linear) (hmatch : v.LayersMatch overlay counts) (h : Accepted v overlay a)
    (hrange : v.checkCanonical (counts a.layer) a.coveredHashes = .ok ()) :
    v.LayersMatch (overlay.insertCovered a) (countsAfter counts a) := by
  intro n hash hn l hl hl3
  have hmatch := hmatch n hash hn l hl hl3
  have hmem_iff := hlinear.mem_sources_iff hrange hn
  rw [compressionLayer_insertCovered, countsAfter]
  by_cases hmem : hash ∈ a.coveredHashes
  · have hbefore := h.layer_eq hmem
    have hin := hmem_iff.mp hmem
    rw [if_pos hmem]
    by_cases heq : l = a.layer
    · subst heq
      rw [update_self]
      omega
    · rw [update_of_ne heq, ← hmatch]
      omega
  · have hout := mt hmem_iff.mpr hmem
    rw [if_neg hmem]
    by_cases heq : l = a.layer
    · subst heq
      rw [update_self, hmatch]
      omega
    · rw [update_of_ne heq, hmatch]

/-! ## A validated sequence -/

theorem mem_sourceKeys {key : SourceKey} : key ∈ a.sourceKeys ↔ key.1 = a.layer ∧ key.2 ∈ a.coveredHashes := by
  obtain ⟨l, hash⟩ := key
  simp [ProofAmendment.sourceKeys, eq_comm, and_comm]

theorem PaidUpTo.append (h : v.PaidUpTo paid counts) (hlinear : v.Linear) (hmatch : v.LayersMatch overlay counts)
    (hl3 : a.layer ≤ 3) (haccepted : Accepted v overlay a) (hne : a.coveredHashes ≠ [])
    (hrange : v.checkCanonical (counts a.layer) a.coveredHashes = .ok ()) :
    v.PaidUpTo (paid ++ a.sourceKeys) (countsAfter counts a) := by
  have hpos := haccepted.layer_pos
  -- the last source bounds the new count
  have hlength := length_pos_iff.mpr hne
  have hlast := canonical_of_checkCanonical hrange
    (getElem?_eq_getElem (Nat.sub_lt hlength Nat.one_pos) : a.coveredHashes[a.coveredHashes.length - 1]? = _)
  have hhead := hlinear.below _ _ hlast
  have hlayer := haccepted.layer_eq (getElem_mem (Nat.sub_lt hlength Nat.one_pos))
  refine ⟨?_, ?_, ?_, ?_, ?_⟩
  · intro n hash hn l hl hl3
    rw [mem_append, h.mem_iff n hash hn l hl hl3, mem_sourceKeys, hlinear.mem_sources_iff hrange hn, countsAfter]
    by_cases heq : l = a.layer
    · subst heq
      rw [update_self]
      omega
    · rw [update_of_ne heq]
      omega
  · intro l hl hl3
    rw [countsAfter]
    by_cases heq : l = a.layer
    · subst heq
      rw [update_self]
      omega
    · rw [update_of_ne heq]
      exact h.counts_le l hl hl3
  · intro l hl hl3
    have hold := h.antitone l hl hl3
    rw [countsAfter]
    by_cases heq : l + 1 = a.layer
    · have hreached := (hmatch _ _ hlast l hl (by omega)).mp (by omega)
      rw [heq, update_self, update_of_ne (by omega)]
      omega
    · rw [update_of_ne heq]
      by_cases heq' : l = a.layer
      · subst heq'
        rw [update_self]
        omega
      · rw [update_of_ne heq']
        exact hold
  · intro key hkey
    rcases mem_append.mp hkey with hkey | hkey
    · exact h.canonical key hkey
    · obtain ⟨hfst, hsnd⟩ := mem_sourceKeys.mp hkey
      exact ⟨hfst ▸ hpos, haccepted.canonical _ hsnd⟩
  · rw [filter_append, nodup_append']
    refine ⟨h.once, List.Nodup.filter _ ?_, ?_⟩
    · exact (hlinear.nodup_sources hrange).map fun _ _ heq => (Prod.mk.inj heq).2
    · intro key hold hnew
      have hold := mem_of_mem_filter hold
      obtain ⟨hfst, hsnd⟩ := mem_sourceKeys.mp (mem_of_mem_filter hnew)
      obtain ⟨n, hn⟩ := haccepted.canonical _ hsnd
      have hlt := (h.mem_iff n key.2 hn a.layer hpos hl3).mp (hfst ▸ hold)
      have hin := (hlinear.mem_sources_iff hrange hn).mp hsnd
      omega

theorem PaidUpTo.append_above (h : v.PaidUpTo paid counts) (hlayer : 3 < a.layer) (haccepted : Accepted v overlay a) :
    v.PaidUpTo (paid ++ a.sourceKeys) counts := by
  refine ⟨?_, h.counts_le, h.antitone, ?_, ?_⟩
  · intro n hash hn l hl hl3
    rw [mem_append, h.mem_iff n hash hn l hl hl3, or_iff_left]
    intro hkey
    have hfst : l = a.layer := (mem_sourceKeys.mp hkey).1
    omega
  · intro key hkey
    rcases mem_append.mp hkey with hkey | hkey
    · exact h.canonical key hkey
    · obtain ⟨hfst, hsnd⟩ := mem_sourceKeys.mp hkey
      exact ⟨hfst ▸ haccepted.layer_pos, haccepted.canonical _ hsnd⟩
  · have hnone : a.sourceKeys.filter (fun key => key.1 ≤ 3) = [] := by
      rw [filter_eq_nil_iff]
      intro key hkey
      have hfst := (mem_sourceKeys.mp hkey).1
      simp only [decide_eq_true_eq]
      omega
    rw [filter_append, hnone, append_nil]
    exact h.once

/-- A validated sequence leaves the settled sources of every layer a first part of the chain. -/
theorem PaidUpTo.sequence (hlinear : v.Linear) (hsound : v.FrontiersSound) {amendments : List ProofAmendment}
    (h : v.PaidUpTo paid counts) (hmatch : v.LayersMatch overlay counts) (hoverlay : v.OverlaySound overlay)
    (hok : v.validateSequenceFrom overlay amendments = .ok ()) :
    ∃ counts', v.PaidUpTo (paid ++ amendments.flatMap ProofAmendment.sourceKeys) counts' := by
  induction amendments generalizing overlay paid counts with
  | nil => exact ⟨counts, by simpa using h⟩
  | cons a rest ih =>
    simp only [validateSequenceFrom, bind_ok_iff] at hok
    obtain ⟨_, hfirst, hrest⟩ := hok
    have haccepted := accepted_of_ordering hfirst
    have hoverlay' := haccepted.overlaySound hoverlay
    rw [flatMap_cons, ← append_assoc]
    by_cases hl3 : a.layer ≤ 3
    · have hrange := hlinear.start_eq hmatch hsound hoverlay hl3 (h.counts_le _ haccepted.layer_pos hl3) hfirst
      exact ih (h.append hlinear hmatch hl3 haccepted (range_of_ordering hfirst).2 hrange)
        (hmatch.insert hlinear haccepted hrange) hoverlay' hrest
    · have habove := Nat.lt_of_not_le hl3
      exact ih (h.append_above habove haccepted) (hmatch.insert_above habove haccepted) hoverlay' hrest

end SettlementView

/-! ## A chain that only grows -/

/-- A node that has settled its chain in order. -/
structure SettledInOrder (M : Machine σ ρ) (s : SettlingNode σ ρ) : Prop where
  linear : (s.node.settlementView M).Linear
  frontiers : FrontiersOk M s.node
  noLayerZero : s.node.settledFrontiers 0 = none
  settled : s.node.settledSources = s.paid.toFinset
  counts : ∃ counts, (s.node.settlementView M).PaidUpTo s.paid counts

variable {block : Block} {node : ChainNode σ ρ} {processed : Processed σ ρ}

section

variable (hnumber : block.number = node.head.number + 1)
  (hfresh : ∀ n ≤ node.head.number, node.canonical n ≠ some (block.hash M.toCtx))

include hnumber hfresh

theorem SettlementView.Linear.commit (h : (node.settlementView M).Linear) :
    (((node.commitCanonical M.toCtx block processed).recordSettledSources processed.settlements).settlementView M).Linear := by
  have hcases : ∀ n hash, update node.canonical block.number (some (block.hash M.toCtx)) n = some hash →
      (n = block.number ∧ hash = block.hash M.toCtx) ∨ (n ≤ node.head.number ∧ node.canonical n = some hash) := by
    intro n hash hn
    rcases update_eq_some.mp hn with ⟨rfl, rfl⟩ | ⟨-, hn⟩
    · exact .inl ⟨rfl, rfl⟩
    · exact .inr ⟨h.below n hash hn, hn⟩
  refine ⟨?_, ?_, ?_, ?_⟩
  · intro n hn
    change n ≤ block.number at hn
    change ∃ hash, update node.canonical block.number _ n = some hash
    by_cases heq : n = block.number
    · exact ⟨_, by rw [heq, update_self]⟩
    · rw [update_of_ne heq]
      exact h.present n (show n ≤ node.head.number by omega)
  · intro n hash hn
    change n ≤ block.number
    rcases hcases n hash hn with ⟨rfl, -⟩ | ⟨hle, -⟩
    · exact Nat.le_refl _
    · omega
  · intro n m hash hn hm
    rcases hcases n hash hn with ⟨rfl, rfl⟩ | ⟨hle, hold⟩
    · rcases hcases m _ hm with ⟨rfl, -⟩ | ⟨hle, hold⟩
      · rfl
      · exact absurd hold (hfresh m hle)
    · rcases hcases m hash hm with ⟨rfl, rfl⟩ | ⟨-, hold'⟩
      · exact absurd hold (hfresh n hle)
      · exact h.injective n m hash hold hold'
  · intro n hash hn
    change (node.storedArtifact hash || (update node.blocks (block.hash M.toCtx) (some block) hash).isSome) = true
    by_cases heq : hash = block.hash M.toCtx
    · rw [heq, update_self, Option.isSome_some, Bool.or_true]
    · rw [update_of_ne heq]
      rcases hcases n hash hn with ⟨-, hash_eq⟩ | ⟨-, hold⟩
      · exact absurd hash_eq heq
      · exact h.stored n hash hold

/-- The block on top of the head is settled nowhere. -/
theorem SettlementView.PaidUpTo.commit (hlinear : (node.settlementView M).Linear) {paid : List SourceKey}
    {counts : Nat → Nat} (h : (node.settlementView M).PaidUpTo paid counts) :
    (((node.commitCanonical M.toCtx block processed).recordSettledSources processed.settlements).settlementView
      M).PaidUpTo paid counts := by
  have hold : ∀ n hash, node.canonical n = some hash →
      update node.canonical block.number (some (block.hash M.toCtx)) n = some hash := by
    intro n hash hn
    have hle : n ≤ node.head.number := hlinear.below n hash hn
    rw [update_of_ne (by omega), hn]
  refine ⟨?_, ?_, h.antitone, ?_, h.once⟩
  · intro n hash hn l hl hl3
    rcases update_eq_some.mp hn with ⟨rfl, rfl⟩ | ⟨-, hn⟩
    · have hle : counts l ≤ node.head.number + 1 := h.counts_le l hl hl3
      refine iff_of_false (fun hmem => ?_) (by omega)
      obtain ⟨m, hm⟩ := (h.canonical _ hmem).2
      exact hfresh m (hlinear.below m _ hm) hm
    · exact h.mem_iff n hash hn l hl hl3
  · intro l hl hl3
    have hle : counts l ≤ node.head.number + 1 := h.counts_le l hl hl3
    change counts l ≤ block.number + 1
    omega
  · intro key hkey
    obtain ⟨hpos, n, hn⟩ := h.canonical key hkey
    exact ⟨hpos, n, hold n _ hn⟩

end

/-- One block keeps the order. -/
theorem SettledInOrder.step {s : SettlingNode σ ρ} {input : Block × Processed σ ρ} (h : SettledInOrder M s)
    (hextends : ExtendsChain M s input) : SettledInOrder M ((settlementSystem M).step s input) := by
  obtain ⟨block, processed⟩ := input
  obtain ⟨hnumber, hfresh⟩ := hextends
  change SettledInOrder M (settleBlock M s block processed)
  unfold settleBlock
  split
  · exact h
  rename_i hok
  obtain ⟨counts, hcounts⟩ := h.counts
  obtain ⟨counts', hcounts'⟩ := hcounts.sequence h.linear h.frontiers.sound (hcounts.layersMatch h.settled)
    (SettlementView.overlaySound_empty _) hok
  refine ⟨h.linear.commit hnumber hfresh, ?_, ?_, ?_, counts', hcounts'.commit hnumber hfresh h.linear⟩
  · exact h.frontiers.commitCanonical h.linear.below hnumber _
  · have hlayers : processed.settlements.any (fun a => a.layer = 0) = false := by
      rw [any_eq_false]
      intro a ha hzero
      have hpos := SettlementView.validateSequence_induction (I := fun _ => True) (Q := fun a => 1 ≤ a.layer)
        (fun _ _ _ _ haccepted => ⟨trivial, haccepted.layer_pos⟩) trivial hok a ha
      rw [of_decide_eq_true hzero] at hpos
      omega
    simp only [ChainNode.recordSettledSources, hlayers]
    exact h.noLayerZero
  · rw [ChainNode.settledSources_recordSettledSources, toFinset_append, ← h.settled]
    rfl

end ShellChain
