import ShellChain.Settlements

/-!
# The verdict on settlements

The ordering checks read of a node its head, its canonical hashes and its settled sources. The cached frontiers only save
work as long as they skip nothing but compressed blocks. So two nodes that agree on the canonical chain and on what is
settled give every sequence of settlements the same verdict.
-/

namespace ShellChain

open Checks List

namespace SettlementView

variable {v w : SettlementView} {overlay : LayerOverlay}

/-! ## Frontiers -/

/-- The layer that the settled sources give to a hash. -/
def settledLayer (v : SettlementView) (h : ShellHash) : Nat :=
  v.compressionLayerForSource (fun _ => none) h

/-- No cached frontier is above a canonical block that is compressed below its layer. -/
def FrontiersSound (v : SettlementView) : Prop :=
  ∀ layer frontier, v.settledFrontiers layer = some frontier →
    ∀ n < frontier, ∀ h, v.canonicalHash n = some h → layer ≤ v.settledLayer h

/-- The overlay lowers no layer. -/
def OverlaySound (v : SettlementView) (overlay : LayerOverlay) : Prop :=
  ∀ h layer, overlay h = some layer → v.settledLayer h ≤ layer

theorem overlaySound_empty (v : SettlementView) : v.OverlaySound fun _ => none := by
  intro h layer hlayer
  cases hlayer

variable {h source : ShellHash} {layer number : Nat} {sources : List ShellHash} {a : ProofAmendment}

theorem le_settledLayer (hlayer : layer ∈ [1, 2, 3]) (hmem : (layer, h) ∈ v.settledSources) : layer ≤ v.settledLayer h := by
  simp only [settledLayer, compressionLayerForSource, Option.getD_none]
  simp only [mem_cons, not_mem_nil, or_false] at hlayer
  by_cases h3 : (3, h) ∈ v.settledSources
  · simp only [find?_cons, h3, decide_true, Option.getD_some]
    omega
  · by_cases h2 : (2, h) ∈ v.settledSources
    · rcases hlayer with rfl | rfl | rfl
      · simp [h3, h2]
      · simp [h3, h2]
      · exact absurd hmem h3
    · rcases hlayer with rfl | rfl | rfl
      · simp [h3, h2, hmem]
      · exact absurd hmem h2
      · exact absurd hmem h3

theorem mem_of_settledLayer_pos (hpos : 0 < v.settledLayer h) :
    v.settledLayer h ∈ [1, 2, 3] ∧ (v.settledLayer h, h) ∈ v.settledSources := by
  simp only [settledLayer, compressionLayerForSource, Option.getD_none] at hpos ⊢
  cases hfound : [3, 2, 1].find? fun layer => decide ((layer, h) ∈ v.settledSources) with
  | none =>
    rw [hfound] at hpos
    exact absurd hpos (Nat.lt_irrefl 0)
  | some layer =>
    have hmem := mem_of_find?_eq_some hfound
    rw [Option.getD_some]
    refine ⟨?_, by simpa using find?_some hfound⟩
    simp only [mem_cons, not_mem_nil, or_false] at hmem ⊢
    omega

theorem settledLayer_le_compressionLayer (hoverlay : v.OverlaySound overlay) (h : ShellHash) :
    v.settledLayer h ≤ v.compressionLayerForSource overlay h := by
  cases hfound : overlay h with
  | none =>
    simp only [settledLayer, compressionLayerForSource, hfound, Option.getD_none]
    exact Nat.le_refl _
  | some layer =>
    simp only [compressionLayerForSource, hfound, Option.getD_some]
    exact hoverlay h layer hfound

/-- The search passes over the heights whose canonical blocks are compressed. -/
theorem frontierFrom_skip (overlay : LayerOverlay) (layer count start fuel : Nat)
    (hskip : ∀ n, start ≤ n → n < start + count → ∀ h, v.canonicalHash n = some h →
      layer ≤ v.compressionLayerForSource overlay h) :
    v.frontierFrom overlay layer (fuel + count) start = v.frontierFrom overlay layer fuel (start + count) := by
  induction count generalizing start with
  | zero => rfl
  | succ count ih =>
    have hstart : ((v.canonicalHash start).any fun h =>
        v.isStarkCompressionSource overlay h && decide (v.compressionLayerForSource overlay h < layer)) = false := by
      rw [Option.any_eq_false]
      intro h hh
      have hle := hskip start (Nat.le_refl _) (by omega) h hh
      simp [Nat.not_lt.mpr hle]
    rw [← Nat.add_assoc, frontierFrom, if_neg (by simp [hstart]), ih (start + 1) fun n hn hlt => hskip n (by omega) (by omega)]
    congr 1
    omega

/-- With sound frontiers the search gives what it gives from height 0. -/
theorem firstCanonicalBlockBelowLayer_eq (hsound : v.FrontiersSound) (hoverlay : v.OverlaySound overlay) (layer : Nat) :
    v.firstCanonicalBlockBelowLayer overlay layer = v.frontierFrom overlay layer (v.headNumber + 1) 0 := by
  unfold firstCanonicalBlockBelowLayer
  cases hfrontier : v.settledFrontiers layer with
  | none => rfl
  | some frontier =>
    have hskip : ∀ n, n < frontier → ∀ h, v.canonicalHash n = some h → layer ≤ v.compressionLayerForSource overlay h :=
      fun n hn h hh => (hsound layer frontier hfrontier n hn h hh).trans (settledLayer_le_compressionLayer hoverlay h)
    simp only [Option.getD_some]
    by_cases hle : frontier ≤ v.headNumber + 1
    · have := frontierFrom_skip (v := v) overlay layer frontier 0 (v.headNumber + 1 - frontier)
        fun n _ hn => hskip n (by omega)
      rw [Nat.zero_add, Nat.sub_add_cancel hle] at this
      exact this.symm
    · -- a frontier above the head leaves no height to look at
      have := frontierFrom_skip (v := v) overlay layer (v.headNumber + 1) 0 0
        fun n _ hn => hskip n (by omega)
      rw [Nat.zero_add] at this
      rw [this, Nat.sub_eq_zero_of_le (Nat.le_of_not_le hle)]
      rfl

/-! ## Nodes that agree on the chain -/

/-- Two views agree on the canonical blocks that are compressed below a layer. -/
structure SameBelow (limit : Nat) (v w : SettlementView) : Prop where
  headNumber : w.headNumber = v.headNumber
  settledSources : w.settledSources = v.settledSources
  canonicalHash : ∀ n h, v.settledLayer h < limit → (v.canonicalHash n = some h ↔ w.canonicalHash n = some h)
  stored : ∀ n h, v.canonicalHash n = some h → w.canonicalHash n = some h →
    v.storedSource h = true ∧ w.storedSource h = true

namespace SameBelow

variable {limit : Nat} (hsame : SameBelow limit v w)

include hsame

theorem compressionLayer (overlay : LayerOverlay) (h : ShellHash) :
    w.compressionLayerForSource overlay h = v.compressionLayerForSource overlay h := by
  simp only [compressionLayerForSource, hsame.settledSources]

theorem settledLayer_eq (h : ShellHash) : w.settledLayer h = v.settledLayer h :=
  hsame.compressionLayer _ h

variable {h : ShellHash} {n layer : Nat}

/-- A canonical block that is compressed below the layer is one for both. -/
theorem below (hoverlay : v.OverlaySound overlay) (hlayer : v.compressionLayerForSource overlay h < limit) :
    v.canonicalHash n = some h ↔ w.canonicalHash n = some h :=
  hsame.canonicalHash n h ((settledLayer_le_compressionLayer hoverlay h).trans_lt hlayer)

theorem isSource (hv : v.canonicalHash n = some h) (hw : w.canonicalHash n = some h) :
    v.isStarkCompressionSource overlay h = true ∧ w.isStarkCompressionSource overlay h = true := by
  obtain ⟨hv, hw⟩ := hsame.stored n h hv hw
  exact ⟨by simp [isStarkCompressionSource, hv], by simp [isStarkCompressionSource, hw]⟩

theorem overlaySound (hoverlay : v.OverlaySound overlay) : w.OverlaySound overlay := by
  intro h layer hlayer
  rw [hsame.settledLayer_eq]
  exact hoverlay h layer hlayer

theorem frontierFrom_eq (hoverlay : v.OverlaySound overlay) (hlayer : layer ≤ limit) (fuel number : Nat) :
    w.frontierFrom overlay layer fuel number = v.frontierFrom overlay layer fuel number := by
  induction fuel generalizing number with
  | zero => simp only [frontierFrom, hsame.headNumber]
  | succ fuel ih =>
    have hany : ((w.canonicalHash number).any fun h =>
          w.isStarkCompressionSource overlay h && decide (w.compressionLayerForSource overlay h < layer)) =
        (v.canonicalHash number).any fun h =>
          v.isStarkCompressionSource overlay h && decide (v.compressionLayerForSource overlay h < layer) := by
      rw [Bool.eq_iff_iff, Option.any_eq_true, Option.any_eq_true]
      simp only [Bool.and_eq_true, decide_eq_true_eq, hsame.compressionLayer]
      constructor
      · rintro ⟨h, hw, -, hlt⟩
        have hv := (hsame.below hoverlay (hlt.trans_le hlayer)).mpr hw
        exact ⟨h, hv, (hsame.isSource hv hw).1, hlt⟩
      · rintro ⟨h, hv, -, hlt⟩
        have hw := (hsame.below hoverlay (hlt.trans_le hlayer)).mp hv
        exact ⟨h, hw, (hsame.isSource hv hw).2, hlt⟩
    rw [frontierFrom, frontierFrom, hany, ih]

theorem firstCanonicalBlockBelowLayer (hv : v.FrontiersSound) (hw : w.FrontiersSound) (hoverlay : v.OverlaySound overlay)
    (hlayer : layer ≤ limit) :
    w.firstCanonicalBlockBelowLayer overlay layer = v.firstCanonicalBlockBelowLayer overlay layer := by
  rw [firstCanonicalBlockBelowLayer_eq hv hoverlay, firstCanonicalBlockBelowLayer_eq hw (hsame.overlaySound hoverlay),
    hsame.headNumber, hsame.frontierFrom_eq hoverlay hlayer]

end SameBelow

/-- Two views agree on the head, the canonical hashes and the settled sources, and hold every canonical block. -/
structure SameChain (v w : SettlementView) : Prop where
  headNumber : w.headNumber = v.headNumber
  canonicalHash : w.canonicalHash = v.canonicalHash
  settledSources : w.settledSources = v.settledSources
  stored : ∀ n h, v.canonicalHash n = some h → v.storedSource h = true ∧ w.storedSource h = true

namespace SameChain

variable (hsame : SameChain v w)

include hsame

theorem sameBelow (limit : Nat) : SameBelow limit v w :=
  ⟨hsame.headNumber, hsame.settledSources, fun n h _ => by rw [hsame.canonicalHash], fun n h hv _ => hsame.stored n h hv⟩

theorem firstCanonicalBlockBelowLayer (hv : v.FrontiersSound) (hw : w.FrontiersSound) (hoverlay : v.OverlaySound overlay)
    (layer : Nat) : w.firstCanonicalBlockBelowLayer overlay layer = v.firstCanonicalBlockBelowLayer overlay layer :=
  (hsame.sameBelow layer).firstCanonicalBlockBelowLayer hv hw hoverlay (Nat.le_refl layer)

theorem checkCanonical (number : Nat) (sources : List ShellHash) :
    w.checkCanonical number sources = v.checkCanonical number sources := by
  induction sources generalizing number with
  | nil => rfl
  | cons source rest ih => simp only [SettlementView.checkCanonical, hsame.canonicalHash, ih]

end SameChain

/-! ## What an accepted amendment satisfies -/

theorem canonical_of_checkCanonical (h : v.checkCanonical number sources = .ok ()) {i : Nat} (hi : sources[i]? = some source) :
    v.canonicalHash (number + i) = some source := by
  induction sources generalizing number i with
  | nil => cases hi
  | cons first rest ih =>
    rw [checkCanonical] at h
    split at h
    · cases h
    rename_i canonical hcanonical
    split_ifs at h with hne
    cases i with
    | zero =>
      obtain rfl := Option.some.inj hi
      rw [Nat.add_zero, hcanonical, not_not.mp hne]
    | succ i =>
      rw [← ih h hi]
      congr 1
      omega

theorem mem_of_checkCanonical (h : v.checkCanonical number sources = .ok ()) (hmem : source ∈ sources) :
    ∃ n, v.canonicalHash n = some source := by
  obtain ⟨i, hi⟩ := mem_iff_getElem?.mp hmem
  exact ⟨_, canonical_of_checkCanonical h hi⟩

theorem validateRange_ok {start : Nat} (h : v.validateStarkAmendmentRange a = .ok start) :
    a.layer ≠ 0 ∧ v.checkCanonical start a.coveredHashes = .ok () := by
  simp only [validateStarkAmendmentRange, bind_ok_iff, ensure_ok_iff, decide_eq_true_eq] at h
  obtain ⟨_, hlayer, _, -, _, -, _, -, _, -, h⟩ := h
  split at h
  · exact absurd h throw_ne_ok
  · simp only [bind_ok_iff, pure_ok_iff] at h
    obtain ⟨_, -, _, -, _, hcanonical, rfl⟩ := h
    exact ⟨by simpa using hlayer, hcanonical⟩

theorem checkLayers_ok (h : v.checkLayers overlay layer number sources = .ok ()) (hmem : source ∈ sources) :
    v.compressionLayerForSource overlay source < layer ∧
      (layer ≤ 1 ∨ v.compressionLayerForSource overlay source + 1 = layer) := by
  induction sources generalizing number with
  | nil => cases hmem
  | cons first rest ih =>
    simp only [checkLayers, bind_ok_iff, ensure_ok_iff, decide_eq_true_eq] at h
    obtain ⟨_, -, _, hlt, _, hnext, h⟩ := h
    rcases mem_cons.mp hmem with rfl | hrest
    · exact ⟨hlt, hnext⟩
    · exact ih h hrest

/-- The facts that the acceptance of an amendment rests on. -/
structure Accepted (v : SettlementView) (overlay : LayerOverlay) (a : ProofAmendment) : Prop where
  layer_pos : 1 ≤ a.layer
  canonical : ∀ h ∈ a.coveredHashes, ∃ n, v.canonicalHash n = some h
  below : ∀ h ∈ a.coveredHashes, v.compressionLayerForSource overlay h < a.layer
  next : ∀ h ∈ a.coveredHashes, a.layer ≤ 1 ∨ v.compressionLayerForSource overlay h + 1 = a.layer

theorem accepted_of_ordering (h : v.validateStarkAmendmentOrdering overlay a = .ok ()) : Accepted v overlay a := by
  simp only [validateStarkAmendmentOrdering, bind_ok_iff] at h
  obtain ⟨start, hrange, _, hlayers, -⟩ := h
  obtain ⟨hlayer, hcanonical⟩ := validateRange_ok hrange
  exact ⟨Nat.one_le_iff_ne_zero.mpr hlayer, fun _ => mem_of_checkCanonical hcanonical,
    fun _ hmem => (checkLayers_ok hlayers hmem).1, fun _ hmem => (checkLayers_ok hlayers hmem).2⟩

theorem Accepted.overlaySound (ha : Accepted v overlay a) (hoverlay : v.OverlaySound overlay) :
    v.OverlaySound (overlay.insertCovered a) := by
  intro h layer hlayer
  unfold LayerOverlay.insertCovered at hlayer
  split_ifs at hlayer with hmem
  · obtain rfl := Option.some.inj hlayer
    exact (settledLayer_le_compressionLayer hoverlay h).trans (ha.below h hmem).le
  · exact hoverlay h layer hlayer

/-- The induction rule of a validated sequence: what the overlay satisfies and each accepted amendment extends. -/
theorem validateSequence_induction {I : LayerOverlay → Prop} {Q : ProofAmendment → Prop} {amendments : List ProofAmendment}
    (hstep : ∀ overlay, ∀ a ∈ amendments, I overlay → Accepted v overlay a → I (overlay.insertCovered a) ∧ Q a)
    (hI : I overlay) (h : v.validateSequenceFrom overlay amendments = .ok ()) : ∀ a ∈ amendments, Q a := by
  induction amendments generalizing overlay with
  | nil =>
    intro a ha
    cases ha
  | cons first rest ih =>
    simp only [validateSequenceFrom, bind_ok_iff] at h
    obtain ⟨_, hfirst, hrest⟩ := h
    obtain ⟨hI', hQ⟩ := hstep overlay first (mem_cons_self ..) hI (accepted_of_ordering hfirst)
    intro a ha
    rcases mem_cons.mp ha with rfl | ha
    · exact hQ
    · exact ih (fun overlay a ha => hstep overlay a (mem_cons_of_mem _ ha)) hI' hrest a ha

/-! ## The verdict -/

theorem SameChain.checkLayers (hsame : SameChain v w) (hsources : ∀ h ∈ sources, ∃ n, v.canonicalHash n = some h) :
    w.checkLayers overlay layer number sources = v.checkLayers overlay layer number sources := by
  induction sources generalizing number with
  | nil => rfl
  | cons first rest ih =>
    rw [forall_mem_cons] at hsources
    obtain ⟨⟨n, hn⟩, hrest⟩ := hsources
    simp only [SettlementView.checkLayers, (hsame.sameBelow 0).compressionLayer, isStarkCompressionSource,
      (hsame.stored n first hn).1, (hsame.stored n first hn).2, ih hrest]

theorem SameChain.validateOrdering (hsame : SameChain v w) (hv : v.FrontiersSound) (hw : w.FrontiersSound)
    (hoverlay : v.OverlaySound overlay) (a : ProofAmendment) :
    w.validateStarkAmendmentOrdering overlay a = v.validateStarkAmendmentOrdering overlay a := by
  have hrange : w.validateStarkAmendmentRange a = v.validateStarkAmendmentRange a := by
    simp only [validateStarkAmendmentRange, hsame.checkCanonical]
  simp only [validateStarkAmendmentOrdering, hrange, hsame.firstCanonicalBlockBelowLayer hv hw hoverlay]
  cases hrange : v.validateStarkAmendmentRange a with
  | error e => rfl
  | ok start =>
    have hsources : ∀ h ∈ a.coveredHashes, ∃ n, v.canonicalHash n = some h :=
      fun _ => mem_of_checkCanonical (validateRange_ok hrange).2
    simp only [bind, Except.bind, hsame.checkLayers hsources]

/-- Two nodes that agree on the chain and on what is settled give a sequence the same verdict. -/
theorem SameChain.validateSequence (hsame : SameChain v w) (hv : v.FrontiersSound) (hw : w.FrontiersSound)
    (amendments : List ProofAmendment) :
    w.validateStarkSettlementSequence amendments = v.validateStarkSettlementSequence amendments := by
  have hfrom : ∀ overlay, v.OverlaySound overlay →
      w.validateSequenceFrom overlay amendments = v.validateSequenceFrom overlay amendments := by
    induction amendments with
    | nil =>
      intro overlay _
      rfl
    | cons a rest ih =>
      intro overlay hoverlay
      simp only [validateSequenceFrom, hsame.validateOrdering hv hw hoverlay]
      cases hfirst : v.validateStarkAmendmentOrdering overlay a with
      | error e => rfl
      | ok u => exact ih _ ((accepted_of_ordering hfirst).overlaySound hoverlay)
  exact hfrom _ (overlaySound_empty v)

end SettlementView

end ShellChain
