import ShellChain.Lemmas.Proposers
import ShellChain.Sample

/-!
# The view of a finalized block

A node that catches up does not know in which view a finalized block was proposed. It takes the first view in which the
proposer could propose, found among as many views as there are authorities, and asks that the block has waited for that view.
The first view asks for nothing: the time of such a block is checked elsewhere.
-/

namespace ShellChain

open Checks

namespace WPoaEngine

variable {Γ : Ctx} {T : PoaTiming} {e : WPoaEngine}

def viewTimeout (T : PoaTiming) : Nat :=
  max viewChangeTimeoutSecs T.blockTimeSecs

/-! ## The first view of a proposer -/

/-- A view after the first one has the proposer of a view that is searched. -/
theorem exists_searched_view (hne : e.authorities ≠ []) (blockNumber : Nat) {view : Nat} (hview : 0 < view) :
    ∃ v ∈ List.range' 1 e.authorities.length,
      e.proposerForBlockInView Γ T blockNumber v = e.proposerForBlockInView Γ T blockNumber view := by
  have hpos : 0 < e.authorities.length := List.length_pos_of_ne_nil hne
  have hlt := Nat.mod_lt view hpos
  -- the residue zero is that of the last view searched
  obtain ⟨v, hv, hmod⟩ : ∃ v ∈ List.range' 1 e.authorities.length, v % e.authorities.length = view % e.authorities.length := by
    by_cases hzero : view % e.authorities.length = 0
    · refine ⟨e.authorities.length, ?_, by rw [Nat.mod_self, hzero]⟩
      rw [List.mem_range'_1]
      omega
    · refine ⟨view % e.authorities.length, ?_, Nat.mod_mod _ _⟩
      rw [List.mem_range'_1]
      omega
  refine ⟨v, hv, ?_⟩
  have hvpos : 0 < v := by
    rw [List.mem_range'_1] at hv
    omega
  have hget := proposerForBlockInView_of_pos (Γ := Γ) (T := T) hne blockNumber hvpos
  rw [hmod, proposerForBlockInView_of_pos hne blockNumber hview] at hget
  exact (Option.some.inj hget).symm

/-- The search returns the first view that selects the proposer, if any does. -/
theorem firstViewForProposer_cases (hkeyed : e.validatorSet.Keyed) (hne : e.authorities ≠ [])
    (hactive : ∀ a ∈ e.authorities, e.validatorSet.isActive a = true) (blockNumber : Nat) (p : Address) :
    (∃ v, e.firstViewForProposer Γ T blockNumber p = some v ∧ e.proposerForBlockInView Γ T blockNumber v = p ∧
      ∀ u < v, e.proposerForBlockInView Γ T blockNumber u ≠ p) ∨
    (e.firstViewForProposer Γ T blockNumber p = none ∧ ∀ v, e.proposerForBlockInView Γ T blockNumber v ≠ p) := by
  have hzero : e.proposerForBlockInView Γ T blockNumber 0 = e.baseProposerForBlock Γ T blockNumber := if_pos (.inl rfl)
  rw [firstViewForProposer]
  by_cases hp : e.validatorSet.isActive p = true
  · rw [if_neg (by simpa using hp)]
    by_cases hbase : p = e.baseProposerForBlock Γ T blockNumber
    · rw [if_pos hbase]
      exact .inl ⟨0, rfl, hzero.trans hbase.symm, fun u hu => absurd hu (Nat.not_lt_zero u)⟩
    · rw [if_neg hbase]
      have hfirst : e.proposerForBlockInView Γ T blockNumber 0 ≠ p := fun h => hbase (h.symm.trans hzero)
      cases hfind : (List.range' 1 e.authorities.length).find? fun view =>
          e.proposerForBlockInView Γ T blockNumber view = p with
      | some v =>
        obtain ⟨hv, -, hmin⟩ := List.find?_range'_eq_some.mp hfind
        refine .inl ⟨v, rfl, by simpa using hv, fun u hu => ?_⟩
        by_cases hu0 : u = 0
        · rw [hu0]
          exact hfirst
        · simpa using hmin u (by omega) hu
      | none =>
        refine .inr ⟨rfl, fun v => ?_⟩
        by_cases hv0 : v = 0
        · rw [hv0]
          exact hfirst
        · obtain ⟨u, hu, heq⟩ := exists_searched_view (Γ := Γ) (T := T) hne blockNumber (Nat.pos_of_ne_zero hv0)
          rw [← heq]
          simpa using List.find?_eq_none.mp hfind u hu
  · rw [if_pos (by simpa using hp)]
    refine .inr ⟨rfl, fun v hv => hp ?_⟩
    rw [← hv]
    exact isActive_proposerForBlockInView hkeyed hne hactive blockNumber v

/-! ## Headers of finalized blocks -/

/-- With at least one authority, all of them active, the search returns the first view in which the proposer is selected, and
nothing when no view selects it. So a header that is accepted in some view and has waited for that view is accepted as the
header of a finalized block, and one whose first view is a later view and that has not waited for it is refused. -/
theorem finalized_import_checks_first_view (Γ : Ctx) (T : PoaTiming) (e : WPoaEngine) (W : ValidatorWeights)
    (hmanaged : e.Managed) (hne : e.authorities ≠ [])
    (hactive : ∀ a ∈ e.authorities, e.validatorSet.isActive a = true) :
    (∀ height p v, e.firstViewForProposer Γ T height p = some v ↔
      e.proposerForBlockInView Γ T height v = p ∧ ∀ u < v, e.proposerForBlockInView Γ T height u ≠ p) ∧
    (∀ height p, e.firstViewForProposer Γ T height p = none ↔ ∀ v, e.proposerForBlockInView Γ T height v ≠ p) ∧
    (∀ v hdr parent, ((e.inView v).engine Γ T W).verifyHeader hdr = .ok () →
      parent.timestamp + v * viewTimeout T ≤ hdr.timestamp →
      (e.engine Γ T W).verifyHeaderForFinalizedImport hdr parent = .ok ()) ∧
    ∀ v hdr parent, e.firstViewForProposer Γ T hdr.number hdr.proposer = some v → 1 ≤ v →
      hdr.timestamp < min (parent.timestamp + v * viewTimeout T) u64Max →
      (e.engine Γ T W).verifyHeaderForFinalizedImport hdr parent =
        .error (.invalidProposer (e.baseProposerForBlock Γ T hdr.number) hdr.proposer) := by
  have hcases := firstViewForProposer_cases (Γ := Γ) (T := T) hmanaged.keyed hne hactive
  refine ⟨fun height p v => ?_, fun height p => ?_, fun v hdr parent hok hwaited => ?_,
    fun v hdr parent hfirst hpos hearly => ?_⟩
  · rcases hcases height p with ⟨u, hfirst, hu, hmin⟩ | ⟨hnone, hnever⟩
    · rw [hfirst, Option.some_inj]
      constructor
      · rintro rfl
        exact ⟨hu, hmin⟩
      · rintro ⟨hv, hminv⟩
        by_contra hne'
        rcases Nat.lt_or_gt_of_ne hne' with hlt | hgt
        · exact hminv u hlt hu
        · exact hmin v hgt hv
    · rw [hnone]
      exact iff_of_false (by simp) fun h => hnever v h.1
  · rcases hcases height p with ⟨u, hfirst, hu, -⟩ | ⟨hnone, hnever⟩
    · rw [hfirst]
      exact iff_of_false (by simp) fun h => h u hu
    · exact iff_of_true hnone hnever
  · have hproposer := (verifyHeader_inView_ok_iff.mp hok).2
    rcases hcases hdr.number hdr.proposer with ⟨u, hfirst, -, hmin⟩ | ⟨-, hnever⟩
    · have hle : u ≤ v := by
        by_contra hlt
        exact hmin v (by omega) hproposer.symm
      have hwait : u * viewTimeout T ≤ v * viewTimeout T := Nat.mul_le_mul_right _ hle
      have hearliest : saturatingAdd parent.timestamp (min (viewTimeout T * u) u64Max) ≤ hdr.timestamp := by
        rw [Nat.mul_comm, saturatingAdd]
        omega
      have hengine : (e.engine Γ T W).firstViewForProposer hdr.number hdr.proposer = some u := hfirst
      rw [Engine.verifyHeaderForFinalizedImport, hengine, ensure_ok_iff, decide_eq_true_eq]
      exact .inr hearliest
    · exact absurd hproposer.symm (hnever v)
  · have hengine : (e.engine Γ T W).firstViewForProposer hdr.number hdr.proposer = some v := hfirst
    have hnot : ¬ (v = 0 ∨ saturatingAdd parent.timestamp (min (viewTimeout T * v) u64Max) ≤ hdr.timestamp) := by
      rw [Nat.mul_comm, saturatingAdd]
      omega
    rw [Engine.verifyHeaderForFinalizedImport, hengine]
    exact if_neg fun h => hnot (of_decide_eq_true h)

/-! ## The first view and an engine without authorities -/

namespace FirstView

/-- The engine of a list of authorities. -/
def engineOf (authorities : List Address) : WPoaEngine :=
  .new authorities [] 1000 0 0

/-- Blocks every two seconds. -/
def timing : PoaTiming :=
  ⟨2, 60, 0⟩

def weights : ValidatorWeights :=
  ⟨∅, by decide⟩

/-- The header of the first height by an authority at a time. -/
def header (proposer : UInt8) (timestamp : Nat) : BlockHeader :=
  { (default : BlockHeader) with proposer := .repeatByte proposer, timestamp := timestamp }

/-- Without authorities every view selects the zero address, which is not found; and a header of the first view that is older
than its parent is accepted. -/
theorem first_view_unchecked :
    (engineOf []).firstViewForProposer sampleCtx timing 0 .zero = none ∧
      (engineOf []).proposerForBlockInView sampleCtx timing 0 0 = .zero ∧
      (engineOf [.repeatByte 1]).firstViewForProposer sampleCtx timing 0 (.repeatByte 1) = some 0 ∧
      ((engineOf [.repeatByte 1]).engine sampleCtx timing weights).verifyHeaderForFinalizedImport (header 1 4)
        (header 1 5) = .ok () := by
  decide +kernel

/-- The second of two authorities has to wait for the second view. -/
theorem second_view_waits :
    ((engineOf [.repeatByte 1, .repeatByte 2]).engine sampleCtx timing weights).verifyHeaderForFinalizedImport (header 2 7)
      (header 1 5) = .error (.invalidProposer (.repeatByte 1) (.repeatByte 2)) :=
  (finalized_import_checks_first_view sampleCtx timing (engineOf [.repeatByte 1, .repeatByte 2]) weights
    ⟨_, _, [], rfl⟩ (by decide +kernel) (by decide +kernel)).2.2.2 1 (header 2 7) (header 1 5) (by decide +kernel)
    (by decide) (by decide +kernel)

end FirstView

end WPoaEngine

end ShellChain
