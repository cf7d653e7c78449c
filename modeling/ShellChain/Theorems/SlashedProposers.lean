import ShellChain.Lemmas.Proposers
import ShellChain.Sample
import ShellChain.Theorems.SlashedWeights

/-!
# Proposers that were slashed

The PoA engine refuses a header whose proposer has no weight left, and leaves such authorities out when it chooses. The
weighted engine chooses by base weights and rotates the whole list of authorities, so an authority without weight proposes in
some view of every height. In both engines the chosen address is the one that can seal, and the only one accepted.
-/

namespace ShellChain

open Checks List

/-- One address is accepted as the proposer of the height, and it is the one that is the proposer and can seal. -/
def SoleProposer (verify : BlockHeader → Except BlockError Unit) (isProposer : Nat → Address → Bool)
    (signBlock : (Bytes → Option PQSignature) → Block → Except SealError Block) (height : Nat) : Prop :=
  ∃ p, (∀ hdr, hdr.number = height → (verify hdr = .ok () ↔ hdr.proposer = p)) ∧
    (∀ a, isProposer height a = true ↔ a = p) ∧
    ∀ sign block, (∀ message, (sign message).isSome) → block.header.number = height →
      ((∃ signed, signBlock sign block = .ok signed) ↔ block.header.proposer = p)

theorem sealAs_ok_iff {Γ : Ctx} {p : Address} {sign : Bytes → Option PQSignature} {block : Block}
    (hsign : ∀ message, (sign message).isSome) :
    (∃ signed, sealAs Γ p sign block = .ok signed) ↔ block.header.proposer = p := by
  obtain ⟨sig, hsig⟩ := Option.isSome_iff_exists.mp (hsign (block.hash Γ).bytes)
  simp only [sealAs, bind_ok_iff, ensure_ok_iff, hsig, pure_ok_iff, decide_eq_true_eq]
  exact ⟨fun ⟨_, _, hp, _⟩ => hp, fun hp => ⟨_, (), hp, rfl⟩⟩

/-! ## The PoA engine -/

namespace PoaEngine

variable {Γ : Ctx} {e : PoaEngine}

/-- An authority that is listed more than once has one weight. -/
def OneWeight (e : PoaEngine) : Prop :=
  ∀ i j : Nat, ∀ a, e.config.authorities[i]? = some a → e.config.authorities[j]? = some a →
    e.baseWeightAt i = e.baseWeightAt j

theorem verifyHeader_ok_iff {hdr : BlockHeader} : e.verifyHeader Γ hdr = .ok () ↔
    (e.effectiveWeightFor hdr.proposer).getD 0 ≠ 0 ∧ hdr.proposer = e.expectedProposerForBlock Γ hdr.number := by
  simp [verifyHeader, bind_ok_iff, ensure_ok_iff]

variable {a : Address}

/-- The candidates are the authorities with a weight, at some position. -/
theorem mem_candidates : a ∈ e.candidates.map Prod.fst ↔
    ∃ i : Nat, e.config.authorities[i]? = some a ∧ 0 < e.baseWeightAt i - e.reduction a := by
  simp only [candidates, effectiveWeights, mem_map, mem_filter, decide_eq_true_eq]
  constructor
  · rintro ⟨p, ⟨⟨q, hq, rfl⟩, hpos⟩, rfl⟩
    exact ⟨q.2, mem_zipIdx_iff_getElem?.mp hq, hpos⟩
  · rintro ⟨i, hi, hpos⟩
    exact ⟨_, ⟨⟨(a, i), mem_zipIdx_iff_getElem?.mpr hi, rfl⟩, hpos⟩, rfl⟩

theorem effectiveWeightFor_eq_some {w : Nat} (h : e.effectiveWeightFor a = some w) :
    ∃ i : Nat, e.config.authorities[i]? = some a ∧ w = e.baseWeightAt i - e.reduction a := by
  obtain ⟨i, hi, rfl⟩ := Option.map_eq_some_iff.mp h
  obtain ⟨hlt, hp, -⟩ := findIdx?_eq_some_iff_getElem.mp hi
  exact ⟨i, by rw [getElem?_eq_getElem hlt, of_decide_eq_true hp], rfl⟩

/-- When an authority has weight at its first position, some candidate is chosen. -/
theorem expectedProposer_mem (ha : 0 < (e.effectiveWeightFor a).getD 0) (height : Nat) :
    e.expectedProposerForBlock Γ height ∈ e.candidates.map Prod.fst := by
  have hne : e.candidates ≠ [] := by
    cases hw : e.effectiveWeightFor a with
    | none => simp [hw] at ha
    | some w =>
      obtain ⟨i, hi, rfl⟩ := effectiveWeightFor_eq_some hw
      rw [hw] at ha
      intro hnil
      have hmem := mem_candidates.mpr ⟨i, hi, ha⟩
      simp [hnil] at hmem
  rw [expectedProposerForBlock, if_neg hne]
  split
  · obtain ⟨p, hp, hget⟩ := exists_getElem?_roundRobin hne (e.config.slotOf height)
    rw [hget]
    exact mem_map_of_mem hp
  · exact drawTicket_mem hne _ _ _

/-- A candidate has weight at its first position, where `effective_weight_for` looks. -/
theorem OneWeight.weight_pos (h : e.OneWeight) (ha : a ∈ e.candidates.map Prod.fst) :
    (e.effectiveWeightFor a).getD 0 ≠ 0 := by
  obtain ⟨i, hi, hpos⟩ := mem_candidates.mp ha
  cases hw : e.effectiveWeightFor a with
  | none =>
    rw [effectiveWeightFor, Option.map_eq_none_iff, findIdx?_eq_none_iff] at hw
    exact absurd (hw a (mem_of_getElem? hi)) (by simp)
  | some w =>
    obtain ⟨j, hj, rfl⟩ := effectiveWeightFor_eq_some hw
    rw [Option.getD_some, h j i a hj hi]
    omega

theorem OneWeight.soleProposer (h : e.OneWeight) (ha : 0 < (e.effectiveWeightFor a).getD 0) (height : Nat) :
    SoleProposer (e.verifyHeader Γ) (e.isProposer Γ) (e.signBlock Γ) height := by
  refine ⟨e.expectedProposerForBlock Γ height, ?_, fun b => ?_, ?_⟩
  · rintro hdr rfl
    rw [verifyHeader_ok_iff]
    refine ⟨And.right, fun hp => ⟨?_, hp⟩⟩
    rw [hp]
    exact h.weight_pos (expectedProposer_mem ha hdr.number)
  · rw [isProposer, decide_eq_true_eq, eq_comm]
  · rintro sign block hsign rfl
    exact sealAs_ok_iff hsign

end PoaEngine

/-! ## The weighted engine -/

namespace WPoaEngine

variable {Γ : Ctx} {T : PoaTiming} {e : WPoaEngine} {W : ValidatorWeights}

/-- Every authority proposes in some view of a height. -/
theorem exists_view_of_mem (hne : e.authorities ≠ []) (height : Nat) {a : Address} (ha : a ∈ e.authorities) :
    ∃ view, e.proposerForBlockInView Γ T height view = a := by
  obtain ⟨i, hi, hget⟩ := mem_iff_getElem.mp ((mem_rotated (Γ := Γ) (T := T) height a).mpr ha)
  rw [length_rotated] at hi
  have hview := proposerForBlockInView_of_pos (Γ := Γ) (T := T) (e := e) hne height
    (show 0 < i + e.authorities.length by omega)
  rw [Nat.add_mod_right, Nat.mod_eq_of_lt hi, List.getElem?_eq_some_iff] at hview
  obtain ⟨hlt, hview⟩ := hview
  exact ⟨i + e.authorities.length, hview.symm.trans hget⟩

theorem soleProposer (hkeyed : e.validatorSet.Keyed) (hne : e.authorities ≠ [])
    (hactive : ∀ a, e.validatorSet.isActive a = true ↔ a ∈ e.authorities) (height view : Nat) :
    SoleProposer ((e.inView view).engine Γ T W).verifyHeader ((e.inView view).isProposer Γ T)
      ((e.inView view).signBlock Γ T) height := by
  refine ⟨e.proposerForBlockInView Γ T height view, ?_, fun b => ?_, ?_⟩
  · rintro hdr rfl
    rw [verifyHeader_inView_ok_iff]
    refine ⟨And.right, fun hp => ⟨?_, hp⟩⟩
    rw [hp]
    exact isActive_proposerForBlockInView hkeyed hne (fun a ha => (hactive a).mpr ha) _ _
  · rw [isProposer, decide_eq_true_eq, eq_comm]
    rfl
  · rintro sign block hsign rfl
    exact sealAs_ok_iff hsign

end WPoaEngine

/-! ## Both engines -/

/-- In every state of the weighted engine that slashes and authority updates reach, every accepted header has a proposer with
weight exactly if every authority has weight, and with any authority each height has one proposer in each view. The PoA engine
only accepts proposers with weight; if an authority that is listed twice has one weight, each height has one proposer as long
as some authority has weight. -/
theorem accepted_proposers (Γ : Ctx) (T : PoaTiming) (W : ValidatorWeights) :
    (∀ authorities weights slashWeightBps chainId nowMs calls e,
      (WeightAudit.after authorities weights slashWeightBps chainId nowMs calls).engine = e →
      ((∀ view hdr, ((e.inView view).engine Γ T W).verifyHeader hdr = .ok () →
          0 < (e.effectiveWeightFor hdr.proposer).getD 0) ↔
        ∀ a ∈ e.authorities, 0 < (e.effectiveWeightFor a).getD 0) ∧
      ((∃ a ∈ e.authorities, 0 < (e.effectiveWeightFor a).getD 0) → ∀ height view,
        SoleProposer ((e.inView view).engine Γ T W).verifyHeader ((e.inView view).isProposer Γ T)
          ((e.inView view).signBlock Γ T) height)) ∧
    ∀ e : PoaEngine, (∀ hdr, e.verifyHeader Γ hdr = .ok () → 0 < (e.effectiveWeightFor hdr.proposer).getD 0) ∧
      (e.OneWeight → (∃ a ∈ e.config.authorities, 0 < (e.effectiveWeightFor a).getD 0) → ∀ height,
        SoleProposer (e.verifyHeader Γ) (e.isProposer Γ) (e.signBlock Γ) height) := by
  constructor
  · intro authorities weights slashWeightBps chainId nowMs calls e he
    have hfrom : WeightAudit.FromEntries e := he ▸
      TransitionSystem.invariant_run_of_step (I := fun s : WeightAudit => WeightAudit.FromEntries s.engine)
        WeightAudit.fromEntries_step (WeightAudit.exact_start authorities weights slashWeightBps chainId nowMs).1 calls
    have hkeyed : e.validatorSet.Keyed := by
      obtain ⟨entries, config, hset, -⟩ := hfrom
      exact hset ▸ ValidatorSet.keyed_fromGenesis entries config
    refine ⟨⟨fun h a ha => ?_, fun h view hdr hok => ?_⟩, ?_⟩
    · obtain ⟨view, hview⟩ := WPoaEngine.exists_view_of_mem (Γ := Γ) (T := T) (List.ne_nil_of_mem ha) 0 ha
      refine h view { (default : BlockHeader) with number := 0, proposer := a } ?_
      exact WPoaEngine.verifyHeader_inView_ok_iff.mpr ⟨(hfrom.isActive_iff a).mpr ha, hview.symm⟩
    · exact h hdr.proposer ((hfrom.isActive_iff _).mp (WPoaEngine.verifyHeader_inView_ok_iff.mp hok).1)
    rintro ⟨a, ha, -⟩ height view
    exact WPoaEngine.soleProposer hkeyed (List.ne_nil_of_mem ha) hfrom.isActive_iff height view
  · intro e
    refine ⟨fun hdr hok => Nat.pos_of_ne_zero (PoaEngine.verifyHeader_ok_iff.mp hok).1, ?_⟩
    rintro hweights ⟨a, -, ha⟩ height
    exact hweights.soleProposer ha height

/-! ## A proposer without weight -/

namespace EmptyProposer

/-- Two validators, one of which loses its whole weight. -/
def engine : WPoaEngine :=
  (WeightAudit.after [.repeatByte 1, .repeatByte 2] [1, 1] 10000 0 0 [.slash (.repeatByte 1)]).engine

/-- The header of a height by the slashed validator. -/
def header : BlockHeader :=
  { (default : BlockHeader) with proposer := .repeatByte 1 }

theorem weightless_proposer_accepted :
    engine.effectiveWeightFor (.repeatByte 1) = some 0 ∧ engine.effectiveWeightFor (.repeatByte 2) = some 1 ∧
      (engine.engine sampleCtx ⟨2, 60, 0⟩ ⟨∅, by decide⟩).verifyHeader header = .ok () := by
  decide +kernel

/-- The same two validators in the PoA engine, which are set again after the slash. -/
def poaEngine : PoaEngine :=
  let slashed := (PoaEngine.new ⟨[.repeatByte 1, .repeatByte 2], [1, 1], 2, 0, ∅, 10000⟩).slashAuthority (.repeatByte 1)
  (slashed.setAuthorities [.repeatByte 1, .repeatByte 2]).getD slashed

/-- One of the two has weight left, and every height has one proposer in both engines. -/
theorem one_proposer_after_slash :
    poaEngine.effectiveWeightFor (.repeatByte 1) = some 0 ∧
      (∀ height view, SoleProposer ((engine.inView view).engine sampleCtx ⟨2, 60, 0⟩ ⟨∅, by decide⟩).verifyHeader
        ((engine.inView view).isProposer sampleCtx ⟨2, 60, 0⟩) ((engine.inView view).signBlock sampleCtx ⟨2, 60, 0⟩) height) ∧
      ∀ height, SoleProposer (poaEngine.verifyHeader sampleCtx) (poaEngine.isProposer sampleCtx)
        (poaEngine.signBlock sampleCtx) height := by
  obtain ⟨hwpoa, hpoa⟩ := accepted_proposers sampleCtx ⟨2, 60, 0⟩ ⟨∅, by decide⟩
  have hsole := (hpoa poaEngine).2 (fun _ _ _ _ _ => rfl) ⟨.repeatByte 2, by decide, by decide +kernel⟩
  exact ⟨by decide +kernel, (hwpoa _ _ _ _ _ _ engine rfl).2 ⟨.repeatByte 2, by decide +kernel, by decide +kernel⟩, hsole⟩

end EmptyProposer

end ShellChain
