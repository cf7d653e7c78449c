import Mathlib.Data.List.Chain
import ShellChain.Fees

/-!
# The base fee along a chain

The base fee follows the gas of the parent and moves by an eighth at most unless the limit of the parent is odd. In a full
block with an odd limit the gas above the target exceeds the target, and so can the step exceed the eighth.
-/

namespace ShellChain

section BaseFee

variable {used used' limit fee : Nat}

theorem baseFeeDelta_mono {gasDelta gasDelta' : Nat} (h : gasDelta ≤ gasDelta') (fee gasTarget : Nat) :
    baseFeeDelta fee gasDelta gasTarget ≤ baseFeeDelta fee gasDelta' gasTarget :=
  min_le_min_right _ (Nat.div_le_div_right (Nat.div_le_div_right (Nat.mul_le_mul_left fee h)))

/-- Gas that differs from the target by the target at most moves the fee by an eighth at most. -/
theorem baseFeeDelta_le {gasDelta gasTarget : Nat} (h : gasDelta ≤ gasTarget) : baseFeeDelta fee gasDelta gasTarget ≤ fee / 8 := by
  refine le_trans (min_le_left _ _) (Nat.div_le_div_right (Nat.div_le_of_le_mul ?_))
  rw [Nat.mul_comm gasTarget]
  exact Nat.mul_le_mul_left fee h

/-- The three moves of the fee: up above the target, down below it, and none at it. -/
theorem calculateBaseFee_cases (used : Nat) (hfee : 1 ≤ fee) (hlimit : 2 ≤ limit) :
    limit / 2 < used ∧ calculateBaseFee used limit fee =
        min (fee + max (baseFeeDelta fee (used - limit / 2) (limit / 2)) 1) u64Max ∨
      used < limit / 2 ∧ calculateBaseFee used limit fee = max (fee - baseFeeDelta fee (limit / 2 - used) (limit / 2)) 1 ∨
      used = limit / 2 ∧ calculateBaseFee used limit fee = fee := by
  have htarget : limit / 2 ≠ 0 := by omega
  simp only [calculateBaseFee, Nat.one_le_iff_ne_zero.mp hfee, htarget, if_false, saturatingAdd]
  rcases Nat.lt_trichotomy used (limit / 2) with h | h | h
  · simp [h, h.ne, h.not_gt]
  · simp [h]
  · simp [h, h.ne']

def FeeInRange (fee : Nat) : Prop :=
  1 ≤ fee ∧ fee ≤ u64Max

theorem FeeInRange.calculateBaseFee (h : FeeInRange fee) (hlimit : 2 ≤ limit) :
    FeeInRange (calculateBaseFee used limit fee) := by
  obtain ⟨hpos, hmax⟩ := h
  rcases calculateBaseFee_cases used hpos hlimit with ⟨-, h⟩ | ⟨-, h⟩ | ⟨-, h⟩ <;> rw [h]
  · exact ⟨le_min (by omega) (by decide), min_le_right _ _⟩
  · exact ⟨le_max_right _ _, max_le (by omega) (by decide)⟩
  · exact ⟨hpos, hmax⟩

theorem calculateBaseFee_mono (h : used ≤ used') (limit : Nat) (hfee : fee ≤ u64Max) :
    calculateBaseFee used limit fee ≤ calculateBaseFee used' limit fee := by
  rcases Nat.eq_zero_or_pos fee with rfl | hpos
  · simp [calculateBaseFee]
  by_cases hlimit : 2 ≤ limit
  · have hup := baseFeeDelta_mono (Nat.sub_le_sub_right h (limit / 2)) fee (limit / 2)
    have hdown := baseFeeDelta_mono (Nat.sub_le_sub_left h (limit / 2)) fee (limit / 2)
    rcases calculateBaseFee_cases used hpos hlimit with ⟨hu, h1⟩ | ⟨hu, h1⟩ | ⟨hu, h1⟩ <;>
      rcases calculateBaseFee_cases used' hpos hlimit with ⟨hu', h2⟩ | ⟨hu', h2⟩ | ⟨hu', h2⟩ <;>
      omega
  · simp [calculateBaseFee, show limit / 2 = 0 by omega]

/-- The step that the documentation of `calculate_base_fee` allows: an eighth of the fee, and at least one. -/
def WithinEighth (fee next : Nat) : Prop :=
  next ≤ fee + max 1 (fee / 8) ∧ fee ≤ next + max 1 (fee / 8)

/-- With an even limit, or below the limit, the gas above the target is at most the target. -/
theorem withinEighth_of_even_or_lt (hused : used ≤ limit) (hlimit : 2 ≤ limit) (h : Even limit ∨ used < limit)
    (hfee : FeeInRange fee) : WithinEighth fee (calculateBaseFee used limit fee) := by
  have htarget : used - limit / 2 ≤ limit / 2 := by
    rcases h with ⟨k, rfl⟩ | h <;> omega
  have hup : baseFeeDelta fee (used - limit / 2) (limit / 2) ≤ fee / 8 := baseFeeDelta_le htarget
  have hdown : baseFeeDelta fee (limit / 2 - used) (limit / 2) ≤ fee / 8 := baseFeeDelta_le (Nat.sub_le _ _)
  obtain ⟨hpos, hmax⟩ := hfee
  rcases calculateBaseFee_cases used hpos hlimit with ⟨-, h⟩ | ⟨-, h⟩ | ⟨-, h⟩ <;>
    constructor <;> omega

/-- With an odd limit a full block moves some fee by more: one just below a multiple of eight that is not below the target. -/
theorem not_withinEighth_of_odd (hlimit : 2 ≤ limit) (hmax : limit ≤ u64Max) (hodd : ¬ Even limit) :
    ∃ fee, FeeInRange fee ∧ ¬ WithinEighth fee (calculateBaseFee limit limit fee) := by
  obtain ⟨k, rfl⟩ := Nat.not_even_iff_odd.mp hodd
  obtain ⟨fee, hfee⟩ : ∃ fee, fee = 8 * (k / 8 + 1) + 7 := ⟨_, rfl⟩
  -- the quotient by the target rounds the fee up to the next multiple of eight
  have hquot : fee + 1 ≤ fee * (k + 1) / k := by
    rw [Nat.le_div_iff_mul_le (by omega), Nat.succ_mul, Nat.mul_succ]
    omega
  unfold u64Max at hmax
  have hdelta : k / 8 + 2 ≤ baseFeeDelta fee (k + 1) k := le_min (by omega) (by unfold u64Max; omega)
  refine ⟨fee, ⟨by omega, by unfold u64Max; omega⟩, fun hwithin => ?_⟩
  have hnext := hwithin.1
  rcases calculateBaseFee_cases (2 * k + 1) (by omega : 1 ≤ fee) hlimit with ⟨-, h⟩ | ⟨hlt, -⟩ | ⟨heq, -⟩
  · rw [show (2 * k + 1) / 2 = k by omega, show 2 * k + 1 - k = k + 1 by omega] at h
    unfold u64Max at h
    omega
  · omega
  · omega

end BaseFee

/-- `verify_import_economics`: the base fee of a header is computed from its parent. -/
def FollowsBaseFee (parent child : BlockHeader) : Prop :=
  child.baseFeePerGas = calculateBaseFee parent.gasUsed parent.gasLimit parent.baseFeePerGas

/-- The gas of a header: a limit with a target above zero, and no more used than the limit. -/
structure GasInRange (hdr : BlockHeader) : Prop where
  gasUsed : hdr.gasUsed ≤ hdr.gasLimit
  gasLimit : 2 ≤ hdr.gasLimit ∧ hdr.gasLimit ≤ u64Max

/-- The fee of a child against its parent. -/
structure BoundedFee (parent child : BlockHeader) : Prop where
  within : Even parent.gasLimit ∨ parent.gasUsed < parent.gasLimit →
    WithinEighth parent.baseFeePerGas child.baseFeePerGas
  rises : parent.gasLimit < 2 * parent.gasUsed → parent.baseFeePerGas = u64Max ∨ parent.baseFeePerGas < child.baseFeePerGas
  keeps : 2 * parent.gasUsed < parent.gasLimit → child.baseFeePerGas ≤ parent.baseFeePerGas

/-- Every fee of a chain is in range when the first is. -/
theorem feeInRange_of_chain {headers : List BlockHeader} (hchain : headers.IsChain FollowsBaseFee)
    (hgas : ∀ hdr ∈ headers, GasInRange hdr) (hfirst : ∀ hdr ∈ headers.head?, FeeInRange hdr.baseFeePerGas) :
    ∀ hdr ∈ headers, FeeInRange hdr.baseFeePerGas := by
  induction hchain with
  | nil => simp
  | singleton hdr => simpa using hfirst
  | @cons_cons parent child rest hfollows hrest ih =>
    obtain ⟨hparent, hgas⟩ := List.forall_mem_cons.mp hgas
    have hfee : FeeInRange parent.baseFeePerGas := hfirst parent rfl
    refine List.forall_mem_cons.mpr ⟨hfee, ih hgas ?_⟩
    rintro hdr ⟨rfl⟩
    rw [hfollows]
    exact hfee.calculateBaseFee hparent.gasLimit.1

/-- On a chain of headers whose fees follow from their parents, no fee is zero, each step keeps its bound where the limit of
the parent is even or not used up, and the fee rises above half of the limit and not below it. It is monotone in the gas. The
step bound holds for a limit and the gas used, at every fee, exactly under this condition. -/
theorem base_fee_bounded {headers : List BlockHeader} (hchain : headers.IsChain FollowsBaseFee)
    (hgas : ∀ hdr ∈ headers, GasInRange hdr) (hfirst : ∀ hdr ∈ headers.head?, FeeInRange hdr.baseFeePerGas) :
    (∀ hdr ∈ headers, hdr.baseFeePerGas ≠ 0) ∧ headers.IsChain BoundedFee ∧
      (∀ limit fee used used', fee ≤ u64Max → used ≤ used' →
        calculateBaseFee used limit fee ≤ calculateBaseFee used' limit fee) ∧
      ∀ limit used, 2 ≤ limit → limit ≤ u64Max → used ≤ limit →
        ((∀ fee, FeeInRange fee → WithinEighth fee (calculateBaseFee used limit fee)) ↔ Even limit ∨ used < limit) := by
  have hrange := feeInRange_of_chain hchain hgas hfirst
  refine ⟨fun hdr hmem => Nat.one_le_iff_ne_zero.mp (hrange hdr hmem).1, ?_, ?_, ?_⟩
  · refine hchain.imp_of_mem_imp fun parent child hparent _ hfollows => ?_
    obtain ⟨hused, hlimit, -⟩ := hgas parent hparent
    obtain ⟨hpos, hmax⟩ := hrange parent hparent
    have hcases := calculateBaseFee_cases parent.gasUsed hpos hlimit
    rw [← hfollows] at hcases
    refine ⟨fun hstep => ?_, fun habove => ?_, fun hbelow => ?_⟩
    · rw [hfollows]
      exact withinEighth_of_even_or_lt hused hlimit hstep ⟨hpos, hmax⟩
    · omega
    · omega
  · intro limit fee used used' hfee hused
    exact calculateBaseFee_mono hused limit hfee
  · intro limit used hlimit hmax hused
    refine ⟨fun hall => ?_, fun hstep fee hfee => withinEighth_of_even_or_lt hused hlimit hstep hfee⟩
    by_contra hfull
    obtain ⟨hodd, hnot⟩ := not_or.mp hfull
    obtain rfl := Nat.le_antisymm hused (Nat.le_of_not_lt hnot)
    obtain ⟨fee, hfee, hexceeds⟩ := not_withinEighth_of_odd hlimit hmax hodd
    exact hexceeds (hall fee hfee)

namespace OddLimit

/-- A full block with an odd limit. -/
def parent : BlockHeader :=
  { (default : BlockHeader) with gasLimit := 30000001, gasUsed := 30000001, baseFeePerGas := initialBaseFee }

def child : BlockHeader :=
  { parent with baseFeePerGas := 1125000008 }

theorem gasInRange : ∀ hdr ∈ [parent, child], GasInRange hdr := by
  simp only [List.forall_mem_cons, List.not_mem_nil, false_imp_iff, implies_true, and_true]
  exact ⟨⟨by decide, by decide⟩, ⟨by decide, by decide⟩⟩

/-- The step after a full block with an odd limit exceeds the eighth. -/
theorem step_exceeds_eighth : [parent, child].IsChain FollowsBaseFee ∧ (∀ hdr ∈ [parent, child], GasInRange hdr) ∧
    FeeInRange parent.baseFeePerGas ∧ ¬ WithinEighth parent.baseFeePerGas child.baseFeePerGas := by
  refine ⟨List.isChain_pair.mpr (by decide : child.baseFeePerGas = _), gasInRange, ⟨by decide, by decide⟩, ?_⟩
  unfold WithinEighth
  decide

theorem fee_rises : parent.baseFeePerGas < child.baseFeePerGas := by
  have hbounded := @base_fee_bounded [parent, child] (List.isChain_pair.mpr (by decide : child.baseFeePerGas = _))
    gasInRange (by rintro hdr ⟨rfl⟩; exact ⟨by decide, by decide⟩)
  exact ((List.isChain_pair.mp hbounded.2.1).rises (by decide)).resolve_left (by decide)

end OddLimit

end ShellChain
