import Mathlib.Algebra.Order.BigOperators.Group.Finset
import ShellChain.Fees

/-!
# The blob price

`fake_exponential` adds up a series until a term is zero or the sum saturates. The terms at least double while the counter is
below half of the ratio of numerator and denominator, and halve once it is above twice that ratio. So the sum saturates or a
term is zero within a few hundred rounds, and no product leaves 256 bits.
-/

namespace ShellChain

open Finset (range sum_range_succ)

/-- A result of a `U256` operation; none where it overflows. -/
def u256 (n : Nat) : Option Nat :=
  if n < 2 ^ 256 then some n else none

/-- The loop of `fake_exponential` with every operation checked. -/
def fakeExponentialU256Loop (numerator denominator : Nat) : Nat → Nat → Nat → Nat → Option Nat
  | 0, _, _, _ => some u64Max
  | fuel + 1, i, output, accum =>
    if accum = 0 then if output / denominator ≤ u64Max then some (output / denominator) else none
    else if u64Max * denominator < output then none
    else if u64Max * denominator - output ≤ accum then some u64Max
    else do
      let output ← u256 (output + accum)
      let product ← u256 (accum * numerator)
      let divisor ← (u256 (denominator * i)).filter (· ≠ 0)
      fakeExponentialU256Loop numerator denominator fuel (i + 1) output (product / divisor)

/-- `fake_exponential` with every operation checked. -/
def fakeExponentialU256 (factor numerator denominator : Nat) : Option Nat :=
  if denominator = 0 then some u64Max
  else do
    let _ ← u256 (u64Max * denominator)
    let accum ← u256 (factor * denominator)
    fakeExponentialU256Loop numerator denominator u64Max 1 0 accum

/-- The terms of the series, over unbounded integers. -/
def expTerm (factor numerator denominator : Nat) : Nat → Nat
  | 0 => factor * denominator
  | i + 1 => expTerm factor numerator denominator i * numerator / (denominator * (i + 1))

/-- The sum of the first terms. -/
def expSum (factor numerator denominator n : Nat) : Nat :=
  ∑ i ∈ range n, expTerm factor numerator denominator i

variable {f n d i j k : Nat}

theorem expTerm_mono {n' : Nat} (h : n ≤ n') (f d i : Nat) : expTerm f n d i ≤ expTerm f n' d i := by
  induction i with
  | zero => exact le_rfl
  | succ i ih => exact Nat.div_le_div_right (Nat.mul_le_mul ih h)

theorem expTerm_eq_zero (h : expTerm f n d i = 0) (hij : i ≤ j) : expTerm f n d j = 0 := by
  induction hij with
  | refl => exact h
  | step _ ih => simp [expTerm, ih]

/-- Terms halve once the counter is above twice the ratio. -/
theorem expTerm_add_eq_zero (hd : 0 < d) (h : 2 * n ≤ d * (i + 1)) (hk : expTerm f n d i < 2 ^ k) :
    expTerm f n d (i + k) = 0 := by
  induction k generalizing i with
  | zero => exact Nat.lt_one_iff.mp hk
  | succ k ih =>
    have hhalf : expTerm f n d (i + 1) * 2 ≤ expTerm f n d i := by
      refine Nat.le_of_mul_le_mul_right ?_ (Nat.mul_pos hd i.succ_pos)
      calc expTerm f n d (i + 1) * 2 * (d * (i + 1)) = expTerm f n d (i + 1) * (d * (i + 1)) * 2 := Nat.mul_right_comm ..
        _ ≤ expTerm f n d i * n * 2 := Nat.mul_le_mul_right 2 (Nat.div_mul_le_self ..)
        _ = expTerm f n d i * (2 * n) := by rw [Nat.mul_assoc, Nat.mul_comm n]
        _ ≤ expTerm f n d i * (d * (i + 1)) := Nat.mul_le_mul_left _ h
    rw [Nat.add_comm k, ← Nat.add_assoc]
    exact ih (h.trans (Nat.mul_le_mul_left d (by omega))) (by omega)

/-- Terms double below half of the ratio. -/
theorem le_expTerm (h : 128 * d ≤ n) (hd : 0 < d) (hi : i ≤ 64) : f * d * 2 ^ i ≤ expTerm f n d i := by
  induction i with
  | zero => simp [expTerm]
  | succ i ih =>
    rw [expTerm, Nat.le_div_iff_mul_le (Nat.mul_pos hd i.succ_pos)]
    have hratio : 2 * (d * (i + 1)) ≤ n := by
      have := Nat.mul_le_mul_left d (show i + 1 ≤ 64 by omega)
      omega
    calc f * d * 2 ^ (i + 1) * (d * (i + 1)) = f * d * 2 ^ i * (2 * (d * (i + 1))) := by rw [pow_succ]; ring
      _ ≤ expTerm f n d i * n := Nat.mul_le_mul (ih (by omega)) hratio

/-- A sum that does not saturate ends within 385 terms. -/
theorem expTerm_384 (hd : 0 < d) (hmax : d ≤ u64Max) (hsum : expSum f n d 385 < u64Max * d) : expTerm f n d 384 = 0 := by
  have hle (i : Nat) (hi : i < 385) : expTerm f n d i ≤ expSum f n d 385 :=
    Finset.single_le_sum (fun _ _ => Nat.zero_le _) (Finset.mem_range.mpr hi)
  by_cases hratio : 128 * d ≤ n
  · have hterm := (le_expTerm (f := f) hratio hd le_rfl).trans (hle 64 (by omega))
    have hf : f = 0 := by
      by_contra hf
      have hlow := Nat.le_mul_of_pos_left d (Nat.pos_of_ne_zero hf)
      unfold u64Max at hsum
      omega
    exact expTerm_eq_zero (i := 0) (by simp [expTerm, hf]) (Nat.zero_le _)
  · have hpow : u64Max * u64Max < 2 ^ 128 := by decide
    have hlimit := Nat.mul_le_mul_left u64Max hmax
    exact expTerm_add_eq_zero (i := 256) (k := 128) hd (by omega) (by have := hle 256 (by omega); omega)

/-- The loop in the round of a term returns the quotient of the sum, and no operation overflows. -/
theorem fakeExponentialLoop_eq (hd : 0 < d) (hmax : d ≤ u64Max) (hn : n ≤ u64Max) (hj : 385 ≤ j) (fuel : Nat) (hi : i < 385)
    (hfuel : 385 ≤ i + fuel) (hcount : i + fuel ≤ u64Max) (hlimit : expSum f n d i < u64Max * d) :
    fakeExponentialU256Loop n d fuel (i + 1) (expSum f n d i) (expTerm f n d i) = some (min u64Max (expSum f n d j / d)) ∧
      fakeExponentialLoop n d fuel (i + 1) (expSum f n d i) (expTerm f n d i) = min u64Max (expSum f n d j / d) := by
  induction fuel generalizing i with
  | zero => omega
  | succ fuel ih =>
    rw [fakeExponentialU256Loop, fakeExponentialLoop]
    have hsquare : u64Max * d ≤ u64Max * u64Max := Nat.mul_le_mul_left _ hmax
    have hword : u64Max * u64Max * u64Max < 2 ^ 256 ∧ u64Max * u64Max < 2 ^ 256 := by decide
    by_cases hterm : expTerm f n d i = 0
    · have hsum : expSum f n d i = expSum f n d j :=
        Finset.sum_subset (Finset.range_mono (by omega)) fun k _ hk => expTerm_eq_zero hterm (by simpa using hk)
      have hquot : expSum f n d i / d < u64Max := Nat.div_lt_of_lt_mul (by rwa [Nat.mul_comm])
      rw [if_pos hterm, if_pos hterm, ← hsum, min_eq_right hquot.le, if_pos hquot.le]
      exact ⟨rfl, rfl⟩
    have hnext : expSum f n d (i + 1) = expSum f n d i + expTerm f n d i := sum_range_succ _ i
    have hle {k : Nat} (hk : i < k) : expSum f n d (i + 1) ≤ expSum f n d k :=
      Finset.sum_le_sum_of_subset (Finset.range_mono hk)
    rw [if_neg hterm, if_neg hterm, if_neg hlimit.not_gt]
    by_cases hsat : u64Max * d - expSum f n d i ≤ expTerm f n d i
    · have hquot : u64Max ≤ expSum f n d j / d := by
        rw [Nat.le_div_iff_mul_le hd]
        exact le_trans (by omega) (hle (by omega))
      rw [if_pos hsat, if_pos hsat, min_eq_left hquot]
      exact ⟨rfl, rfl⟩
    have hbelow : expSum f n d (i + 1) < u64Max * d := by omega
    have hlast : i ≠ 384 := by
      rintro rfl
      exact hterm (expTerm_384 hd hmax hbelow)
    have hproduct : expTerm f n d i * n ≤ u64Max * u64Max * u64Max := Nat.mul_le_mul (by omega) hn
    have hdivisor : d * (i + 1) ≤ u64Max * u64Max := Nat.mul_le_mul hmax (by omega)
    have hpos : d * (i + 1) ≠ 0 := (Nat.mul_pos hd i.succ_pos).ne'
    rw [if_neg hsat, if_neg hsat, ← hnext, u256, if_pos (by omega), u256, if_pos (by omega), u256, if_pos (by omega),
      Option.filter_some, if_pos (by simpa using hpos)]
    exact ih (by omega) (by omega) (by omega) hbelow

theorem fakeExponential_eq (hf : f ≤ u64Max) (hn : n ≤ u64Max) (hd : 0 < d) (hmax : d ≤ u64Max) (hj : 385 ≤ j) :
    fakeExponentialU256 f n d = some (min u64Max (expSum f n d j / d)) ∧
      fakeExponential f n d = min u64Max (expSum f n d j / d) := by
  have hloop := fakeExponentialLoop_eq (f := f) (i := 0) hd hmax hn hj u64Max (by omega) (by decide) (by omega)
    (Nat.mul_pos (by decide) hd)
  rw [expTerm, show expSum f n d 0 = 0 from rfl, Nat.zero_add] at hloop
  have hword : u64Max * u64Max < 2 ^ 256 := by decide
  rw [fakeExponentialU256, fakeExponential, if_neg hd.ne', if_neg hd.ne', u256,
    if_pos ((Nat.mul_le_mul_left _ hmax).trans_lt hword), u256, if_pos ((Nat.mul_le_mul hf hmax).trans_lt hword)]
  simpa only [Option.bind_eq_bind, Option.bind_some] using hloop

theorem calcBlobGasPrice_mono (h : i ≤ j) (hj : j ≤ u64Max) : calcBlobGasPrice i ≤ calcBlobGasPrice j := by
  have heq (k : Nat) (hk : k ≤ u64Max) := (fakeExponential_eq (f := 1) (d := blobBaseFeeUpdateFraction) (by decide) hk
    (by decide) (by decide) le_rfl).2
  rw [calcBlobGasPrice, calcBlobGasPrice, heq _ hj, heq _ (h.trans hj)]
  exact min_le_min_left _ (Nat.div_le_div_right (Finset.sum_le_sum fun k _ => expTerm_mono h 1 _ k))

/-- `verify_import_economics`: the excess of a header is computed from its parent. -/
def FollowsBlobGas (parent child : BlockHeader) : Prop :=
  child.excessBlobGas = calcExcessBlobGas parent.excessBlobGas parent.blobGasUsed

/-- `fake_exponential` does not overflow and returns the quotient of the whole series, saturated. The blob price is at least
one and monotone in the excess, and does not rise on a chain whose blocks use the target. -/
theorem blob_price_total_monotone :
    (∀ factor ≤ u64Max, ∀ numerator ≤ u64Max, ∀ denominator ≤ u64Max,
      fakeExponentialU256 factor numerator denominator = some (fakeExponential factor numerator denominator) ∧
      (denominator = 0 → fakeExponential factor numerator denominator = u64Max) ∧
      (denominator ≠ 0 → ∃ rounds, (∀ i ≥ rounds, expTerm factor numerator denominator i = 0) ∧
        fakeExponential factor numerator denominator =
          min u64Max (expSum factor numerator denominator rounds / denominator))) ∧
    (∀ excess ≤ u64Max, 1 ≤ calcBlobGasPrice excess) ∧
    (∀ excess' ≤ u64Max, ∀ excess ≤ excess', calcBlobGasPrice excess ≤ calcBlobGasPrice excess') ∧
    ∀ headers : List BlockHeader, headers.IsChain FollowsBlobGas →
      (∀ hdr ∈ headers, hdr.excessBlobGas ≤ u64Max ∧ hdr.blobGasUsed = targetBlobGasPerBlock) →
      headers.IsChain fun parent child => calcBlobGasPrice child.excessBlobGas ≤ calcBlobGasPrice parent.excessBlobGas := by
  refine ⟨fun f hf n hn d hd => ?_, fun excess h => ?_, fun _ h' _ h => calcBlobGasPrice_mono h h',
    fun headers hchain hgas => ?_⟩
  · rcases Nat.eq_zero_or_pos d with rfl | hpos
    · exact ⟨rfl, fun _ => rfl, fun h => absurd rfl h⟩
    obtain ⟨m, hm⟩ : ∃ m, expTerm f n d m = 0 :=
      ⟨_, expTerm_add_eq_zero (i := 2 * n) hpos ((Nat.le_succ _).trans (Nat.le_mul_of_pos_left _ hpos)) Nat.lt_two_pow_self⟩
    obtain ⟨hword, hnat⟩ := fakeExponential_eq (j := m + 385) hf hn hpos hd (by omega)
    exact ⟨hword.trans (congrArg some hnat.symm), fun h => absurd h hpos.ne',
      fun _ => ⟨m + 385, fun i hi => expTerm_eq_zero hm (by omega), hnat⟩⟩
  · have hone : calcBlobGasPrice 0 = 1 := by decide +kernel
    exact hone ▸ calcBlobGasPrice_mono (Nat.zero_le excess) h
  · refine hchain.imp_of_mem_imp fun parent child hparent _ hfollows => ?_
    obtain ⟨hmax, hused⟩ := hgas parent hparent
    refine calcBlobGasPrice_mono ?_ hmax
    rw [hfollows, hused, calcExcessBlobGas, saturatingAdd]
    omega

end ShellChain
