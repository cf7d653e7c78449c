import Mathlib.Data.List.Basic
import Mathlib.Tactic.Ring

/-!
# Fixed-width integers as bytes

The little-endian and big-endian encodings of a natural number in a fixed number of bytes, their lengths, and that each
determines the number when it fits in the width.
-/

namespace ByteCodec

/-- The `w` low bytes of `n`, least significant first. -/
def leBytes : Nat → Nat → List UInt8
  | 0, _ => []
  | w + 1, n => UInt8.ofNat n :: leBytes w (n / 256)

/-- The `w` low bytes of `n`, most significant first. -/
def beBytes (w n : Nat) : List UInt8 :=
  (leBytes w n).reverse

@[simp] theorem length_leBytes (w n : Nat) : (leBytes w n).length = w := by
  induction w generalizing n with
  | zero => rfl
  | succ w ih => simp [leBytes, ih]

@[simp] theorem length_beBytes (w n : Nat) : (beBytes w n).length = w := by
  simp [beBytes]

/-- A number below `256 ^ w` is determined by its `w` low bytes. -/
theorem leBytes_inj {w m n : Nat} (hm : m < 256 ^ w) (hn : n < 256 ^ w) (h : leBytes w m = leBytes w n) : m = n := by
  induction w generalizing m n with
  | zero => simp at hm hn; omega
  | succ w ih =>
    obtain ⟨hhead, htail⟩ := List.cons.inj h
    have hmod : m % 256 = n % 256 := by
      have := congrArg UInt8.toNat hhead
      simpa using this
    have hdiv : m / 256 = n / 256 := by
      refine ih ?_ ?_ htail
      · rw [Nat.div_lt_iff_lt_mul (by omega), ← Nat.pow_succ]; exact hm
      · rw [Nat.div_lt_iff_lt_mul (by omega), ← Nat.pow_succ]; exact hn
    omega

theorem beBytes_inj {w m n : Nat} (hm : m < 256 ^ w) (hn : n < 256 ^ w) (h : beBytes w m = beBytes w n) : m = n :=
  leBytes_inj hm hn (List.reverse_injective h)

end ByteCodec
