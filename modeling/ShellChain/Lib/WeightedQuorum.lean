import Mathlib.Algebra.GroupWithZero.Nat
import Mathlib.Algebra.BigOperators.Group.Finset.Piecewise
import Mathlib.Algebra.Order.BigOperators.Group.Finset
import Mathlib.Data.List.AList

/-!
# Weighted quorums

Members of a finite set carry natural-number weights, and a quorum is a set of members whose weight exceeds two thirds of a
total. Two quorums of one total share more than a third of it. Weight maps are association lists: the weight of an
absent key is zero, and the total is the sum of the values.
-/

namespace WeightedQuorum

variable {α : Type} [DecidableEq α]

/-- Two sets that each weigh more than two thirds of a total which bounds their union share more than a third of it. -/
theorem third_lt_inter (w : α → Nat) (A B : Finset α) (t : Nat) (hA : 2 * t < 3 * ∑ a ∈ A, w a)
    (hB : 2 * t < 3 * ∑ a ∈ B, w a) (hU : ∑ a ∈ A ∪ B, w a ≤ t) : t < 3 * ∑ a ∈ A ∩ B, w a := by
  have hsum : ∑ a ∈ A ∪ B, w a + ∑ a ∈ A ∩ B, w a = ∑ a ∈ A, w a + ∑ a ∈ B, w a := Finset.sum_union_inter
  omega

/-- The weight of a key: zero when it is absent. -/
def weightOf (m : AList (fun _ : α => Nat)) (a : α) : Nat :=
  (m.lookup a).getD 0

/-- The sum of all the weights of the map. -/
def total (m : AList (fun _ : α => Nat)) : Nat :=
  (m.entries.map Sigma.snd).sum

/-- The weight of a set of keys is at most the total. -/
theorem sum_weightOf_le_total (m : AList (fun _ : α => Nat)) (A : Finset α) : ∑ a ∈ A, weightOf m a ≤ total m := by
  induction m using AList.insertRec generalizing A with
  | H0 => simp [weightOf]
  | IH k b m hk ih =>
    have htotal : total (AList.insert k b m) = b + total m := by
      rw [total, AList.entries_insert_of_notMem hk, List.map_cons, List.sum_cons, total]
    have hself : weightOf (AList.insert k b m) k = b := by
      simp [weightOf]
    have hother : ∑ a ∈ A.erase k, weightOf (AList.insert k b m) a = ∑ a ∈ A.erase k, weightOf m a := by
      refine Finset.sum_congr rfl fun a ha => ?_
      rw [weightOf, AList.lookup_insert_ne (Finset.ne_of_mem_erase ha), weightOf]
    have hle := ih (A.erase k)
    by_cases hkA : k ∈ A
    · rw [← Finset.add_sum_erase A _ hkA, hself, hother, htotal]
      omega
    · rw [Finset.erase_eq_of_notMem hkA] at hother hle
      rw [hother, htotal]
      omega

end WeightedQuorum
