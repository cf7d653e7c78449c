import Mathlib.Data.Fintype.BigOperators

/-!
# Ledgers with a counter

A ledger holds a free and a bound amount for every account, and a counter that is meant to be the sum of the bound amounts.
An operation that writes the entry of one account and the counter keeps the sums exactly when its own numbers add up, so
that sums over all accounts never have to be computed.
-/

/-- The free and the bound amount of every account, and the counter of the bound ones. -/
structure Ledger (α : Type) where
  free : α → Nat
  bound : α → Nat
  total : Nat

namespace Ledger

variable {α : Type} [Fintype α]

/-- The counter is the sum of the bound amounts. -/
def Balanced (L : Ledger α) : Prop :=
  L.total = ∑ a, L.bound a

/-- All amounts, free or bound. -/
def holdings (L : Ledger α) : Nat :=
  ∑ a, (L.free a + L.bound a)

variable [DecidableEq α]

/-- The ledger with another entry of one account and another counter. -/
def rebook (L : Ledger α) (a : α) (free bound total : Nat) : Ledger α :=
  ⟨Function.update L.free a free, Function.update L.bound a bound, total⟩

omit [Fintype α] in
theorem rebook_self (L : Ledger α) (a : α) : L.rebook a (L.free a) (L.bound a) L.total = L := by
  simp [rebook]

theorem sum_update_add (f : α → Nat) (a : α) (v : Nat) : ∑ x, Function.update f a v x + f a = ∑ x, f x + v := by
  rw [Finset.sum_update_of_mem (Finset.mem_univ a), Fintype.sum_eq_add_sum_compl a f, Finset.compl_eq_univ_sdiff]
  omega

variable {L L' : Ledger α} {a : α}

theorem balanced_rebook_iff (h : L.Balanced) (a : α) (free bound total : Nat) :
    (L.rebook a free bound total).Balanced ↔ total + L.bound a = L.total + bound := by
  have hsum := sum_update_add L.bound a bound
  unfold Balanced at h
  simp only [Balanced, rebook]
  omega

theorem holdings_rebook_eq_iff (L : Ledger α) (a : α) (free bound total : Nat) :
    (L.rebook a free bound total).holdings = L.holdings ↔ free + bound = L.free a + L.bound a := by
  have hfree := sum_update_add L.free a free
  have hbound := sum_update_add L.bound a bound
  simp only [holdings, rebook, Finset.sum_add_distrib]
  omega

/-- The entry of an account was rewritten so that nothing is lost: what it held it still holds, and the counter followed. -/
def Moved (L L' : Ledger α) (a : α) : Prop :=
  ∃ free bound total, L' = L.rebook a free bound total ∧ free + bound = L.free a + L.bound a ∧
    total + L.bound a = L.total + bound

/-- The entry of an account was rewritten in part. -/
def Torn (L L' : Ledger α) (a : α) : Prop :=
  ∃ free bound total, L' = L.rebook a free bound total ∧
    ¬ (free + bound = L.free a + L.bound a ∧ total + L.bound a = L.total + bound)

theorem Moved.keeps (h : L.Moved L' a) (hL : L.Balanced) : L'.Balanced ∧ L'.holdings = L.holdings := by
  obtain ⟨free, bound, total, rfl, hamount, htotal⟩ := h
  exact ⟨(balanced_rebook_iff hL ..).mpr htotal, (holdings_rebook_eq_iff ..).mpr hamount⟩

theorem Torn.breaks (h : L.Torn L' a) (hL : L.Balanced) : ¬ (L'.Balanced ∧ L'.holdings = L.holdings) := by
  obtain ⟨free, bound, total, rfl, hbroken⟩ := h
  rintro ⟨hbalanced, hholdings⟩
  exact hbroken ⟨(holdings_rebook_eq_iff ..).mp hholdings, (balanced_rebook_iff hL ..).mp hbalanced⟩

end Ledger
