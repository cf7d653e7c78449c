import ShellChain.NativeContext

/-!
# Handles are faithful

Whatever the hash function, the two maps of the native address context stay inverse to each other, so that addresses and
handles determine each other for the rest of the transaction. A reserved key is only ever the handle of the address that
embeds it, and is free for that address whenever it comes.
-/

namespace ShellChain

namespace AddressKeys

variable {Γ : Ctx} {keys : AddressKeys} {a : Address} {key : EvmAddress}

/-- An offered key is free, and is reserved only for the address that embeds it. -/
theorem offer_spec {counter : Nat} (h : keys.offer Γ a counter = some key) :
    keys.byKey.lookup key = none ∧ (isReservedKey key → a = .fromAlloy key) := by
  simp only [offer, Option.ite_none_left_eq_some, Option.some.injEq, Option.not_isSome_iff_eq_none] at h
  obtain ⟨hreserved, hfree, rfl⟩ := h
  refine ⟨hfree, fun hkey => ?_⟩
  have hown : a.canonical ∧ counter = 0 := by
    by_contra hnot
    refine hreserved ⟨?_, hkey⟩
    by_cases ha : a.canonical
    · exact .inr (Nat.pos_of_ne_zero fun hzero => hnot ⟨ha, hzero⟩)
    · exact .inl ha
  rw [keyAt, if_pos hown]
  exact (of_decide_eq_true hown.1).symm

theorem freeKey_spec {remaining counter : Nat} (h : keys.freeKey Γ a remaining counter = some key) :
    keys.byKey.lookup key = none ∧ (isReservedKey key → a = .fromAlloy key) := by
  induction remaining generalizing counter with
  | zero => exact offer_spec h
  | succ remaining ih =>
    rw [freeKey, Option.orElse_eq_some] at h
    rcases h with h | ⟨-, h⟩
    · exact offer_spec h
    · exact ih h

/-- An address that embeds a free key is offered it first. -/
theorem freeKey_of_canonical (ha : a.canonical) (hfree : keys.byKey.lookup a.toAlloy = none) (remaining : Nat) :
    keys.freeKey Γ a remaining 0 = some a.toAlloy := by
  have hoffer : keys.offer Γ a 0 = some a.toAlloy := by
    have hkey : keyAt Γ a 0 = a.toAlloy := if_pos ⟨ha, rfl⟩
    rw [← hkey] at hfree
    simp [offer, hkey, ha, hfree]
  cases remaining with
  | zero => exact hoffer
  | succ remaining => rw [freeKey, hoffer]; rfl

/-- The maps are inverse to each other, and reserved keys and the addresses that embed them belong to each other. -/
structure Faithful (keys : AddressKeys) : Prop where
  inverse : ∀ a key, keys.byNative.lookup a = some key ↔ keys.byKey.lookup key = some a
  reserved : ∀ a key, keys.byKey.lookup key = some a → isReservedKey key → a = .fromAlloy key
  embedded : ∀ a key, keys.byKey.lookup key = some a → a.canonical → isReservedKey a.toAlloy → key = a.toAlloy

/-- A reserved key that an unregistered address embeds is free. -/
theorem Faithful.free_of_reserved (h : keys.Faithful) (hnew : keys.byNative.lookup a = none) (ha : a.canonical)
    (hreserved : isReservedKey a.toAlloy) : keys.byKey.lookup a.toAlloy = none := by
  cases htaken : keys.byKey.lookup a.toAlloy with
  | none => rfl
  | some b =>
    obtain rfl : b = a := (h.reserved b _ htaken hreserved).trans (of_decide_eq_true ha)
    rw [(h.inverse b _).mpr htaken] at hnew
    cases hnew

/-- A registration returns what is entered, or enters a new handle, or fails and changes nothing. -/
theorem Faithful.register (h : keys.Faithful) (Γ : Ctx) (a : Address) : (keys.register Γ a).2.Faithful := by
  unfold AddressKeys.register
  split
  · exact h
  · rename_i hnew
    split
    · exact h
    · rename_i key hkey
      obtain ⟨hfree, hreserved⟩ := freeKey_spec hkey
      constructor
      · intro b k
        simp only [AList.lookup_insert_eq_some, h.inverse]
        constructor
        · rintro (⟨rfl, rfl⟩ | ⟨hb, hk⟩)
          · exact .inl ⟨rfl, rfl⟩
          · refine .inr ⟨?_, hk⟩
            rintro rfl
            rw [hfree] at hk
            cases hk
        · rintro (⟨rfl, rfl⟩ | ⟨hk, hb⟩)
          · exact .inl ⟨rfl, rfl⟩
          · refine .inr ⟨?_, hb⟩
            rintro rfl
            rw [← h.inverse, hnew] at hb
            cases hb
      · intro b k hb
        rcases AList.lookup_insert_eq_some.mp hb with ⟨rfl, rfl⟩ | ⟨-, hb⟩
        · exact hreserved
        · exact h.reserved b k hb
      · intro b k hb hcanonical hembedded
        rcases AList.lookup_insert_eq_some.mp hb with ⟨rfl, rfl⟩ | ⟨-, hb⟩
        · rw [freeKey_of_canonical hcanonical (h.free_of_reserved hnew hcanonical hembedded)] at hkey
          exact (Option.some.inj hkey).symm
        · exact h.embedded b k hb hcanonical hembedded

/-- A key that a registration returns is entered for the address. -/
theorem byNative_of_register (h : (keys.register Γ a).1 = .ok key) :
    (keys.register Γ a).2.byNative.lookup a = some key := by
  unfold register at h ⊢
  split at h
  · rename_i k hk
    cases h
    exact hk
  · split at h
    · cases h
    · cases h
      exact AList.lookup_insert _

/-- An entered handle is never replaced. -/
theorem byNative_register (h : keys.byNative.lookup a = some key) (b : Address) :
    (keys.register Γ b).2.byNative.lookup a = some key := by
  unfold register
  split
  · exact h
  · rename_i hnew
    split
    · exact h
    · refine AList.lookup_insert_eq_some.mpr (.inr ⟨?_, h⟩)
      rintro rfl
      rw [hnew] at h
      cases h

theorem faithful_run (Γ : Ctx) (addresses : List Address) : ((handleSystem Γ).run .empty addresses).Faithful :=
  TransitionSystem.invariant_run_of_step (M := handleSystem Γ) (I := Faithful) (fun _ a h => h.register Γ a)
    ⟨by simp [empty], by simp [empty], by simp [empty]⟩ addresses

end AddressKeys

/-- In every sequence of registrations, and for every hash function: a handle that is returned resolves to its address from
then on, is returned again for it and for no other address, and is reserved only if the address embeds it. An address that
embeds a reserved key is always given that key. -/
theorem handles_faithful (Γ : Ctx) (before : List Address) (a : Address) :
    let keys := (handleSystem Γ).run .empty before
    (∀ key, (keys.register Γ a).1 = .ok key → (isReservedKey key → a = .fromAlloy key) ∧
      ∀ after, let later := (handleSystem Γ).run .empty (before ++ a :: after)
        later.resolve key = a ∧ (later.register Γ a).1 = .ok key ∧
          ∀ b, b ≠ a → (later.register Γ b).1 ≠ .ok key) ∧
      (a.canonical → isReservedKey a.toAlloy → (keys.register Γ a).1 = .ok a.toAlloy) := by
  intro keys
  constructor
  · intro key hkey
    have hentered := AddressKeys.byNative_of_register hkey
    have hfaithful := (AddressKeys.faithful_run Γ before).register Γ a
    refine ⟨hfaithful.reserved a key ((hfaithful.inverse a key).mp hentered), fun after => ?_⟩
    intro later
    have hlater : later = (handleSystem Γ).run (keys.register Γ a).2 after := TransitionSystem.run_append _ _ _ _
    have hkept : later.byNative.lookup a = some key := by
      rw [hlater]
      exact TransitionSystem.invariant_run_of_step (M := handleSystem Γ)
        (I := fun keys => keys.byNative.lookup a = some key) (fun _ b h => AddressKeys.byNative_register h b) hentered after
    have hinverse := (AddressKeys.faithful_run Γ (before ++ a :: after)).inverse
    refine ⟨?_, ?_, ?_⟩
    · rw [AddressKeys.resolve, (hinverse a key).mp hkept, Option.getD_some]
    · simp [AddressKeys.register, hkept]
    · intro b hb hsame
      have hother := ((AddressKeys.faithful_run Γ (before ++ a :: after)).register Γ b).inverse
      have hboth := ((hother b key).mp (AddressKeys.byNative_of_register hsame)).symm.trans
        ((hother a key).mp (AddressKeys.byNative_register hkept b))
      exact hb (Option.some.inj hboth)
  · intro ha hreserved
    have hfaithful := AddressKeys.faithful_run Γ before
    unfold AddressKeys.register
    split
    · rename_i key hkey
      rw [hfaithful.embedded a key ((hfaithful.inverse a key).mp hkey) ha hreserved]
    · rename_i hnew
      rw [AddressKeys.freeKey_of_canonical ha (hfaithful.free_of_reserved hnew ha hreserved)]

end ShellChain
