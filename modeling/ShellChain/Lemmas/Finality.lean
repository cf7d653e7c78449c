import ShellChain.Finality

/-!
# Lemmas on the finality state

What one call of each operation of `FinalityState` does to the maps keyed by block hash. The three maps are kept in step:
`Entry` says what they hold together for one hash, and `Sound` that every hash has such an entry or none. Both are over a
relation between the recorded validators and the recorded weight and over a property of the recorded attestations, so that
each result chooses the relation it needs and the preservation is proved once.
-/

namespace ShellChain

open AList Or List

namespace FinalityState

/-! ## The quorum threshold -/

variable {t w : Nat} {s' : FinalityState} {a : Attestation}

/-- The threshold is the least weight above two thirds of a positive total. -/
theorem strictQuorumWeight_eq (h0 : 0 < t) (ht : t ≤ u64Max) : strictQuorumWeight t = 2 * t / 3 + 1 := by
  have hmax : u64Max = 2 ^ 64 - 1 := rfl
  unfold strictQuorumWeight
  rw [if_neg (by omega), Nat.mul_comm]
  omega

theorem hasWeightedQuorum_iff (ht : t ≤ u64Max) : hasWeightedQuorum w t = true ↔ 0 < t ∧ 2 * t < 3 * w := by
  unfold hasWeightedQuorum
  rw [decide_eq_true_iff]
  by_cases h0 : 0 < t
  · rw [strictQuorumWeight_eq h0 ht]
    omega
  · simp [h0]

/-! ## Recording an attestation -/

/-- An attestation is refused when it weighs nothing, is not above the finalized height, disagrees with the first recorded
attestation of its hash, or opens an entry when all are taken. -/
def Refuses (s : FinalityState) (a : Attestation) (w : Nat) : Prop :=
  (w = 0 ∨ a.blockNumber ≤ s.lastFinalizedNumber) ∨ (∃ first, s.firstAttestation a.blockHash = some first ∧ ¬ first.SameTarget a) ∨
    (a.blockHash ∉ s.pendingAttestations ∧ maxPendingAttestationBlocks ≤ s.pendingAttestations.size)

/-- What a call of `recordAttestationWeighted` can do. -/
theorem recordAttestationWeighted_cases (s : FinalityState) (a : Attestation) (w : Nat) :
    (s.Refuses a w ∧ s.recordAttestationWeighted a w = (s, false)) ∨
    (¬ s.Refuses a w ∧ a.validator ∈ s.attesters a.blockHash ∧
      s.recordAttestationWeighted a w = (s.insertAttester a, false)) ∨
    (¬ s.Refuses a w ∧ a.validator ∉ s.attesters a.blockHash ∧
      s.recordAttestationWeighted a w = ((s.insertAttester a).countAttestation a w, true)) := by
  have htarget : ((s.firstAttestation a.blockHash).any fun existing => ¬ existing.SameTarget a) = true ↔
      ∃ first, s.firstAttestation a.blockHash = some first ∧ ¬ first.SameTarget a := by
    simp [Option.any_eq_true]
  unfold recordAttestationWeighted
  by_cases h1 : w = 0 ∨ a.blockNumber ≤ s.lastFinalizedNumber
  · exact inl ⟨inl h1, if_pos h1⟩
  by_cases h2 : ((s.firstAttestation a.blockHash).any fun existing => ¬ existing.SameTarget a) = true
  · exact inl ⟨inr (inl (htarget.1 h2)), by rw [if_neg h1, if_pos h2]⟩
  by_cases h3 : a.blockHash ∉ s.pendingAttestations ∧ maxPendingAttestationBlocks ≤ s.pendingAttestations.size
  · exact inl ⟨inr (inr h3), by rw [if_neg h1, if_neg h2, if_pos h3]⟩
  have hno : ¬ s.Refuses a w := by
    rintro (h | h | h)
    · exact h1 h
    · exact h2 (htarget.2 h)
    · exact h3 h
  by_cases h4 : a.validator ∈ s.attesters a.blockHash
  · exact inr (inl ⟨hno, h4, by rw [if_neg h1, if_neg h2, if_neg h3, if_pos h4]⟩)
  · exact inr (inr ⟨hno, h4, by rw [if_neg h1, if_neg h2, if_neg h3, if_neg h4]⟩)

/-! ## Entries -/

variable {P : Finset Address → Nat → Prop} {Q : Attestation → Prop} {s : FinalityState} {h : ShellHash}

/-- What the three maps hold together for a block hash: the validators, their weight, and their attestations, which all
name the hash and agree on its target, the height of which is not yet finalized. -/
structure Entry (P : Finset Address → Nat → Prop) (Q : Attestation → Prop) (s : FinalityState) (h : ShellHash)
    (vs : Finset Address) (wt : Nat) (first : Attestation) (rest : List Attestation) : Prop where
  pending : s.pendingAttestations.lookup h = some vs
  weight : s.pendingAttestedWeight.lookup h = some wt
  store : s.attestationStore.lookup h = some (first :: rest)
  validators : vs = ((first :: rest).map (·.validator)).toFinset
  blockHash : ∀ b ∈ first :: rest, b.blockHash = h
  sameTarget : ∀ b ∈ first :: rest, first.SameTarget b
  above : s.lastFinalizedNumber < first.blockNumber
  rel : P vs wt
  all : ∀ b ∈ first :: rest, Q b

/-- The three maps have nothing for a block hash. -/
structure Absent (s : FinalityState) (h : ShellHash) : Prop where
  pending : s.pendingAttestations.lookup h = none
  weight : s.pendingAttestedWeight.lookup h = none
  store : s.attestationStore.lookup h = none

/-- Every block hash has an entry in all three maps or in none. -/
def Sound (P : Finset Address → Nat → Prop) (Q : Attestation → Prop) (s : FinalityState) : Prop :=
  ∀ h, s.Absent h ∨ ∃ vs wt first rest, Entry P Q s h vs wt first rest

theorem Absent.attesters (hs : s.Absent h) : s.attesters h = ∅ := by
  rw [FinalityState.attesters, hs.pending, Option.getD_none]

variable {vs : Finset Address} {wt : Nat} {first : Attestation} {rest : List Attestation}

theorem Entry.attesters (hs : Entry P Q s h vs wt first rest) : s.attesters h = vs := by
  rw [FinalityState.attesters, hs.pending, Option.getD_some]

theorem Entry.firstAttestation (hs : Entry P Q s h vs wt first rest) : s.firstAttestation h = some first := by
  rw [FinalityState.firstAttestation, hs.store, Option.bind_some, head?_cons]

/-- A fresh state is sound: it has no entries. -/
theorem sound_withFinalized (n : Nat) (hash : ShellHash) : (withFinalized n hash).Sound P Q :=
  fun _ => inl ⟨lookup_empty _, lookup_empty _, lookup_empty _⟩

/-- The first recorded attestation of a hash belongs to an entry. -/
theorem Sound.exists_entry (hs : s.Sound P Q) (hf : s.firstAttestation h = some first) :
    ∃ vs wt rest, Entry P Q s h vs wt first rest := by
  rcases hs h with ha | ⟨vs, wt, first', rest, he⟩
  · rw [FinalityState.firstAttestation, ha.store, Option.bind_none] at hf
    exact absurd hf (by simp)
  · rw [he.firstAttestation, Option.some.injEq] at hf
    subst hf
    exact ⟨vs, wt, rest, he⟩

/-! ## Preservation -/

section

variable (hp : s'.pendingAttestations.lookup h = s.pendingAttestations.lookup h)
  (hw : s'.pendingAttestedWeight.lookup h = s.pendingAttestedWeight.lookup h)
  (hst : s'.attestationStore.lookup h = s.attestationStore.lookup h)

include hp hw hst

/-- An entry or its absence depends only on the lookups of its hash and on the finalized height. -/
theorem Entry.congr (he : Entry P Q s h vs wt first rest) (habove : s'.lastFinalizedNumber < first.blockNumber) :
    Entry P Q s' h vs wt first rest :=
  { he with pending := hp.trans he.pending, weight := hw.trans he.weight, store := hst.trans he.store, above := habove }

theorem Absent.congr (ha : s.Absent h) : s'.Absent h :=
  ⟨hp.trans ha.pending, hw.trans ha.weight, hst.trans ha.store⟩

end

/-- Inserting a validator already there changes no entry. -/
theorem Sound.insertAttester (hs : s.Sound P Q) (hmem : a.validator ∈ s.attesters a.blockHash) :
    (s.insertAttester a).Sound P Q := by
  intro h
  have hp : (s.insertAttester a).pendingAttestations.lookup h = s.pendingAttestations.lookup h := by
    by_cases hh : h = a.blockHash
    · subst hh
      rcases hs a.blockHash with ha | ⟨vs, wt, first, rest, he⟩
      · rw [ha.attesters] at hmem
        exact absurd hmem (Finset.notMem_empty _)
      · rw [he.attesters] at hmem
        simp only [FinalityState.insertAttester, lookup_insert, he.attesters, Finset.insert_eq_of_mem hmem, he.pending]
    · exact lookup_insert_ne hh
  rcases hs h with ha | ⟨vs, wt, first, rest, he⟩
  · exact inl (ha.congr hp rfl rfl)
  · exact inr ⟨vs, wt, first, rest, he.congr hp rfl rfl he.above⟩

/-- The entry of a hash whose first attestation has just been counted. -/
theorem Absent.entry_count (ha : s.Absent a.blockHash) (hn : s.lastFinalizedNumber < a.blockNumber) (hP : P {a.validator} w)
    (hQ : Q a) : Entry P Q ((s.insertAttester a).countAttestation a w) a.blockHash {a.validator} w a [] where
  pending := by simp [insertAttester, countAttestation, ha.attesters]
  weight := by simp [insertAttester, countAttestation, ha.weight]
  store := by simp [insertAttester, countAttestation, ha.store]
  validators := by simp
  blockHash := by simp
  sameTarget := by simp [Attestation.SameTarget]
  above := hn
  rel := hP
  all := by simpa using hQ

/-- The entry of a hash with one more attestation counted. -/
theorem Entry.count (he : Entry P Q s a.blockHash vs wt first rest) (ht : first.SameTarget a)
    (hP : P (insert a.validator vs) (saturatingAdd wt w)) (hQ : Q a) :
    Entry P Q ((s.insertAttester a).countAttestation a w) a.blockHash (insert a.validator vs) (saturatingAdd wt w) first
      (rest ++ [a]) where
  pending := by simp [insertAttester, countAttestation, he.attesters]
  weight := by simp [insertAttester, countAttestation, he.weight]
  store := by simp [insertAttester, countAttestation, he.store]
  validators := by
    rw [he.validators]
    ext v
    simp only [map_cons, map_append, map_nil, toFinset_cons, toFinset_append, toFinset_nil,
      Finset.mem_insert, Finset.mem_union, Finset.notMem_empty]
    tauto
  blockHash := forall_mem_append.mpr ⟨he.blockHash, forall_mem_singleton.mpr rfl⟩
  sameTarget := forall_mem_append.mpr ⟨he.sameTarget, forall_mem_singleton.mpr ht⟩
  above := he.above
  rel := hP
  all := forall_mem_append.mpr ⟨he.all, forall_mem_singleton.mpr hQ⟩

/-- The validators recorded for a hash after one is inserted. -/
theorem attesters_insertAttester (s : FinalityState) (a : Attestation) :
    (s.insertAttester a).attesters a.blockHash = insert a.validator (s.attesters a.blockHash) := by
  simp [insertAttester, attesters]

/-- Recording an attestation keeps the state sound when its weight may open an entry and be added to one. -/
theorem Sound.record (hs : s.Sound P Q) (hsingle : P {a.validator} w)
    (hadd : ∀ vs wt, P vs wt → a.validator ∉ vs → P (insert a.validator vs) (saturatingAdd wt w)) (hQ : Q a) :
    (s.recordAttestationWeighted a w).1.Sound P Q := by
  rcases s.recordAttestationWeighted_cases a w with ⟨_, hr⟩ | ⟨_, hmem, hr⟩ | ⟨hno, hmem, hr⟩
  · rw [hr]
    exact hs
  · rw [hr]
    exact hs.insertAttester hmem
  · rw [hr]
    intro h
    by_cases hh : h = a.blockHash
    · subst hh
      rcases hs a.blockHash with ha | ⟨vs, wt, first, rest, he⟩
      · have hn : s.lastFinalizedNumber < a.blockNumber := by
          by_contra hle
          exact hno (inl (inr (by omega)))
        exact inr ⟨_, _, _, _, ha.entry_count hn hsingle hQ⟩
      · have ht : first.SameTarget a := by
          by_contra hne
          exact hno (inr (inl ⟨first, he.firstAttestation, hne⟩))
        rw [he.attesters] at hmem
        exact inr ⟨_, _, _, _, he.count ht (hadd vs wt he.rel hmem) hQ⟩
    · have hp : ((s.insertAttester a).countAttestation a w).pendingAttestations.lookup h = s.pendingAttestations.lookup h :=
        lookup_insert_ne hh
      have hw : ((s.insertAttester a).countAttestation a w).pendingAttestedWeight.lookup h = s.pendingAttestedWeight.lookup h :=
        lookup_insert_ne hh
      have hst : ((s.insertAttester a).countAttestation a w).attestationStore.lookup h = s.attestationStore.lookup h :=
        lookup_insert_ne hh
      rcases hs h with ha | ⟨vs, wt, first, rest, he⟩
      · exact inl (ha.congr hp hw hst)
      · exact inr ⟨_, _, _, _, he.congr hp hw hst he.above⟩

/-- With weight, above the finalized height and with an entry free, a call records the validator or finds it recorded exactly
when it was recorded, or the first recorded attestation of the hash has the same target. -/
theorem record_goes_on_iff (hw : 0 < w) (hlive : s.lastFinalizedNumber < a.blockNumber)
    (hroom : s.pendingAttestations.size < maxPendingAttestationBlocks) :
    ((s.recordAttestationWeighted a w).2 = true ∨ a.validator ∈ s.attesters a.blockHash) ↔
      (a.validator ∈ s.attesters a.blockHash ∨ ∀ first, s.firstAttestation a.blockHash = some first → first.SameTarget a) := by
  have htarget : (∀ first, s.firstAttestation a.blockHash = some first → first.SameTarget a) ↔ ¬ s.Refuses a w := by
    constructor
    · rintro h (hlow | ⟨first, hfirst, hne⟩ | hfull)
      · omega
      · exact hne (h first hfirst)
      · omega
    · exact fun h first hfirst => by_contra fun hne => h (inr (inl ⟨first, hfirst, hne⟩))
  rw [htarget]
  rcases s.recordAttestationWeighted_cases a w with ⟨hr, heq⟩ | ⟨hr, hmem, heq⟩ | ⟨hr, hmem, heq⟩
  · simp [heq, hr]
  · simp [hmem]
  · simp [heq, hr]

/-- A validator recorded by a call or before it is among the recorded ones after it, and its weight has been added if it was
not there before. -/
theorem record_counts (hw : w ≤ u64Max)
    (hgo : (s.recordAttestationWeighted a w).2 = true ∨ a.validator ∈ s.attesters a.blockHash) :
    a.validator ∈ (s.recordAttestationWeighted a w).1.attesters a.blockHash ∧ (a.validator ∉ s.attesters a.blockHash →
        (s.recordAttestationWeighted a w).1.attestedWeight a.blockHash = saturatingAdd (s.attestedWeight a.blockHash) w) := by
  rcases s.recordAttestationWeighted_cases a w with ⟨hr, heq⟩ | ⟨hr, hmem, heq⟩ | ⟨hr, hmem, heq⟩
  · simp only [heq, Bool.false_eq_true, false_or] at hgo ⊢
    exact ⟨hgo, fun hno => absurd hgo hno⟩
  · rw [heq, attesters_insertAttester]
    exact ⟨Finset.mem_insert_self _ _, fun hno => absurd hmem hno⟩
  · rw [heq]
    refine ⟨(attesters_insertAttester ..).symm ▸ Finset.mem_insert_self _ _, fun _ => ?_⟩
    unfold attestedWeight countAttestation insertAttester
    cases hlookup : s.pendingAttestedWeight.lookup a.blockHash with
    | none => simp [saturatingAdd, hw]
    | some wt => simp

/-! ## Pruning and finalizing -/

/-- The hashes pruning removes are those whose first recorded attestation is at or below the height. -/
theorem mem_prunedHashes (s : FinalityState) (n : Nat) (h : ShellHash) :
    h ∈ s.prunedHashes n ↔ ∃ first, s.firstAttestation h = some first ∧ first.blockNumber ≤ n := by
  simp only [prunedHashes, mem_map, mem_filter, Option.any_eq_true, decide_eq_true_eq]
  constructor
  · rintro ⟨⟨h', atts⟩, ⟨hmem, first, hfirst, hle⟩, rfl⟩
    exact ⟨first, by rw [firstAttestation, mem_lookup_iff.2 hmem, Option.bind_some, hfirst], hle⟩
  · rintro ⟨first, hfirst, hle⟩
    obtain ⟨atts, hlookup, hhead⟩ := Option.bind_eq_some_iff.1 hfirst
    exact ⟨⟨h, atts⟩, ⟨mem_lookup_iff.1 hlookup, first, hhead, hle⟩, rfl⟩

/-- Finalizing a block keeps the state sound: the entries at or below its height are removed. -/
theorem Sound.finalize (hs : s.Sound P Q) (hash : ShellHash) (n : Nat) : (s.finalize hash n).Sound P Q := by
  intro h
  by_cases hh : h ∈ s.prunedHashes n
  · refine inl ⟨?_, ?_, ?_⟩
    · exact (lookup_eraseAll _ _ _).trans (if_pos hh)
    · exact (lookup_eraseAll _ _ _).trans (if_pos hh)
    · exact (lookup_eraseAll _ _ _).trans (if_pos hh)
  · have hp : (s.finalize hash n).pendingAttestations.lookup h = s.pendingAttestations.lookup h :=
      (lookup_eraseAll _ _ _).trans (if_neg hh)
    have hw : (s.finalize hash n).pendingAttestedWeight.lookup h = s.pendingAttestedWeight.lookup h :=
      (lookup_eraseAll _ _ _).trans (if_neg hh)
    have hst : (s.finalize hash n).attestationStore.lookup h = s.attestationStore.lookup h :=
      (lookup_eraseAll _ _ _).trans (if_neg hh)
    rcases hs h with ha | ⟨vs, wt, first, rest, he⟩
    · exact inl (ha.congr hp hw hst)
    · have habove : n < first.blockNumber := by
        by_contra hle
        exact hh ((s.mem_prunedHashes n h).2 ⟨first, he.firstAttestation, by omega⟩)
      exact inr ⟨_, _, _, _, he.congr hp hw hst habove⟩

/-- The finality check finalizes exactly when the block can be finalized. -/
theorem checkFinalityWeighted_snd (s : FinalityState) (hash : ShellHash) (n t : Nat) :
    (s.checkFinalityWeighted hash n t).2 = s.canFinalizeWeighted hash n t := by
  unfold checkFinalityWeighted
  split <;> simp_all

/-- The finality check keeps the state sound, whether or not it finalizes. -/
theorem Sound.check (hs : s.Sound P Q) (hash : ShellHash) (n t : Nat) : (s.checkFinalityWeighted hash n t).1.Sound P Q := by
  unfold checkFinalityWeighted
  split
  · exact hs.finalize hash n
  · exact hs

theorem Sound.setFinalizedDirect (hs : s.Sound P Q) (n : Nat) (hash : ShellHash) : (s.setFinalizedDirect n hash).1.Sound P Q := by
  unfold FinalityState.setFinalizedDirect
  split
  · exact hs.finalize hash n
  · exact hs

/-- The relation between the recorded validators and the recorded weight, read off a finalizable hash. -/
theorem Sound.of_canFinalize {n : Nat} (hs : s.Sound P Q) (hc : s.canFinalizeWeighted h n t = true) :
    P (s.attesters h) (s.attestedWeight h) ∧ hasWeightedQuorum (s.attestedWeight h) t = true := by
  unfold canFinalizeWeighted at hc
  split at hc
  · exact absurd hc (by simp)
  · rename_i first hfirst
    obtain ⟨vs, wt, rest, he⟩ := hs.exists_entry hfirst
    rw [decide_eq_true_iff] at hc
    refine ⟨?_, hc.2.1⟩
    rw [he.attesters, FinalityState.attestedWeight, he.weight, Option.getD_some]
    exact he.rel

end FinalityState

end ShellChain
