import ShellChain.Attestations
import ShellChain.Lemmas.Finality

/-!
# Lemmas on the attestation handler

What an admitted attestation has passed, when the record phase goes on, and which finality states the handler can leave.
-/

namespace ShellChain

open FinalityState

/-- What the checks before the lock establish of an admitted attestation. -/
structure Admitted (env : AttestationEnv) (a : Attestation) (adm : AdmittedAttestation) (stored : BlockHeader) : Prop where
  stored_eq : env.getBlockByHash a.blockHash = .ok (some stored)
  number_eq : a.blockNumber = stored.number
  parentHash_eq : a.parentHash = stored.parentHash
  chainId_eq : a.chainId = env.chainId
  weight_eq : env.validatorWeights.get a.validator = some adm.attesterWeight
  total_eq : adm.totalWeight = env.validatorWeights.total

variable {a : Attestation} {adm : AdmittedAttestation} {env : AttestationEnv} {Γ : Ctx} {s : FinalityState}

theorem weighAttestation_ok (h : weighAttestation env a = .ok adm) :
    env.validatorWeights.get a.validator = some adm.attesterWeight ∧ adm.totalWeight = env.validatorWeights.total := by
  unfold weighAttestation at h
  split at h
  · cases h
  · rename_i w hw
    split at h
    · cases h
    · cases h
      exact ⟨hw, rfl⟩

/-- An attestation that passes the checks agrees with the stored header and the configuration. -/
theorem admitAttestation_some (h : admitAttestation Γ env a = .ok (some adm)) : ∃ stored, Admitted env a adm stored := by
  unfold admitAttestation at h
  split at h
  · cases h
  · cases h
  · rename_i stored hstored
    split at h
    · cases h
    · rename_i htarget
      rw [not_or, not_not, not_not] at htarget
      split at h
      · cases h
      · rename_i hchain
        split at h
        · cases h
        · split at h
          · cases h
          · cases hw : weighAttestation env a with
            | error e => rw [hw] at h; cases h
            | ok adm' =>
              rw [hw] at h
              cases h
              obtain ⟨hweight, htotal⟩ := weighAttestation_ok hw
              exact ⟨stored, hstored, htarget.1, htarget.2, not_not.1 hchain, hweight, htotal⟩

/-- The weight with which an attestation is recorded is the effective weight of its validator. -/
theorem Admitted.weightOf {stored : BlockHeader} (h : Admitted env a adm stored) :
    env.validatorWeights.weightOf a.validator = adm.attesterWeight := by
  have hw : env.validatorWeights.weights.lookup a.validator = some adm.attesterWeight := h.weight_eq
  rw [ValidatorWeights.weightOf, WeightedQuorum.weightOf, hw, Option.getD_some]

/-- The record phase goes on exactly with the recorded state of a validator who attested no other block at the height and
is new or was recorded before. -/
theorem recordPhase_some_iff {s₁ : FinalityState} : recordPhase s a adm = .ok (some s₁) ↔
      s.detectEquivocation a.blockHash a.blockNumber a.validator = none ∧
      ((s.recordAttestationWeighted a adm.attesterWeight).2 = true ∨ a.validator ∈ s.attesters a.blockHash) ∧
      s₁ = (s.recordAttestationWeighted a adm.attesterWeight).1 := by
  unfold recordPhase
  cases hd : s.detectEquivocation a.blockHash a.blockNumber a.validator with
  | some conflicting => simp
  | none =>
    by_cases hgo : (s.recordAttestationWeighted a adm.attesterWeight).2 = true ∨ a.validator ∈ s.attesters a.blockHash
    · have hcond : ¬ (¬ (s.recordAttestationWeighted a adm.attesterWeight).2 = true ∧
          ¬ s.hasAttested a.blockHash a.validator = true) := by
        rw [hasAttested, decide_eq_true_eq]
        tauto
      simp only [if_neg hcond, Except.ok.injEq, Option.some.injEq, hgo, true_and]
      exact eq_comm
    · have hcond : ¬ (s.recordAttestationWeighted a adm.attesterWeight).2 = true ∧
          ¬ s.hasAttested a.blockHash a.validator = true := by
        rw [hasAttested, decide_eq_true_eq]
        tauto
      simp only [if_pos hcond, hgo, false_and, and_false, Except.ok.injEq, reduceCtorEq]

/-- The handler advances fork choice only when it has just found the attested block finalizable with the attestation recorded
and the total of the current weights. -/
theorem handleAttestation_advance {n : Nat} {h : ShellHash}
    (hmem : AttestationEffect.advanceForkChoice n h ∈ (handleAttestation Γ env s a).effects) :
    ∃ adm stored, Admitted env a adm stored ∧
      (s.recordAttestationWeighted a adm.attesterWeight).1.canFinalizeWeighted a.blockHash a.blockNumber
        adm.totalWeight = true := by
  unfold handleAttestation at hmem
  split at hmem
  · cases hmem
  · cases hmem
  · rename_i adm hadm
    obtain ⟨stored, hstored⟩ := admitAttestation_some hadm
    split at hmem
    · cases hmem
    · cases hmem
    · rename_i recorded hrec
      obtain ⟨-, -, rfl⟩ := recordPhase_some_iff.1 hrec
      unfold finalizePhase at hmem
      split at hmem
      · rename_i hcan
        split at hmem
        · cases hmem
        · exact ⟨adm, stored, hstored, hcan.2⟩
      · simp at hmem

/-- The handler keeps the finality state sound when the weight of an admitted validator may open an entry and be added to
one, and the admitted attestation has the property of the recorded ones. -/
theorem Sound.handleAttestation {P : Finset Address → Nat → Prop} {Q : Attestation → Prop} (hs : s.Sound P Q)
    (hsingle : P {a.validator} (env.validatorWeights.weightOf a.validator)) (hadd : ∀ vs wt, P vs wt → a.validator ∉ vs →
      P (insert a.validator vs) (saturatingAdd wt (env.validatorWeights.weightOf a.validator)))
    (hQ : ∀ adm stored, Admitted env a adm stored → Q a) : (handleAttestation Γ env s a).finality.Sound P Q := by
  unfold ShellChain.handleAttestation
  split
  · exact hs
  · exact hs
  · rename_i adm hadm
    obtain ⟨stored, hstored⟩ := admitAttestation_some hadm
    split
    · exact hs
    · exact hs
    · rename_i recorded hrec
      obtain ⟨-, -, rfl⟩ := recordPhase_some_iff.1 hrec
      rw [hstored.weightOf] at hsingle hadd
      have hrecorded := hs.record hsingle hadd (hQ adm stored hstored)
      unfold finalizePhase
      split
      · split
        · exact hrecorded
        · exact hrecorded.check _ _ _
      · exact hrecorded

end ShellChain
