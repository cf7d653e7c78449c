import ShellChain.Lemmas.Attestations
import ShellChain.Sample

/-!
# The weights behind a finalized block

An attestation is counted with the weight its validator has when it arrives, and the sum is compared with the total at a
later moment. The sum is at most the current weight of the recorded validators as long as no change lowers one of their
weights. The vote path re-checks the current weights before it commits a block, the attestation path does not.
-/

namespace ShellChain

open FinalityState

/-- The validators recorded for the block an input finalizes, when it finalizes one. -/
def finalizedBy (Γ : Ctx) (σ : AttestationNode) : AttestationInput → Option (Finset Address)
  | .attestation a =>
    if .advanceForkChoice a.blockNumber a.blockHash ∈ (handleAttestation Γ σ.env σ.finality a).effects then
      let weight := σ.env.validatorWeights.weightOf a.validator
      some ((σ.finality.recordAttestationWeighted a weight).1.attesters a.blockHash)
    else none
  | .adopt h n =>
    if (σ.finality.checkFinalityWeighted h n σ.env.validatorWeights.total).2 then some (σ.finality.attesters h) else none
  | .reconfigure _ => none
  | .commit _ _ => none

/-- The set holds the least weight above two thirds of the total. -/
def QuorumBacked (W : ValidatorWeights) (vs : Finset Address) : Prop :=
  2 * W.total / 3 + 1 ≤ W.weightOfSet vs

instance (W : ValidatorWeights) (vs : Finset Address) : Decidable (QuorumBacked W vs) :=
  inferInstanceAs (Decidable (_ ≤ _))

/-- A change of the node lowers the weight of no validator with a pending attestation. -/
def KeepsWeights (σ : AttestationNode) : AttestationInput → Prop
  | .reconfigure env => ∀ e ∈ σ.finality.pendingAttestations.entries, ∀ v ∈ e.2,
      σ.env.validatorWeights.weightOf v ≤ env.validatorWeights.weightOf v
  | _ => True

/-- The recorded weight is at most the current weight of the recorded validators. -/
def Backed (W : ValidatorWeights) (vs : Finset Address) (wt : Nat) : Prop :=
  wt ≤ W.weightOfSet vs

theorem Backed.count {W : ValidatorWeights} {vs : Finset Address} {wt : Nat} {v : Address} (h : Backed W vs wt) (hv : v ∉ vs) :
    Backed W (insert v vs) (saturatingAdd wt (W.weightOf v)) := by
  have hsum : W.weightOfSet (insert v vs) = W.weightOf v + W.weightOfSet vs := Finset.sum_insert hv
  have hle := saturatingAdd_le wt (W.weightOf v)
  unfold Backed at h ⊢
  omega

/-- Recording an attestation with the current weight of its validator keeps the recorded weights backed. -/
theorem Backed.single (W : ValidatorWeights) (v : Address) : Backed W {v} (W.weightOf v) := by
  unfold Backed ValidatorWeights.weightOfSet
  rw [Finset.sum_singleton]

/-- One input that lowers no recorded weight keeps the recorded weights backed by the current ones. -/
theorem backed_step (Γ : Ctx) (σ : AttestationNode) (i : AttestationInput)
    (hs : σ.finality.Sound (Backed σ.env.validatorWeights) fun _ => True) (hi : KeepsWeights σ i) :
    ((attestationSystem Γ).step σ i).finality.Sound (Backed ((attestationSystem Γ).step σ i).env.validatorWeights)
      fun _ => True := by
  cases i with
  | reconfigure env =>
    intro h
    rcases hs h with ha | ⟨vs, wt, first, rest, he⟩
    · exact .inl ha
    · have hmem := AList.mem_lookup_iff.1 he.pending
      have hsum := Finset.sum_le_sum fun v hv => hi ⟨h, vs⟩ hmem v hv
      exact .inr ⟨vs, wt, first, rest, { he with rel := Nat.le_trans he.rel hsum }⟩
  | attestation a => exact Sound.handleAttestation hs (.single _ _) (fun _ _ h hv => h.count hv) fun _ _ _ => trivial
  | adopt h n => exact hs.check _ _ _
  | commit n h => exact hs.setFinalizedDirect n h

/-- A finalizable hash in a backed state has a current quorum. -/
theorem quorumBacked_of_canFinalize {W : ValidatorWeights} {s : FinalityState} {h : ShellHash} {n : Nat}
    (hs : s.Sound (Backed W) fun _ => True) (hc : s.canFinalizeWeighted h n W.total = true) :
    QuorumBacked W (s.attesters h) := by
  obtain ⟨hbacked, hquorum⟩ := hs.of_canFinalize hc
  have hmax : W.total ≤ u64Max := W.total_le
  have hlt := ((hasWeightedQuorum_iff hmax).1 hquorum).2
  unfold Backed at hbacked
  unfold QuorumBacked
  omega

/-- In every run in which no change lowers the weight of a validator with a pending attestation, every block the attestation
path finalizes is backed by a quorum of the weights of that moment. -/
theorem quorumBacked_of_keepsWeights (Γ : Ctx) (env : AttestationEnv) (k : Nat) (hk : ShellHash) (l : List AttestationInput)
    (hl : (attestationSystem Γ).Admits KeepsWeights ⟨env, withFinalized k hk⟩ l) (i : AttestationInput)
    (vs : Finset Address) (hfin : finalizedBy Γ ((attestationSystem Γ).run ⟨env, withFinalized k hk⟩ l) i = some vs) :
    QuorumBacked ((attestationSystem Γ).run ⟨env, withFinalized k hk⟩ l).env.validatorWeights vs := by
  have hs := TransitionSystem.invariant_run
    (I := fun σ => σ.finality.Sound (Backed σ.env.validatorWeights) fun _ => True) (backed_step Γ)
    (sound_withFinalized k hk) hl
  generalize (attestationSystem Γ).run ⟨env, withFinalized k hk⟩ l = σ at hs hfin ⊢
  cases i with
  | reconfigure env' => cases hfin
  | commit n h => cases hfin
  | adopt h n =>
    simp only [finalizedBy, checkFinalityWeighted_snd] at hfin
    split at hfin
    · rename_i hcan
      cases hfin
      exact quorumBacked_of_canFinalize hs hcan
    · cases hfin
  | attestation a =>
    simp only [finalizedBy] at hfin
    split at hfin
    · rename_i hadvance
      obtain ⟨adm, stored, hadm, hcan⟩ := handleAttestation_advance hadvance
      rw [hadm.weightOf] at hfin
      cases hfin
      have hsingle := Backed.single σ.env.validatorWeights a.validator
      have hadd : ∀ vs wt, Backed σ.env.validatorWeights vs wt → a.validator ∉ vs →
          Backed σ.env.validatorWeights (insert a.validator vs)
            (saturatingAdd wt (σ.env.validatorWeights.weightOf a.validator)) := fun _ _ h hv => h.count hv
      rw [hadm.weightOf] at hsingle hadd
      rw [hadm.total_eq] at hcan
      exact quorumBacked_of_canFinalize (hs.record hsingle hadd trivial) hcan
    · cases hfin

namespace StaleWeightCex

/-- The hash of the attested block. -/
def target : ShellHash :=
  .repeatByte 8

/-- Its header, at height five. -/
def header : BlockHeader :=
  { (default : BlockHeader) with number := 5, parentHash := .repeatByte 7 }

/-- A node with the block and three authorities, the keys of which are one byte, the first of the weight given and the others
of weight ten. -/
def envWith (w : Nat) (hw : w ≤ 10) : AttestationEnv where
  chainId := 10
  registry := .fromAllowlist
  knownAuthorities := [⟨sampleAddress [1], [1]⟩, ⟨sampleAddress [2], [2]⟩, ⟨sampleAddress [3], [3]⟩].toAList
  validatorWeights :=
    { weights := [⟨sampleAddress [1], w⟩, ⟨sampleAddress [2], 10⟩, ⟨sampleAddress [3], 10⟩].toAList
      total_le := by
        have htotal : WeightedQuorum.total [⟨sampleAddress [1], w⟩, ⟨sampleAddress [2], 10⟩, ⟨sampleAddress [3], 10⟩].toAList =
            w + 20 := by rfl
        rw [htotal, u64Max]
        omega }
  getBlockByHash h := .ok (if h = target then some header else none)
  getBlockHashByNumber n := .ok (if n = 5 then some target else none)
  setFinalizedNumber _ := .ok ()

/-- The attestation of the authority with a one-byte key. -/
def attest (k : UInt8) : AttestationInput :=
  .attestation ⟨10, .repeatByte 7, target, 5, sampleAddress [k], 0,
    sampleSign [k] (Attestation.signingMessage 10 (.repeatByte 7) target 5 0)⟩

/-- The node at its start, all three authorities of weight ten. -/
def start : AttestationNode :=
  ⟨envWith 10 (by decide), withFinalized 0 .zero⟩

/-- The first validator is slashed to weight one before it attests. The attestations of the other two, one from before and
one from after the slash, then finalize the block with a quorum. -/
theorem quorumBacked_after_slash :
    QuorumBacked (envWith 1 (by decide)).validatorWeights {sampleAddress [2], sampleAddress [3]} := by
  have hkeeps : KeepsWeights ((attestationSystem sampleCtx).step start (attest 2)) (.reconfigure (envWith 1 (by decide))) := by
    unfold KeepsWeights
    decide +kernel
  exact quorumBacked_of_keepsWeights sampleCtx (envWith 10 (by decide)) 0 .zero
    [attest 2, .reconfigure (envWith 1 (by decide))] ⟨trivial, hkeeps, trivial⟩ (attest 3) _ (by decide +kernel)

/-- Two attestations of weight ten do not suffice of thirty. When the first validator is slashed to weight one, the repeated
attestation of the second finalizes the block with twenty recorded, while the two now weigh eleven of twenty-one. -/
theorem finalized_without_quorum :
    finalizedBy sampleCtx
        ((attestationSystem sampleCtx).run start [attest 1, attest 2, .reconfigure (envWith 1 (by decide))]) (attest 2) =
      some {sampleAddress [1], sampleAddress [2]} ∧
    ¬ QuorumBacked
        ((attestationSystem sampleCtx).run start
          [attest 1, attest 2, .reconfigure (envWith 1 (by decide))]).env.validatorWeights
        {sampleAddress [1], sampleAddress [2]} :=
  ⟨by decide +kernel, by decide +kernel⟩

end StaleWeightCex

end ShellChain
