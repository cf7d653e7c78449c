import ShellChain.Lemmas.Finality
import ShellChain.Lib.TransitionSystem

/-!
# Two finalized blocks share more than a third of the weight

A run of the finality state under one weight map records each attestation with the weight the map gives its validator and
checks finality against the total of the map. In every such run the recorded weight of a hash is the weight of the set of
its recorded validators, so a finalized hash is backed by a set heavier than two thirds of the total, and two such sets
overlap in more than a third of it.
-/

namespace ShellChain

open FinalityState

/-- An operation of a run of the finality state under a fixed weight map. -/
inductive FinalityOp
  /-- An attestation is recorded with the weight of its validator. -/
  | record (a : Attestation)
  /-- Finality of a hash at a height is checked against the total weight. -/
  | check (h : ShellHash) (n : Nat)
  deriving DecidableEq

/-- The finality state under a fixed weight map. -/
def finalitySystem (W : ValidatorWeights) : TransitionSystem FinalityState FinalityOp where
  step s
    | .record a => (s.recordAttestationWeighted a (W.weightOf a.validator)).1
    | .check h n => (s.checkFinalityWeighted h n W.total).1

/-- After the operations, the check of `h` at height `n` finalizes it. -/
def Finalizes (W : ValidatorWeights) (ops : List FinalityOp) (h : ShellHash) (n : Nat) : Prop :=
  (((finalitySystem W).run new ops).checkFinalityWeighted h n W.total).2 = true

instance (W : ValidatorWeights) (ops : List FinalityOp) (h : ShellHash) (n : Nat) : Decidable (Finalizes W ops h n) :=
  inferInstanceAs (Decidable (_ = _))

/-- The recorded weight is the weight the map gives the set of recorded validators. -/
def Weighs (W : ValidatorWeights) (vs : Finset Address) (wt : Nat) : Prop :=
  wt = W.weightOfSet vs

theorem ValidatorWeights.weightOfSet_le_total (W : ValidatorWeights) (A : Finset Address) : W.weightOfSet A ≤ W.total :=
  WeightedQuorum.sum_weightOf_le_total W.weights A

/-- Counting a new validator with its weight keeps the recorded weight exact, because the total bounds it. -/
theorem Weighs.count {W : ValidatorWeights} {vs : Finset Address} {wt : Nat} {v : Address} (h : Weighs W vs wt)
    (hv : v ∉ vs) : Weighs W (insert v vs) (saturatingAdd wt (W.weightOf v)) := by
  have hsum : W.weightOfSet (insert v vs) = W.weightOf v + W.weightOfSet vs := Finset.sum_insert hv
  have hle := W.weightOfSet_le_total (insert v vs)
  have hmax : W.total ≤ u64Max := W.total_le
  unfold Weighs at h ⊢
  rw [saturatingAdd_eq (by omega)]
  omega

/-- One operation keeps the recorded weights exact. -/
theorem sound_finalityStep (W : ValidatorWeights) (s : FinalityState) (op : FinalityOp)
    (hs : s.Sound (Weighs W) fun _ => True) : ((finalitySystem W).step s op).Sound (Weighs W) fun _ => True := by
  cases op with
  | record a =>
    refine hs.record ?_ (fun vs wt h hv => h.count hv) trivial
    unfold Weighs ValidatorWeights.weightOfSet
    rw [Finset.sum_singleton]
  | check h n => exact hs.check h n W.total

/-- The validators recorded for a finalized hash outweigh two thirds of the total. -/
theorem two_thirds_lt_of_finalizes {W : ValidatorWeights} {ops : List FinalityOp} {h : ShellHash} {n : Nat}
    (hf : Finalizes W ops h n) : 2 * W.total < 3 * W.weightOfSet (((finalitySystem W).run new ops).attesters h) := by
  rw [Finalizes, checkFinalityWeighted_snd] at hf
  have hsound : ((finalitySystem W).run new ops).Sound (Weighs W) fun _ => True :=
    TransitionSystem.invariant_run_of_step (sound_finalityStep W) (sound_withFinalized 0 .zero) ops
  obtain ⟨hweighs, hquorum⟩ := hsound.of_canFinalize hf
  rw [← show _ = W.weightOfSet _ from hweighs]
  exact ((hasWeightedQuorum_iff W.total_le).1 hquorum).2

/-- Two runs under one weight map that finalize at one height, whatever the hashes, have recorded for them validators in
common that weigh more than a third of the total. -/
theorem third_lt_of_finalizes (W : ValidatorWeights) (ops₁ ops₂ : List FinalityOp) (h₁ h₂ : ShellHash) (n : Nat)
    (hf₁ : Finalizes W ops₁ h₁ n) (hf₂ : Finalizes W ops₂ h₂ n) :
    W.total < 3 * W.weightOfSet
      (((finalitySystem W).run new ops₁).attesters h₁ ∩ ((finalitySystem W).run new ops₂).attesters h₂) :=
  WeightedQuorum.third_lt_inter W.weightOf _ _ W.total (two_thirds_lt_of_finalizes hf₁) (two_thirds_lt_of_finalizes hf₂)
    (W.weightOfSet_le_total _)

namespace QuorumWitness

/-- Three validators of weights one, two and one. -/
def weights : ValidatorWeights where
  weights := [⟨.repeatByte 1, 1⟩, ⟨.repeatByte 2, 2⟩, ⟨.repeatByte 3, 1⟩].toAList
  total_le := by decide

/-- The attestation of a validator for a hash at height five. -/
def attest (h : ShellHash) (v : UInt8) : FinalityOp :=
  .record ⟨7, .zero, h, 5, .repeatByte v, 0, []⟩

/-- Two runs of these validators finalize two hashes at height five, and the heavy validator, who attested both, weighs more
than a third. -/
theorem third_lt_two_hashes :
    weights.total < 3 * weights.weightOfSet
      (((finalitySystem weights).run new [attest (.repeatByte 8) 1, attest (.repeatByte 8) 2]).attesters (.repeatByte 8) ∩
        ((finalitySystem weights).run new [attest (.repeatByte 9) 2, attest (.repeatByte 9) 3]).attesters (.repeatByte 9)) :=
  third_lt_of_finalizes weights _ _ _ _ 5 (by decide +kernel) (by decide +kernel)

end QuorumWitness

end ShellChain
