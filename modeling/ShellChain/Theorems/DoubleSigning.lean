import ShellChain.EventLoop
import ShellChain.Lemmas.CanonicalChain
import ShellChain.Penalties
import ShellChain.SampleChain

/-!
# One signature for each height

A validator signs only blocks above its canonical head, and its head moves up to each block it signs. So it signs one block
of a height at most, as long as the head stays above everything it has signed. Neither adoption nor import moves the head
down; a restart rewinds it to the finalized block, and a production whose commit fails leaves it below a sealed block.
-/

namespace ShellChain

open Checks

variable {σ ρ : Type} {M : Machine σ ρ}

/-! ## The conditions -/

/-- At most one hash of every height is signed. -/
def SignsOnce (signed : List (Nat × ShellHash)) : Prop :=
  ∀ height hash hash', (height, hash) ∈ signed → (height, hash') ∈ signed → hash = hash'

/-- An input that does not leave the head below a signed block: no production fails between its seal and its commit, and no
restart finds a finalized block below the head and below a signed block. -/
def KeepsSigned (v : Validator σ ρ) : LoopInput → Prop
  | .tick _ _ _ outcome => outcome ≠ .failedBeforeCommit
  | .restart _ => ∀ finalized ∈ v.node.finalizedNumber, v.node.head.number ≤ finalized ∨ ∀ s ∈ v.signed, s.1 ≤ finalized
  | _ => True

/-- A signature verifies under the key of the validator for the hash of the header only if the validator signed that hash at
the height of the header. -/
def OnlyOwnSignatures (Γ : Ctx) (pubkey : Bytes) (signed : List (Nat × ShellHash)) (hdr : BlockHeader) : Prop :=
  ∀ sig : PQSignature, Γ.verify pubkey (hdr.hash Γ).bytes sig = some true → (hdr.number, hdr.hash Γ) ∈ signed

instance (v : Validator σ ρ) : ∀ input, Decidable (KeepsSigned v input)
  | .tick _ _ _ outcome => inferInstanceAs (Decidable (outcome ≠ .failedBeforeCommit))
  | .restart _ => inferInstanceAs (Decidable (∀ finalized ∈ v.node.finalizedNumber,
      v.node.head.number ≤ finalized ∨ ∀ s ∈ v.signed, s.1 ≤ finalized))
  | .newBlock .. => .isTrue trivial
  | .syncBlock .. => .isTrue trivial
  | .adoptFork _ => .isTrue trivial
  | .consensus .. => .isTrue trivial

/-! ## The invariant -/

/-- Nothing above the canonical head is signed, and one hash of every height. -/
structure SignedBelowHead (v : Validator σ ρ) : Prop where
  below : ∀ s ∈ v.signed, s.1 ≤ v.node.head.number
  once : SignsOnce v.signed

variable {v : Validator σ ρ} {pubkey : Bytes} {block : Block} {now : Nat}

section

variable (h : SignedBelowHead v)

include h

/-- The head moved up and nothing was signed. -/
theorem SignedBelowHead.mono {node : ChainNode σ ρ} (hhead : v.node.head.number ≤ node.head.number) :
    SignedBelowHead ⟨node, v.signed⟩ :=
  ⟨fun s hs => (h.below s hs).trans hhead, h.once⟩

/-- The head moved up to a block that was signed, once or more. -/
theorem SignedBelowHead.sign (node : ChainNode σ ρ) (entry : Nat × ShellHash) (hhead : v.node.head.number < entry.1)
    (hnode : node.head.number = entry.1) {new : List (Nat × ShellHash)} (hnew : ∀ s ∈ new, s = entry) :
    SignedBelowHead ⟨node, v.signed ++ new⟩ := by
  refine ⟨fun s hs => ?_, fun n a b ha hb => ?_⟩
  · change s.1 ≤ node.head.number
    rcases List.mem_append.mp hs with hold | hs
    · have := h.below s hold
      omega
    · rw [hnew s hs, hnode]
  · -- a height that is signed now was not signed before
    have hfresh : ∀ hash hash', (n, hash) ∈ v.signed → (n, hash') ∉ new := by
      intro hash hash' hold hmem
      have hle := h.below _ hold
      rw [← hnew _ hmem] at hhead
      exact absurd hhead (Nat.not_lt.mpr hle)
    rcases List.mem_append.mp ha with ha | ha <;> rcases List.mem_append.mp hb with hb | hb
    · exact h.once n a b ha hb
    · exact absurd hb (hfresh a b ha)
    · exact absurd ha (hfresh b a hb)
    · exact (Prod.mk.inj ((hnew _ ha).trans (hnew _ hb).symm)).2

/-! ## One input -/

theorem SignedBelowHead.onTick {sign : Bytes → PQSignature} {timestamp maxTxs : Nat} {candidates : List SignedTransaction}
    {outcome : ProductionOutcome} (houtcome : outcome ≠ .failedBeforeCommit) :
    SignedBelowHead (v.onTick M sign pubkey timestamp maxTxs candidates outcome) := by
  unfold Validator.onTick
  split
  · exact h
  · rename_i node block hproduce
    obtain ⟨proposer, hproduced⟩ := produceSettlingBlock_ok hproduce
    obtain ⟨assembled, hassembled, hblock, hnode⟩ := hproduced.assembled
    obtain ⟨_, _, _, -, -, -, rfl⟩ := assembleSettlingBlock_ok hassembled
    have hmoved : v.node.head.number < block.number := hblock ▸ Nat.lt_succ_self _
    have hnode : node.head.number = block.number := hnode ▸ rfl
    cases outcome with
    | completed | failedAfterCommit => exact h.sign node (block.number, block.hash M.toCtx) hmoved hnode (by simp)
    | failedBeforeCommit => exact absurd rfl houtcome

theorem SignedBelowHead.onNewBlock : SignedBelowHead (v.onNewBlock M now block) := by
  unfold Validator.onNewBlock
  split
  · exact h
  · rename_i node himport
    split
    · rename_i hadvance
      exact h.sign node (block.number, block.hash M.toCtx) (hadvance.2 ▸ hadvance.1) hadvance.2 (by simp)
    · exact h.mono (importBlockInner_number_le himport)

theorem SignedBelowHead.onSyncBlock {finalizedImport : Bool} :
    SignedBelowHead (v.onSyncBlock M now block finalizedImport) := by
  unfold Validator.onSyncBlock
  split
  · exact h
  · rename_i node himport
    exact h.mono (importBlockInner_number_le himport)

theorem SignedBelowHead.onAdoptFork : SignedBelowHead (v.onAdoptFork M now) := by
  unfold Validator.onAdoptFork
  split
  · rename_i plan hplan
    split
    · exact h
    · rename_i node hadopt
      exact h.mono (by rw [adoptPreferredFork_number hadopt]; exact (planFacts_of_preferredForkPlan hplan).head_le)
  · exact h

theorem SignedBelowHead.onRestart {restored : ForkChoice}
    (hkeep : ∀ finalized ∈ v.node.finalizedNumber, v.node.head.number ≤ finalized ∨ ∀ s ∈ v.signed, s.1 ≤ finalized) :
    SignedBelowHead (v.onRestart M restored) := by
  unfold Validator.onRestart
  split
  · exact h
  · rename_i node hrecover
    unfold recoverUnfinalizedHead at hrecover
    split at hrecover
    · exact Except.ok.inj hrecover ▸ h
    rename_i finalized hfinalized
    split at hrecover
    · exact Except.ok.inj hrecover ▸ h
    rename_i habove
    split at hrecover
    · cases hrecover
    split at hrecover
    · cases hrecover
    simp only [bind_ok_iff, ensure_ok_iff, pure_ok_iff, decide_eq_true_eq] at hrecover
    obtain ⟨_, hblock, _, -, _, -, _, -, rfl⟩ := hrecover
    have hsigned := (hkeep finalized hfinalized).resolve_left habove
    exact ⟨fun s hs => (hsigned s hs).trans hblock.1.ge, h.once⟩

/-- An input that keeps the signed blocks below the head keeps the invariant. -/
theorem SignedBelowHead.step {sign : Bytes → PQSignature} {input : LoopInput} (hinput : KeepsSigned v input) :
    SignedBelowHead ((validatorSystem M sign pubkey).step v input) := by
  cases input with
  | tick timestamp maxTxs candidates outcome => exact h.onTick hinput
  | newBlock now block => exact h.onNewBlock
  | syncBlock now block finalizedImport => exact h.onSyncBlock
  | adoptFork now => exact h.onAdoptFork
  | consensus engine forkChoice finality finalizedNumber => exact h.mono (Nat.le_refl _)
  | restart restored => exact h.onRestart hinput

end

/-! ## Every run -/

/-- Nobody who signs one hash of every height is convicted. -/
theorem SignsOnce.not_convicted {Γ : Ctx} {signed : List (Nat × ShellHash)} (h : SignsOnce signed) {e : EquivocationProof}
    (hownA : OnlyOwnSignatures Γ pubkey signed e.headerA) (hownB : OnlyOwnSignatures Γ pubkey signed e.headerB) :
    e.verifySigned Γ pubkey = false := by
  by_contra hconvicted
  rw [Bool.not_eq_false, EquivocationProof.verifySigned] at hconvicted
  split at hconvicted
  · cases hconvicted
  rename_i hverify
  split at hconvicted
  · rename_i sealA sealB _ _
    split at hconvicted
    · cases hconvicted
    simp only [not_not, EquivocationProof.verify] at hverify
    split at hverify
    · cases hverify
    rename_i hnumber
    split at hverify
    · cases hverify
    simp only [decide_eq_true_eq] at hverify hconvicted
    obtain ⟨hashA, hashB, hne⟩ := hverify
    rw [← hashA, ← hashB] at hconvicted hne
    have hA := hownA sealA hconvicted.1
    have hB := hownB sealB hconvicted.2
    rw [not_not.mp hnumber] at hA
    exact hne (h _ _ _ hA hB)
  · cases hconvicted

/-- In every run whose inputs keep the signed blocks below the head, the validator signs at most one hash of every height,
as a proposer or as a voter, and cannot be convicted of equivocation. -/
theorem signsOnce_of_keepsSigned (sign : Bytes → PQSignature) (pubkey : Bytes) (node : ChainNode σ ρ) (l : List LoopInput)
    (hl : (validatorSystem M sign pubkey).Admits KeepsSigned ⟨node, []⟩ l) :
    let final := (validatorSystem M sign pubkey).run ⟨node, []⟩ l
    SignsOnce final.signed ∧ ∀ e : EquivocationProof, OnlyOwnSignatures M.toCtx pubkey final.signed e.headerA →
      OnlyOwnSignatures M.toCtx pubkey final.signed e.headerB → e.verifySigned M.toCtx pubkey = false := by
  have hstart : SignedBelowHead (⟨node, []⟩ : Validator σ ρ) := ⟨by simp, by simp [SignsOnce]⟩
  have hfinal := TransitionSystem.invariant_run (fun v input hv hinput => hv.step hinput) hstart hl
  exact ⟨hfinal.once, fun _ hownA hownB => hfinal.once.not_convicted hownA hownB⟩

/-! ## A restart that forgets a seal -/

namespace DoubleSigningCex

/-- The engine of three validators of weight one: no vote is a quorum alone. The first of them is drawn as the proposer of the
first blocks. -/
def engine : Engine :=
  { sampleEngine with
    isActive := fun a => a = validatorAddress ∨ a = chainAddress [2] ∨ a = chainAddress [3]
    validatorWeights :=
      ⟨[⟨validatorAddress, 1⟩, ⟨chainAddress [2], 1⟩, ⟨chainAddress [3], 1⟩].toAList, by decide +kernel⟩ }

/-- The node of the first validator at genesis. -/
def node : ChainNode SampleWorld Unit :=
  { genesisNode ⟨[], none⟩ .empty with engine := engine }

/-- A tick without candidates. -/
def tickAt (timestamp : Nat) : LoopInput :=
  .tick timestamp 500 [] .completed

/-- The block of such a tick. -/
def emptyBlock (parent : Block) (timestamp : Nat) : Block :=
  sealSample ⟨{ preliminaryHeader chainCtx parent (parent.number + 1) timestamp validatorAddress with
    stateRoot := parent.header.stateRoot, logsBloom := blockBloom [] }, [], [], none⟩

def first : Block :=
  emptyBlock node.head 1010

/-- The second block before the restart. -/
def second : Block :=
  emptyBlock first 1020

/-- The second block after the restart. -/
def replacement : Block :=
  emptyBlock first 1040

def finalizeFirst : LoopInput :=
  .consensus engine node.forkChoice (.withFinalized 1 (first.hash chainCtx)) (some 1)

/-- The evidence of both seals. -/
def evidence : EquivocationProof :=
  ⟨validatorAddress, second.header, replacement.header, second.hash chainCtx, replacement.hash chainCtx,
    second.proposerSeal, replacement.proposerSeal⟩

/-- The validator seals a second block, restarts, and seals another second block, for which it is convicted. -/
theorem convicted_after_restart :
    ((validatorSystem sampleMachine validatorSign validatorKey).run ⟨node, []⟩
        [tickAt 1010, finalizeFirst, tickAt 1020, .restart node.forkChoice, tickAt 1040]).signed.dedup =
      [(1, first.hash chainCtx), (2, second.hash chainCtx), (2, replacement.hash chainCtx)] ∧
    second.hash chainCtx ≠ replacement.hash chainCtx ∧ evidence.verifySigned chainCtx validatorKey = true := by
  refine ⟨?_, ?_, ?_⟩ <;> decide +kernel

/-- A restart at the finalized head forgets nothing, and the validator signs one block of each height. -/
theorem signsOnce_restart_at_finalized :
    ((validatorSystem sampleMachine validatorSign validatorKey).run ⟨node, []⟩
        [tickAt 1010, finalizeFirst, .restart node.forkChoice, tickAt 1020]).signed.dedup =
      [(1, first.hash chainCtx), (2, second.hash chainCtx)] ∧
    SignsOnce ((validatorSystem sampleMachine validatorSign validatorKey).run ⟨node, []⟩
        [tickAt 1010, finalizeFirst, .restart node.forkChoice, tickAt 1020]).signed :=
  ⟨by decide +kernel, (signsOnce_of_keepsSigned validatorSign validatorKey node _ (by decide +kernel)).1⟩

end DoubleSigningCex

end ShellChain
