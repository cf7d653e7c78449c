import ShellChain.Lemmas.Attestations
import ShellChain.Sample

/-!
# When an honest attestation is recorded

The handler binds the height and the parent of an attestation to the stored block, and its chain id to the configuration. It
does not bind the round, while the finality state refuses an attestation whose round differs from that of the first one
recorded for the hash. An honest authority attests with round zero.
-/

namespace ShellChain

open FinalityState

/-- An authority of the node with positive weight, whose signatures verify under its registered key. -/
structure ActiveAuthority (Γ : Ctx) (env : AttestationEnv) (v : Address) (sign : Bytes → Bytes) where
  pubkey : Bytes
  sigType : SignatureType
  weight : Nat
  known : env.knownAuthorities.lookup v = some pubkey
  inferred : inferSignatureTypeFromAddress Γ env.registry pubkey v = some sigType
  signs : ∀ m, Γ.verify pubkey m ⟨sigType, sign m⟩ = some true
  active : env.validatorWeights.get v = some weight
  positive : 0 < weight

/-- The handler records the attestation: it passes the checks, and in the state on which finality is evaluated its validator
is among those recorded for its block, with its weight added if it was not there before. -/
def recorded (Γ : Ctx) (env : AttestationEnv) (s : FinalityState) (a : Attestation) : Bool :=
  match admitAttestation Γ env a with
  | .ok (some adm) =>
    match recordPhase s a adm with
    | .ok (some s₁) =>
      a.validator ∈ s₁.attesters a.blockHash ∧
        (a.validator ∉ s.attesters a.blockHash →
          s₁.attestedWeight a.blockHash = saturatingAdd (s.attestedWeight a.blockHash) adm.attesterWeight)
    | _ => false
  | _ => false

/-- The node keeps its chain id and the block stored under `h` through a change. -/
def KeepsBlock (h : ShellHash) (hdr : BlockHeader) (σ : AttestationNode) : AttestationInput → Prop
  | .reconfigure env => env.chainId = σ.env.chainId ∧ env.getBlockByHash h = .ok (some hdr)
  | _ => True

/-- An attestation of the hash names the chain, the parent and the height of the stored block. -/
def BoundTo (chainId : Nat) (h : ShellHash) (hdr : BlockHeader) (a : Attestation) : Prop :=
  a.blockHash = h → a.chainId = chainId ∧ a.parentHash = hdr.parentHash ∧ a.blockNumber = hdr.number

/-- What a run that keeps the block maintains: the block is stored, and every recorded attestation of it is bound to it. -/
def Bound (chainId : Nat) (h : ShellHash) (hdr : BlockHeader) (σ : AttestationNode) : Prop :=
  σ.env.chainId = chainId ∧ σ.env.getBlockByHash h = .ok (some hdr) ∧
    σ.finality.Sound (fun _ _ => True) (BoundTo chainId h hdr)

/-- One input that keeps the block keeps the recorded attestations bound to it. -/
theorem bound_step (Γ : Ctx) (chainId : Nat) (h : ShellHash) (hdr : BlockHeader) (σ : AttestationNode) (i : AttestationInput)
    (hb : Bound chainId h hdr σ) (hi : KeepsBlock h hdr σ i) : Bound chainId h hdr ((attestationSystem Γ).step σ i) := by
  obtain ⟨hchain, hstored, hsound⟩ := hb
  cases i with
  | reconfigure env => exact ⟨hi.1.trans hchain, hi.2, hsound⟩
  | attestation a =>
    refine ⟨hchain, hstored, Sound.handleAttestation hsound trivial (fun _ _ _ _ => trivial) ?_⟩
    intro adm stored hadm
    rw [← hchain]
    intro heq
    have hsame := hadm.stored_eq
    rw [heq, hstored] at hsame
    cases hsame
    exact ⟨hadm.chainId_eq, hadm.parentHash_eq, hadm.number_eq⟩
  | adopt h' n => exact ⟨hchain, hstored, hsound.check _ _ _⟩
  | commit n h' => exact ⟨hchain, hstored, hsound.setFinalizedDirect n h'⟩

/-- In every run that keeps the block stored, for every authority with weight that attested no other block at the height,
while the block is not finalized and an entry is free: its honest attestation is recorded exactly when it already was, or
when the first recorded attestation of the hash, if there is one, has round zero. -/
theorem recorded_honest_iff (Γ : Ctx) (env₀ : AttestationEnv) (k : Nat) (hk : ShellHash) (l : List AttestationInput)
    (h : ShellHash) (hdr : BlockHeader) (hstored : env₀.getBlockByHash h = .ok (some hdr))
    (hl : (attestationSystem Γ).Admits (KeepsBlock h hdr) ⟨env₀, withFinalized k hk⟩ l)
    (σ : AttestationNode) (hσ : σ = (attestationSystem Γ).run ⟨env₀, withFinalized k hk⟩ l)
    (v : Address) (sign : Bytes → Bytes) (auth : ActiveAuthority Γ σ.env v sign) (canonical : Option ShellHash)
    (hcanon : σ.env.getBlockHashByNumber hdr.number = .ok canonical) (a : Attestation)
    (ha : createAttestation σ.env v sign h hdr.number = some a)
    (hlive : σ.finality.lastFinalizedNumber < hdr.number)
    (hother : σ.finality.detectEquivocation h hdr.number v = none)
    (hroom : σ.finality.pendingAttestations.size < maxPendingAttestationBlocks) :
    recorded Γ σ.env σ.finality a = true ↔
      v ∈ σ.finality.attesters h ∨ ∀ first, σ.finality.firstAttestation h = some first → first.round = 0 := by
  have hb : Bound env₀.chainId h hdr σ := hσ ▸ TransitionSystem.invariant_run (bound_step Γ env₀.chainId h hdr)
    ⟨rfl, hstored, sound_withFinalized k hk⟩ hl
  rw [createAttestation, hb.2.1] at ha
  have heq := (Option.some.inj ha).symm
  -- the attestation passes the checks of the handler
  have hadm : admitAttestation Γ σ.env a =
      .ok (some ⟨auth.weight, σ.env.validatorWeights.total, canonical = some h⟩) := by
    have hallowed := (inferSignatureTypeFromAddress_spec auth.inferred).1
    rw [heq]
    simp [admitAttestation, hb.2.1, auth.known, verifyAttestationSignature, auth.inferred, hallowed,
      Attestation.ownSigningMessage, auth.signs, weighAttestation, auth.active, hcanon, Except.map]
  have hiff := record_goes_on_iff (s := σ.finality) (a := a) auth.positive (by rwa [heq]) hroom
  have htarget : (∀ first, σ.finality.firstAttestation h = some first → first.SameTarget a) ↔
      ∀ first, σ.finality.firstAttestation h = some first → first.round = 0 :=
    forall_congr' fun first => imp_congr_right fun hfirst => by
      obtain ⟨vs, wt, rest, he⟩ := hb.2.2.exists_entry hfirst
      obtain ⟨h1, h2, h3⟩ := he.all first List.mem_cons_self (he.blockHash first List.mem_cons_self)
      simp [Attestation.SameTarget, heq, hb.1, h1, h2, h3]
  have hweight : auth.weight ≤ u64Max := by
    have hle := WeightedQuorum.sum_weightOf_le_total σ.env.validatorWeights.weights {v}
    have hw : σ.env.validatorWeights.weights.lookup v = some auth.weight := auth.active
    rw [Finset.sum_singleton, WeightedQuorum.weightOf, hw, Option.getD_some] at hle
    exact hle.trans σ.env.validatorWeights.total_le
  rw [← htarget, show v = a.validator by rw [heq], show h = a.blockHash by rw [heq], ← hiff]
  simp only [recorded, hadm]
  constructor
  · intro hrec
    split at hrec
    · rename_i s₁ hphase
      exact (recordPhase_some_iff.1 hphase).2.1
    · cases hrec
  · intro hgo
    rw [recordPhase_some_iff.2 ⟨by rwa [heq], hgo, rfl⟩]
    exact decide_eq_true (record_counts hweight hgo)

namespace PoisonCex

/-- The hash of the attested block. -/
def target : ShellHash :=
  .repeatByte 8

/-- Its header, at height five. -/
def header : BlockHeader :=
  { (default : BlockHeader) with number := 5, parentHash := .repeatByte 7 }

/-- A node with the block and three authorities of weight one, the keys of which are one byte. -/
def env : AttestationEnv where
  chainId := 10
  registry := .fromAllowlist
  knownAuthorities := [⟨sampleAddress [1], [1]⟩, ⟨sampleAddress [2], [2]⟩, ⟨sampleAddress [3], [3]⟩].toAList
  validatorWeights :=
    { weights := [⟨sampleAddress [1], 1⟩, ⟨sampleAddress [2], 1⟩, ⟨sampleAddress [3], 1⟩].toAList
      total_le := by decide }
  getBlockByHash h := .ok (if h = target then some header else none)
  getBlockHashByNumber n := .ok (if n = 5 then some target else none)
  setFinalizedNumber _ := .ok ()

def start : AttestationNode :=
  ⟨env, withFinalized 0 .zero⟩

/-- The authority with key two. -/
def honest : ActiveAuthority sampleCtx env (sampleAddress [2]) (sampleSign [2]) where
  pubkey := [2]
  sigType := .mlDsa65
  weight := 1
  known := by decide +kernel
  inferred := by decide +kernel
  signs := fun _ => congrArg some (decide_eq_true rfl)
  active := by decide +kernel
  positive := by decide

/-- An attestation of the block by the authority with key one, with its signature. -/
def attestWith (round : Nat) : AttestationInput :=
  .attestation ⟨10, .repeatByte 7, target, 5, sampleAddress [1], round,
    sampleSign [1] (Attestation.signingMessage 10 (.repeatByte 7) target 5 round)⟩

def honestAttestation : Attestation :=
  ⟨10, .repeatByte 7, target, 5, sampleAddress [2], 0,
    sampleSign [2] (Attestation.signingMessage 10 (.repeatByte 7) target 5 0)⟩

/-- After an attestation of round zero by another authority, the honest one is recorded. -/
theorem recorded_after_round_zero :
    recorded sampleCtx env ((attestationSystem sampleCtx).run start [attestWith 0]).finality honestAttestation = true :=
  (recorded_honest_iff sampleCtx env 0 .zero [attestWith 0] target header (by rfl) ⟨trivial, trivial⟩ _ rfl (sampleAddress [2])
    (sampleSign [2]) honest (some target) (by rfl) honestAttestation (by decide +kernel) (by decide +kernel)
    (by decide +kernel) (by decide +kernel)).2
    (Or.inr (by
      have hfirst : ((attestationSystem sampleCtx).run start [attestWith 0]).finality.firstAttestation target =
          some ⟨10, .repeatByte 7, target, 5, sampleAddress [1], 0,
            sampleSign [1] (Attestation.signingMessage 10 (.repeatByte 7) target 5 0)⟩ := by decide +kernel
      intro first h
      have heq := hfirst.symm.trans h
      cases heq
      rfl))

/-- After an attestation of round one by another authority, the honest one is refused, although the block is stored and not
finalized, the authority has weight and attested nothing else, and entries are free. -/
theorem not_recorded_after_round_one :
    createAttestation env (sampleAddress [2]) (sampleSign [2]) target 5 = some honestAttestation ∧
    Nonempty (ActiveAuthority sampleCtx env (sampleAddress [2]) (sampleSign [2])) ∧
    ((attestationSystem sampleCtx).run start [attestWith 1]).finality.lastFinalizedNumber < 5 ∧
    ((attestationSystem sampleCtx).run start [attestWith 1]).finality.detectEquivocation target 5 (sampleAddress [2]) = none ∧
    ((attestationSystem sampleCtx).run start [attestWith 1]).finality.pendingAttestations.size < maxPendingAttestationBlocks ∧
    recorded sampleCtx env ((attestationSystem sampleCtx).run start [attestWith 1]).finality honestAttestation = false :=
  ⟨by decide +kernel, ⟨honest⟩, by decide +kernel, by decide +kernel, by decide +kernel, by decide +kernel⟩

end PoisonCex

end ShellChain
