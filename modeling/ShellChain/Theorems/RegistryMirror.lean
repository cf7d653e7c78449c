import ShellChain.Lemmas.AlgorithmVotes
import ShellChain.SampleContracts

/-!
# The registry of the process and the stored words

A node keeps the algorithm registry in the process and the words about every algorithm in the state. Each operation of
governance writes both. A node that restarts computes its registry from the words (`load_algorithm_registry`), which reads an
algorithm without a status as one of the allow list and looks at no other word of it. Operations store a height and a
verifier together with a status.
-/

namespace ShellChain

open Effect AlgorithmRegistry

variable {κ : Type} {Γ : Ctx} {rules : NativeRules}

/-! ## Registries with one entry for each algorithm -/

/-- The registry with a status and a specification for every allowed algorithm. -/
def registryOf (f : SignatureType → AlgorithmStatus × Option AlgorithmSpec) : AlgorithmRegistry :=
  ⟨allowedAlgorithms.map fun algo => ⟨algo, (f algo).1, (f algo).2⟩⟩

theorem upsertStatus_registryOf (f : SignatureType → AlgorithmStatus × Option AlgorithmSpec) (algo : SignatureType)
    (status : AlgorithmStatus) (spec : Option AlgorithmSpec) : (registryOf f).upsertStatus algo status spec =
      registryOf (Function.update f algo (status, spec.or (f algo).2)) := by
  cases algo with
  | dilithium3 => rfl
  | mlDsa65 => rfl
  | sphincsSha2256f => rfl

/-- What is loaded from the words about an algorithm. -/
def AlgorithmRecord.loaded (a : AlgorithmRecord) : AlgorithmStatus × Option AlgorithmSpec :=
  match a.status with
  | none => (.active, none)
  | some status => (status, if a.hasSpec then some ⟨a.verifierHash, a.activationHeight⟩ else none)

theorem load_registryOf {f : SignatureType → AlgorithmStatus × Option AlgorithmSpec} {algo : SignatureType}
    (hf : f algo = (.active, none)) (a : AlgorithmRecord) :
    (registryOf f).load algo a = registryOf (Function.update f algo a.loaded) := by
  unfold load AlgorithmRecord.loaded
  cases a.status with
  | none => rw [← hf, Function.update_eq_self]
  | some status =>
    simp only [proposeActivationWithSpec, activate, deprecateEntry, proposeActivation]
    cases a.hasSpec with
    | true => cases status <;> simp [upsertStatus_registryOf]
    | false => cases status <;> simp [upsertStatus_registryOf, hf]

/-- The loaded registry has what is loaded for each algorithm on its own. -/
theorem loadAlgorithmRegistry_eq (w : WorldState κ) :
    loadAlgorithmRegistry w = registryOf fun algo => (w.registry.algorithms algo).loaded := by
  have hstart : fromAllowlist = registryOf fun _ => (.active, none) := rfl
  simp only [loadAlgorithmRegistry, allowedAlgorithms, List.foldl_cons, List.foldl_nil, hstart]
  rw [load_registryOf rfl, load_registryOf (by simp), load_registryOf (by simp)]
  congr 1
  funext algo
  cases algo with
  | dilithium3 => rfl
  | mlDsa65 => rfl
  | sphincsSha2256f => rfl

/-! ## States whose registry is the loaded one -/

/-- No algorithm has a height or a verifier without a status. -/
def SpecsPublished (w : WorldState κ) : Prop :=
  ∀ algo, (w.registry.algorithms algo).status = none → (w.registry.algorithms algo).hasSpec = false

/-- The registry of the process is the one that the state represents. -/
structure Mirrored (s : NativeState κ) : Prop where
  loaded : s.registry = loadAlgorithmRegistry s.world
  specs : SpecsPublished s.world

/-- A step keeps the registry of the process in agreement with the state. -/
def KeepsMirror (s t : NativeState κ) : Prop :=
  Mirrored s → Mirrored t

instance : StepRelation (KeepsMirror (κ := κ)) where
  refl _ := id
  trans h h' hs := h' (h hs)

section Words

variable {s t : NativeState κ} {algo : SignatureType} {a : AlgorithmRecord}

theorem loaded_congr {a' : AlgorithmRecord} (h : a'.published = a.published) :
    a'.loaded = a.loaded ∧ a'.hasSpec = a.hasSpec ∧ a'.status = a.status := by
  obtain ⟨hstatus, hheight, hverifier⟩ : a'.status = a.status ∧ a'.activationHeight = a.activationHeight ∧
      a'.verifierHash = a.verifierHash := by simpa [AlgorithmRecord.published] using h
  have hspec : a'.hasSpec = a.hasSpec := by
    unfold AlgorithmRecord.hasSpec
    rw [hheight, hverifier]
  refine ⟨?_, hspec, hstatus⟩
  unfold AlgorithmRecord.loaded
  rw [hstatus, hspec, hheight, hverifier]

/-- A step that leaves the registry and every loaded word. -/
theorem KeepsMirror.of_words (hregistry : t.registry = s.registry)
    (hwords : ∀ algo, (t.world.registry.algorithms algo).published = (s.world.registry.algorithms algo).published) :
    KeepsMirror s t := by
  intro hs
  refine ⟨?_, fun algo => ?_⟩
  · rw [hregistry, hs.loaded, loadAlgorithmRegistry_eq, loadAlgorithmRegistry_eq]
    congr 1
    funext algo
    exact (loaded_congr (hwords algo)).1.symm
  · obtain ⟨-, hspec, hstatus⟩ := loaded_congr (hwords algo)
    rw [hspec, hstatus]
    exact hs.specs algo

/-- With a status for every specification, the loaded specification does not depend on the status. -/
theorem loaded_snd (h : a.status = none → a.hasSpec = false) :
    a.loaded.2 = if a.hasSpec then some ⟨a.verifierHash, a.activationHeight⟩ else none := by
  unfold AlgorithmRecord.loaded
  cases hstatus : a.status with
  | none => simp [h hstatus]
  | some status => rfl

/-- A new status of an algorithm, stored and in the process. -/
theorem Mirrored.upsert (hs : Mirrored s) {status : AlgorithmStatus} (spec : Option AlgorithmSpec)
    (hstatus : a.status = some status) (hspec : a.loaded.2 = spec.or (s.world.registry.algorithms algo).loaded.2) :
    Mirrored { withAlgorithm s algo (fun _ => a) with registry := s.registry.upsertStatus algo status spec } := by
  refine ⟨?_, fun algo' => ?_⟩
  · simp only
    rw [hs.loaded, loadAlgorithmRegistry_eq, loadAlgorithmRegistry_eq, upsertStatus_registryOf]
    congr 1
    funext algo'
    by_cases h : algo' = algo
    · subst h
      rw [Function.update_self, algorithms_withAlgorithm_self, ← hspec]
      simp only [AlgorithmRecord.loaded, hstatus]
    · rw [Function.update_of_ne h, algorithms_withAlgorithm_of_ne (Ne.symm h)]
  · by_cases h : algo' = algo
    · subst h
      simp only [algorithms_withAlgorithm_self, hstatus]
      exact nofun
    · simp only [algorithms_withAlgorithm_of_ne (Ne.symm h)]
      exact hs.specs algo'

end Words

/-! ## Writes -/

variable {s t : NativeState κ}

/-- A write of a call keeps the registry in agreement with the state: what is published has a height that is not zero, so
that its parameters are loaded. -/
theorem AlgorithmWrite.keepsMirror {older : Bool} (h : AlgorithmWrite older 1 s t) : KeepsMirror s t := by
  have hwords : ∀ algo (f : AlgorithmRecord → AlgorithmRecord), (∀ a, (f a).published = a.published) →
      KeepsMirror s (withAlgorithm s algo f) := fun algo f hf =>
    .of_words rfl (forall_withAlgorithm (P := fun a a' => a'.published = a.published) hf fun _ => rfl)
  cases h with
  | vote _ key => exact .of_words rfl fun _ => rfl
  | candidate _ algo height verifier => exact hwords algo _ fun _ => rfl
  | proposals f g => exact .of_words rfl fun _ => rfl
  | words algo f hf => exact hwords algo f hf
  | publish algo height verifier hheight =>
    intro hs
    refine hs.upsert (some ⟨verifier, height⟩) (a := { s.world.registry.algorithms algo with
      status := some .pendingActivation, activationHeight := height, verifierHash := verifier }) rfl ?_
    simp [AlgorithmRecord.loaded, AlgorithmRecord.hasSpec, show 0 < height from hheight]
  | retire algo =>
    intro hs
    refine hs.upsert none (a := { s.world.registry.algorithms algo with status := some .deprecated }) rfl ?_
    rw [loaded_snd (hs.specs algo), Option.none_or]
    rfl

theorem AlgorithmWrites.keepsMirror (h : AlgorithmWrites true 1 s t) : KeepsMirror s t :=
  StepRelation.of_steps (S := KeepsMirror) (fun _ _ => AlgorithmWrite.keepsMirror) h

/-- Activations keep the specification of every entry. -/
theorem foldl_activate (due : List SignatureType) (f : SignatureType → AlgorithmStatus × Option AlgorithmSpec) :
    due.foldl activate (registryOf f) = registryOf fun algo => if algo ∈ due then (.active, (f algo).2) else f algo := by
  induction due generalizing f with
  | nil => simp
  | cons d due ih =>
    rw [List.foldl_cons, activate, upsertStatus_registryOf, ih]
    congr 1
    funext algo
    by_cases h : algo = d
    · subst h
      simp
    · simp [h]

theorem keepsMirror_processPendingActivations (height : Nat) :
    (Native.processPendingActivations height : NativeM κ (List SignatureType)).Within KeepsMirror := by
  refine .read fun due => ?_
  intro s hs
  change Mirrored { s with
    world := s.world.mapRegistry fun r => { r with
      algorithms := fun algo => if algo ∈ due then { r.algorithms algo with status := some .active } else r.algorithms algo }
    registry := due.foldl activate s.registry }
  refine ⟨?_, fun algo => ?_⟩
  · simp only
    rw [hs.loaded, loadAlgorithmRegistry_eq, loadAlgorithmRegistry_eq, foldl_activate]
    congr 1
    funext algo
    simp only [WorldState.mapRegistry]
    split
    · rw [loaded_snd (hs.specs algo)]
      rfl
    · rfl
  · simp only [WorldState.mapRegistry]
    split
    · intro hpending
      cases hpending
    · exact hs.specs algo

/-! ## Steps -/

theorem RegistryCall.keepsMirror_execute (call : RegistryCall) (ctx : ExecContext) (caller : Address) :
    (call.execute Γ rules ctx caller : NativeM κ SystemContractOutcome).Within KeepsMirror := by
  by_cases halgorithm : call.IsAlgorithmCall
  · exact (atomic_execute halgorithm ctx caller).within.mono fun _ _ => AlgorithmWrites.keepsMirror
  · refine (algorithmFrame_execute halgorithm ctx caller).mono fun s t h => .of_words h.registry fun algo => ?_
    rw [h.algorithms]

theorem Mirrored.step (h : Mirrored s) (i : GovernanceInput) : Mirrored ((governanceSystem Γ rules κ).step s i) := by
  cases i with
  | call c =>
    refine (.lift fun call => ?_ : Within KeepsMirror _) s h
    exact RegistryCall.keepsMirror_execute call c.ctx c.caller
  | signed c signingAlgorithm =>
    exact ((atomic_executeAuthenticatedGovernanceCall _ _ _ signingAlgorithm).within s).keepsMirror h
  | activate height => exact keepsMirror_processPendingActivations height s h

/-- In every run of governance and activations from a state whose registry is the one that it represents, and in which no
algorithm has a height or a verifier without a status, the registry of the process stays the one that the state
represents. -/
theorem registry_mirrors_state {start : NativeState κ} (hloaded : start.registry = loadAlgorithmRegistry start.world)
    (hspecs : SpecsPublished start.world) (inputs : List GovernanceInput) :
    let s := (governanceSystem Γ rules κ).run start inputs
    s.registry = loadAlgorithmRegistry s.world :=
  (TransitionSystem.invariant_run_of_step (I := Mirrored) (fun _ i h => h.step i) ⟨hloaded, hspecs⟩ inputs).loaded

/-! ## One validator -/

namespace SingleGovernor

/-- The only validator proposes SPHINCS+ for a height. -/
def propose (height : Nat) : GovernanceInput :=
  .call ⟨nativeContext 0, nativeAddress 1, calldata "proposeAlgorithmActivation(uint8,uint64,bytes32)"
    [word SignatureType.sphincsSha2256f.asU8.toNat, word height, word 7]⟩

/-- The only validator deprecates SPHINCS+. -/
def retire : GovernanceInput :=
  .call ⟨nativeContext 0, nativeAddress 1,
    calldata "deprecateAlgorithm(uint8)" [word SignatureType.sphincsSha2256f.asU8.toNat]⟩

/-- The state with the validator and nothing else. -/
def start : NativeState Unit :=
  nativeGenesis [nativeAddress 1]

/-- The entry of SPHINCS+ in the registry of the process. -/
def entryOf (s : NativeState Unit) : Option (AlgorithmStatus × Option AlgorithmSpec) :=
  (s.registry.entries.find? fun e => e.algo = .sphincsSha2256f).map fun e => (e.status, e.spec)

/-- The algorithm is proposed, activated at its height, and deprecated; a restart finds it so, with its parameters. -/
theorem retired_mirrors_state :
    let s := (governanceSystem nativeCtx nativeRules Unit).run start [propose 600000, .activate 600000, retire]
    s.registry = loadAlgorithmRegistry s.world ∧ entryOf s = some (.deprecated, some ⟨.ofWord (word 7), 600000⟩) := by
  intro s
  have hspecs : SpecsPublished start.world := fun _ _ => rfl
  refine ⟨registry_mirrors_state rfl hspecs _, ?_⟩
  decide +kernel

end SingleGovernor

namespace StrayHeightCex

open SingleGovernor

/-- A state that stores a height of SPHINCS+ and no status. -/
def start : NativeState Unit :=
  withAlgorithm SingleGovernor.start .sphincsSha2256f fun a => { a with activationHeight := 5 }

/-- A node that loaded its registry from the state has no parameters of the algorithm after its deprecation; a node that
loads it afterwards has. -/
theorem restart_differs :
    let s := (governanceSystem nativeCtx nativeRules Unit).run start [retire]
    start.registry = loadAlgorithmRegistry start.world ∧ s.registry ≠ loadAlgorithmRegistry s.world := by
  decide +kernel

end StrayHeightCex

end ShellChain
