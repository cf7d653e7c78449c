import ShellChain.Lemmas.ValidatorSet
import ShellChain.ViewChange

/-!
# Slashed weights under authority updates

The effective weight of a validator is its base weight less what was taken from it. `set_authorities` reads the effective
weights and stores them as base weights, from which the reduction is then taken once more; it gives a validator that comes
back the weight one; and a slash caps the reduction at a base weight that may have become smaller, or is missing.
-/

namespace ShellChain

open WPoaEngine Option ValidatorSet

/-! ## Runs with what was given and taken -/

/-- A call that may change the effective weights. -/
inductive WeightCall
  | slash (offender : Address)
  | penaltyRoundTrip
  | setAuthorities (authorities : List Address)
  | setAuthoritiesWithWeights (authorities : List Address) (weights : List Nat)

/-- An engine with the weight last given to each address and the weight taken from it so far. -/
structure WeightAudit where
  engine : WPoaEngine
  given : Address → Option Nat
  taken : Address → Nat

/-- The last weight that a list of entries gives to an address. -/
def lastGiven (entries : List (Address × Nat)) (a : Address) : Option Nat :=
  (entries.reverse.find? fun entry => entry.1 = a).map fun entry => clampWeight entry.2

namespace WPoaEngine

/-- The share of the effective weight that a slash asks for. -/
def slashAmount (e : WPoaEngine) (offender : Address) : Nat :=
  (e.effectiveWeightFor offender).getD 1 * e.slashWeightBps / 10000 % 2 ^ 64

/-- The entries of an authority update. -/
def entriesOf (authorities : List Address) (weights : List Nat) : List (Address × Nat) :=
  authorities.zip (alignWeights authorities weights)

end WPoaEngine

namespace WeightAudit

/-- The base weight of an address: the one last given, or one. -/
def base (s : WeightAudit) (a : Address) : Nat :=
  (s.given a).getD 1

/-- The engine after genesis, with the weights that genesis gives. -/
def start (authorities : List Address) (weights : List Nat) (slashWeightBps chainId nowMs : Nat) : WeightAudit :=
  ⟨.new authorities weights slashWeightBps chainId nowMs, lastGiven (entriesOf authorities weights), fun _ => 0⟩

/-- What is taken is never more than what is left of the present base weight. -/
def step (s : WeightAudit) : WeightCall → WeightAudit
  | .slash offender =>
    { s with
      engine := s.engine.slashAuthority offender
      taken := Function.update s.taken offender (s.taken offender +
        min (s.engine.slashAmount offender) ((s.engine.baseWeightFor offender).getD 1 - s.taken offender)) }
  | .penaltyRoundTrip => { s with engine := s.engine.restorePenaltyState s.engine.penaltyState }
  | .setAuthorities authorities => { s with engine := (s.engine.setAuthorities authorities).getD s.engine }
  | .setAuthoritiesWithWeights authorities weights =>
    match s.engine.setAuthoritiesWithWeights authorities weights with
    | none => s
    | some next => { s with engine := next, given := fun a => (lastGiven (entriesOf authorities weights) a).or (s.given a) }

/-- The calls of a run. -/
def system : TransitionSystem WeightAudit WeightCall where
  step := step

/-- The call feeds no reduction back: an update without weights names active validators from which nothing was taken, or
whose weight is one, and others only if their weight is one; and a slash finds a reduction within the present base weight. -/
def KeepsWeights (s : WeightAudit) : WeightCall → Prop
  | .slash offender => s.taken offender ≤ (s.engine.baseWeightFor offender).getD 1
  | .setAuthorities authorities =>
    ∀ a ∈ authorities, s.base a = 1 ∨ s.engine.validatorSet.isActive a = true ∧ s.taken a = 0
  | _ => True

/-- The base weights of the active validators are those last given, and the reductions are what was taken. -/
structure Exact (s : WeightAudit) : Prop where
  base_eq : ∀ a, s.engine.validatorSet.isActive a = true → s.engine.baseWeightFor a = some (s.base a)
  taken_eq : ∀ a, (s.engine.slashWeights.lookup a).getD 0 = s.taken a

/-- The validator set was made from a list of entries, which are the configured authorities. -/
def FromEntries (e : WPoaEngine) : Prop :=
  ∃ entries config, e.validatorSet = .fromGenesis entries config ∧ e.authorities = entries.map Prod.fst

end WeightAudit

/-! ## Sets made from entries -/

section

variable {e : WPoaEngine} {entries : List (Address × Nat)} {config : ValidatorSetConfig}

theorem clampWeight_bounds (w : Nat) : 1 ≤ clampWeight w ∧ clampWeight w ≤ maxValidatorWeight := by
  unfold clampWeight maxValidatorWeight
  omega

variable {w : Nat} {a : Address}

theorem lastGiven_eq_none (entries : List (Address × Nat)) (a : Address) :
    lastGiven entries a = none ↔ a ∉ entries.map Prod.fst := by
  simp only [lastGiven, Option.map_eq_none_iff, List.find?_eq_none, List.mem_reverse, decide_eq_true_eq, List.mem_map,
    not_exists, not_and]

theorem exists_of_lastGiven (h : lastGiven entries a = some w) : ∃ v, (a, v) ∈ entries ∧ clampWeight v = w := by
  rw [lastGiven, map_eq_some_iff] at h
  obtain ⟨⟨b, v⟩, hfind, rfl⟩ := h
  have hb : b = a := by simpa using List.find?_some hfind
  subst hb
  exact ⟨v, List.mem_reverse.mp (List.mem_of_find?_eq_some hfind), rfl⟩

theorem isActive_fromGenesis (entries : List (Address × Nat)) (config : ValidatorSetConfig) (a : Address) :
    (fromGenesis entries config).isActive a = (lastGiven entries a).isSome := by
  rw [isActive, lookup_fromGenesis, lastGiven]
  cases entries.reverse.find? fun entry => entry.1 = a <;> rfl

theorem mem_iff_isActive_fromGenesis (entries : List (Address × Nat)) (config : ValidatorSetConfig) (a : Address) :
    (fromGenesis entries config).isActive a = true ↔ a ∈ entries.map Prod.fst := by
  rw [isActive_fromGenesis, isSome_iff_ne_none, ne_eq, lastGiven_eq_none, not_not]

/-- An engine whose set was made from its authorities has no other base weights. -/
theorem baseWeightFor_of_entries (hset : e.validatorSet = .fromGenesis entries config)
    (hauthorities : e.authorities = entries.map Prod.fst) (a : Address) : e.baseWeightFor a = lastGiven entries a := by
  rw [baseWeightFor, hset, lookup_fromGenesis, map_map]
  change (lastGiven entries a).or _ = _
  cases hgiven : lastGiven entries a with
  | some w => rfl
  | none =>
    have habsent := (lastGiven_eq_none entries a).mp hgiven
    rw [← hauthorities] at habsent
    rw [none_or, Option.map_eq_none_iff, List.findIdx?_eq_none_iff]
    intro b hb
    simpa using fun heq : b = a => habsent (heq ▸ hb)

theorem lookup_validatorWeights (hset : e.validatorSet = .fromGenesis entries config) (a : Address) :
    e.validatorWeights.lookup a =
      if e.validatorSet.isActive a = true then some ((e.effectiveWeightFor a).getD 0) else none := by
  have hlist : ∀ l : List ValidatorInfo,
      (l.map fun v => (⟨v.address, (e.effectiveWeightFor v.address).getD 0⟩ : Sigma fun _ : Address => Nat)).dlookup a =
        if a ∈ l.map ValidatorInfo.address then some ((e.effectiveWeightFor a).getD 0) else none := by
    intro l
    induction l with
    | nil => rfl
    | cons v rest ih =>
      rw [List.map_cons, List.map_cons]
      by_cases ha : v.address = a
      · subst ha
        rw [List.dlookup_cons_eq, if_pos List.mem_cons_self]
      · rw [List.dlookup_cons_ne _ _ (Ne.symm ha), ih]
        simp [Ne.symm ha]
  rw [validatorWeights, AList.lookup_to_alist, hlist]
  have hkeyed : e.validatorSet.Keyed := hset ▸ keyed_fromGenesis entries config
  have horder : e.validatorSet.isActive a = true → a ∈ e.validatorSet.order := by
    rw [hset, order_fromGenesis]
    exact (mem_iff_isActive_fromGenesis entries config a).mp
  simp only [hkeyed.mem_activeValidators, and_iff_right_of_imp horder]

theorem map_fst_entriesOf (authorities : List Address) (weights : List Nat) :
    (entriesOf authorities weights).map Prod.fst = authorities :=
  List.map_fst_zip (by simp [alignWeights])

/-- The entries when the weights are a function of the authorities. -/
theorem entriesOf_map (authorities : List Address) (f : Address → Nat) :
    entriesOf authorities (authorities.map f) = authorities.map fun a => (a, clampWeight (f a)) := by
  have halign : alignWeights authorities (authorities.map f) = authorities.map fun a => clampWeight (f a) := by
    refine List.ext_getElem (by simp [alignWeights]) fun i hi hi' => ?_
    have hlen : i < authorities.length := by simpa using hi'
    simp [alignWeights, hlen]
  rw [entriesOf, halign]
  clear halign
  induction authorities with
  | nil => rfl
  | cons a rest ih => simp [ih]

theorem lastGiven_entriesOf_map (authorities : List Address) (f : Address → Nat) (ha : a ∈ authorities) :
    lastGiven (entriesOf authorities (authorities.map f)) a = some (clampWeight (f a)) := by
  cases hgiven : lastGiven (entriesOf authorities (authorities.map f)) a with
  | none =>
    rw [lastGiven_eq_none, map_fst_entriesOf] at hgiven
    exact absurd ha hgiven
  | some w =>
    obtain ⟨v, hmem, rfl⟩ := exists_of_lastGiven hgiven
    rw [entriesOf_map, List.mem_map] at hmem
    obtain ⟨b, -, heq⟩ := hmem
    obtain ⟨rfl, rfl⟩ := Prod.mk.inj heq
    have hbounds := clampWeight_bounds (f b)
    rw [clampWeight, Nat.max_eq_left hbounds.1, Nat.min_eq_left hbounds.2]

end

namespace WeightAudit

section

variable {s : WeightAudit}

/-! ## One call -/

variable {e : WPoaEngine} {a : Address}

theorem FromEntries.setAuthoritiesWithWeights {next : WPoaEngine} {authorities : List Address} {weights : List Nat}
    (h : e.setAuthoritiesWithWeights authorities weights = some next) :
    next.validatorSet = .fromGenesis (entriesOf authorities weights) e.validatorSet.config ∧
      next.authorities = (entriesOf authorities weights).map Prod.fst ∧ next.slashWeights = e.slashWeights := by
  unfold WPoaEngine.setAuthoritiesWithWeights at h
  split at h
  · cases h
  · cases h
    exact ⟨rfl, (map_fst_entriesOf authorities weights).symm, rfl⟩

theorem fromEntries_step (s : WeightAudit) (c : WeightCall) (h : FromEntries s.engine) :
    FromEntries (system.step s c).engine := by
  have hupdate : ∀ {authorities weights next}, s.engine.setAuthoritiesWithWeights authorities weights = some next →
      FromEntries next := by
    intro authorities weights next hset
    obtain ⟨hnext, hlist, -⟩ := FromEntries.setAuthoritiesWithWeights hset
    exact ⟨_, _, hnext, hlist⟩
  cases c with
  | slash | penaltyRoundTrip => exact h
  | setAuthorities authorities =>
    change FromEntries ((s.engine.setAuthorities authorities).getD s.engine)
    cases hset : s.engine.setAuthorities authorities with
    | none => exact h
    | some next => exact hupdate hset
  | setAuthoritiesWithWeights authorities weights =>
    simp only [system, step]
    split
    · exact h
    · exact hupdate (by assumption)

/-- An active validator has a base weight within the bounds. -/
theorem FromEntries.base_bounds (h : FromEntries e) {w : Nat} (hbase : e.baseWeightFor a = some w) :
    1 ≤ w ∧ w ≤ maxValidatorWeight := by
  obtain ⟨entries, config, hset, hlist⟩ := h
  rw [baseWeightFor_of_entries hset hlist] at hbase
  obtain ⟨v, -, rfl⟩ := exists_of_lastGiven hbase
  exact clampWeight_bounds v

theorem FromEntries.isActive_iff (h : FromEntries e) (a : Address) :
    e.validatorSet.isActive a = true ↔ a ∈ e.authorities := by
  obtain ⟨entries, config, hset, hlist⟩ := h
  rw [hset, hlist, mem_iff_isActive_fromGenesis]

theorem Exact.effective (h : s.Exact) (ha : s.engine.validatorSet.isActive a = true) :
    s.engine.effectiveWeightFor a = some (s.base a - s.taken a) := by
  rw [effectiveWeightFor, h.base_eq a ha, h.taken_eq a, map_some]

theorem lookup_slashAuthority (e : WPoaEngine) (offender a : Address) :
    ((e.slashAuthority offender).slashWeights.lookup a).getD 0 = if a = offender then
        min (saturatingAdd ((e.slashWeights.lookup offender).getD 0) (e.slashAmount offender))
          ((e.baseWeightFor offender).getD 1) else (e.slashWeights.lookup a).getD 0 := by
  by_cases ha : a = offender
  · subst ha
    simp [slashAuthority, slashAmount]
  · simp [slashAuthority, ha, AList.lookup_insert_ne ha]

theorem exact_slash (hs : FromEntries s.engine) (h : s.Exact) (offender : Address) :
    (s.step (.slash offender)).Exact ↔ s.KeepsWeights (.slash offender) := by
  have hbound : (s.engine.baseWeightFor offender).getD 1 ≤ u64Max := by
    cases hbase : s.engine.baseWeightFor offender with
    | none => simp [u64Max]
    | some w =>
      have hw := (hs.base_bounds hbase).2
      simp only [getD_some]
      unfold maxValidatorWeight at hw
      unfold u64Max
      omega
  -- the cap at the base weight is the cap at what is left of it, unless more was taken already
  have hcap : min (saturatingAdd (s.taken offender) (s.engine.slashAmount offender))
        ((s.engine.baseWeightFor offender).getD 1) =
      s.taken offender + min (s.engine.slashAmount offender) ((s.engine.baseWeightFor offender).getD 1 - s.taken offender) ↔
      s.taken offender ≤ (s.engine.baseWeightFor offender).getD 1 := by
    unfold saturatingAdd
    omega
  refine Iff.trans ⟨fun hexact => ?_, fun heq => ⟨h.base_eq, fun a => ?_⟩⟩ hcap
  · have htaken := hexact.taken_eq offender
    simp only [step, lookup_slashAuthority, Function.update_self, if_true, h.taken_eq offender] at htaken
    exact htaken
  · simp only [step, lookup_slashAuthority]
    by_cases ha : a = offender
    · subst ha
      rw [if_pos rfl, Function.update_self, h.taken_eq a]
      exact heq
    · rw [if_neg ha, Function.update_of_ne ha]
      exact h.taken_eq a

theorem exact_setAuthorities (hs : FromEntries s.engine) (h : s.Exact) (authorities : List Address) :
    (s.step (.setAuthorities authorities)).Exact ↔ s.KeepsWeights (.setAuthorities authorities) := by
  cases hnext : s.engine.setAuthorities authorities with
  | none =>
    have hempty : authorities = [] := by
      unfold setAuthorities WPoaEngine.setAuthoritiesWithWeights at hnext
      by_contra hne
      rw [if_neg hne] at hnext
      cases hnext
    subst hempty
    simp only [step, hnext, getD_none, KeepsWeights]
    simpa using h
  | some next =>
    obtain ⟨hset, hlist, hslash⟩ := FromEntries.setAuthoritiesWithWeights hnext
    have hfrom : FromEntries next := ⟨_, _, hset, hlist⟩
    have hlist' : next.authorities = authorities := hlist.trans (map_fst_entriesOf ..)
    have hstep : s.step (.setAuthorities authorities) = { s with engine := next } := by simp [step, hnext]
    have hbase : ∀ a ∈ authorities,
        next.baseWeightFor a = some (clampWeight ((s.engine.validatorWeights.lookup a).getD 1)) := by
      intro a ha
      rw [baseWeightFor_of_entries hset hlist, lastGiven_entriesOf_map _ _ ha]
    -- the new base weight of a listed address is the one last given exactly under the condition
    have hsame : ∀ a ∈ authorities, next.baseWeightFor a = some (s.base a) ↔
        (s.base a = 1 ∨ s.engine.validatorSet.isActive a = true ∧ s.taken a = 0) := by
      intro a ha
      have ⟨_, _, hentries, _⟩ := hs
      rw [hbase a ha, lookup_validatorWeights hentries, some_inj]
      by_cases hactive : s.engine.validatorSet.isActive a = true
      · obtain ⟨hlow, hhigh⟩ := hs.base_bounds (h.base_eq a hactive)
        rw [if_pos hactive, h.effective hactive, getD_some, getD_some]
        simp only [hactive, true_and]
        unfold clampWeight
        omega
      · rw [if_neg hactive, getD_none]
        simp [hactive, clampWeight, maxValidatorWeight, eq_comm]
    rw [hstep]
    constructor
    · intro hexact a ha
      refine (hsame a ha).mp (hexact.base_eq a ?_)
      rw [hfrom.isActive_iff, hlist']
      exact ha
    · intro hkeeps
      refine ⟨fun a ha => ?_, fun a => ?_⟩
      · rw [hfrom.isActive_iff, hlist'] at ha
        exact (hsame a ha).mpr (hkeeps a ha)
      · rw [hslash]
        exact h.taken_eq a

theorem exact_setAuthoritiesWithWeights (h : s.Exact) (authorities : List Address) (weights : List Nat) :
    (s.step (.setAuthoritiesWithWeights authorities weights)).Exact := by
  simp only [step]
  cases hnext : s.engine.setAuthoritiesWithWeights authorities weights with
  | none => exact h
  | some next =>
    obtain ⟨hset, hlist, hslash⟩ := FromEntries.setAuthoritiesWithWeights hnext
    refine ⟨fun a ha => ?_, fun a => ?_⟩
    · have hgiven := baseWeightFor_of_entries hset hlist a
      rw [hset, isActive_fromGenesis, isSome_iff_exists] at ha
      obtain ⟨w, hw⟩ := ha
      simp [base, hgiven, hw]
    · rw [hslash]
      exact h.taken_eq a

/-- A call keeps the account exactly under the condition. -/
theorem exact_step_iff (s : WeightAudit) (c : WeightCall) (h : FromEntries s.engine ∧ s.Exact) :
    (FromEntries (system.step s c).engine ∧ (system.step s c).Exact) ↔ s.KeepsWeights c := by
  obtain ⟨hs, h⟩ := h
  rw [and_iff_right (fromEntries_step s c hs)]
  cases c with
  | slash offender => exact exact_slash hs h offender
  | penaltyRoundTrip => exact iff_of_true ⟨h.base_eq, h.taken_eq⟩ trivial
  | setAuthorities authorities => exact exact_setAuthorities hs h authorities
  | setAuthoritiesWithWeights authorities weights =>
    exact iff_of_true (exact_setAuthoritiesWithWeights h authorities weights) trivial

theorem exact_start (authorities : List Address) (weights : List Nat) (slashWeightBps chainId nowMs : Nat) :
    FromEntries (start authorities weights slashWeightBps chainId nowMs).engine ∧
      (start authorities weights slashWeightBps chainId nowMs).Exact := by
  have hset : (start authorities weights slashWeightBps chainId nowMs).engine.validatorSet =
      .fromGenesis (entriesOf authorities weights) {} := rfl
  have hlist : (start authorities weights slashWeightBps chainId nowMs).engine.authorities =
      (entriesOf authorities weights).map Prod.fst := (map_fst_entriesOf authorities weights).symm
  refine ⟨⟨_, _, hset, hlist⟩, fun a ha => ?_, fun a => rfl⟩
  rw [baseWeightFor_of_entries hset hlist]
  rw [hset, isActive_fromGenesis, isSome_iff_exists] at ha
  obtain ⟨w, hw⟩ := ha
  simp [base, start, hw]

end

/-! ## Every run -/

theorem effectiveWeightFor_slashAuthority_le {e : WPoaEngine} (he : FromEntries e) (offender a : Address) :
    ((e.slashAuthority offender).effectiveWeightFor a).getD 0 ≤ (e.effectiveWeightFor a).getD 0 := by
  have hbase : (e.slashAuthority offender).baseWeightFor a = e.baseWeightFor a := rfl
  rw [effectiveWeightFor, effectiveWeightFor, hbase]
  cases hw : e.baseWeightFor a with
  | none => simp
  | some w =>
    have hbound : w ≤ u64Max := (he.base_bounds hw).2.trans (by decide)
    simp only [map_some, getD_some, lookup_slashAuthority]
    by_cases ha : a = offender
    · subst ha
      rw [if_pos rfl, hw, getD_some, saturatingAdd]
      omega
    · rw [if_neg ha]

/-- An engine that has gone through calls from genesis. -/
def after (authorities : List Address) (weights : List Nat) (slashWeightBps chainId nowMs : Nat) (calls : List WeightCall) :
    WeightAudit :=
  system.run (start authorities weights slashWeightBps chainId nowMs) calls

/-- The base weights and the reductions are the weights given and taken at every point of a run exactly if every call meets
the condition. At such a point the effective weight of an active validator is the weight last given to it less what was taken
from it, and an update without weights that meets the condition changes no effective weight of a validator that stays. No
slash of any run raises an effective weight. -/
theorem effective_weights_exact (authorities : List Address) (weights : List Nat) (slashWeightBps chainId nowMs : Nat)
    (calls : List WeightCall) :
    ((∀ n, (after authorities weights slashWeightBps chainId nowMs (calls.take n)).Exact) ↔
      system.Admits KeepsWeights (start authorities weights slashWeightBps chainId nowMs) calls) ∧
    ∀ s, after authorities weights slashWeightBps chainId nowMs calls = s →
      (s.Exact → ∀ a, s.engine.validatorSet.isActive a = true →
        s.engine.effectiveWeightFor a = some (s.base a - s.taken a)) ∧
      (s.Exact → ∀ list next, s.KeepsWeights (.setAuthorities list) → s.engine.setAuthorities list = some next →
        ∀ a, s.engine.validatorSet.isActive a = true → next.validatorSet.isActive a = true →
          next.effectiveWeightFor a = s.engine.effectiveWeightFor a) ∧
      ∀ offender a, ((s.engine.slashAuthority offender).effectiveWeightFor a).getD 0 ≤
        (s.engine.effectiveWeightFor a).getD 0 := by
  have hstart := exact_start authorities weights slashWeightBps chainId nowMs
  have hfrom : ∀ calls, FromEntries (after authorities weights slashWeightBps chainId nowMs calls).engine := fun calls =>
    TransitionSystem.invariant_run_of_step (I := fun s : WeightAudit => FromEntries s.engine) fromEntries_step hstart.1 calls
  constructor
  · refine Iff.trans (forall_congr' fun n => ?_) (TransitionSystem.forall_take_iff_admits exact_step_iff hstart calls)
    exact (and_iff_right (hfrom (calls.take n))).symm
  · intro s hs
    have hentries : FromEntries s.engine := hs ▸ hfrom calls
    refine ⟨fun hexact a ha => hexact.effective ha, fun hexact list next hkeeps hnext a ha ha' => ?_, fun offender a => ?_⟩
    · have hstep : s.step (.setAuthorities list) = { s with engine := next } := by simp [step, hnext]
      have hafter := (exact_setAuthorities hentries hexact list).mpr hkeeps
      rw [hstep] at hafter
      rw [hexact.effective ha, hafter.effective ha']
      rfl
    · exact effectiveWeightFor_slashAuthority_le hentries offender a

/-! ## A reduction taken twice -/

namespace ReducedTwice

/-- One validator of weight ten, from which a slash takes a tenth. -/
def slashed : List WeightCall :=
  [.slash (.repeatByte 1)]

def audit (calls : List WeightCall) : WeightAudit :=
  after [.repeatByte 1] [10] 1000 0 0 calls

/-- The same list of authorities takes the tenth again. -/
theorem same_list_lowers_weight :
    (audit slashed).engine.authorities = [.repeatByte 1] ∧
      (audit slashed).engine.effectiveWeightFor (.repeatByte 1) = some 9 ∧
      (audit (slashed ++ [.setAuthorities [.repeatByte 1]])).engine.effectiveWeightFor (.repeatByte 1) = some 8 ∧
      (audit (slashed ++ [.setAuthorities [.repeatByte 1]])).base (.repeatByte 1) = 10 ∧
      (audit (slashed ++ [.setAuthorities [.repeatByte 1]])).taken (.repeatByte 1) = 1 := by
  decide +kernel

end ReducedTwice

end WeightAudit

end ShellChain
