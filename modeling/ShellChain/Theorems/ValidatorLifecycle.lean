import ShellChain.Lemmas.ValidatorSet

/-!
# The lifecycle of validators

The waiting validators, in the order in which they were added, are what is left of the activation queue; an epoch activates
the first of them. The status of a validator only moves forward. The order names every validator once when the genesis entries
do: `from_genesis` appends every entry, also one of an address it has seen, and then the active count is wrong and the last
active validator can leave.
-/

namespace ShellChain

open List Checks

/-- What a call may do to the status of a validator. -/
inductive ValidatorStatus.Moves : ValidatorStatus → LifecycleCall → ValidatorStatus → Prop
  | same (s c) : Moves s c s
  | activated (epoch) : Moves .pending (.processActivations epoch) .active
  | leaving (a epoch exitEpoch) : Moves .active (.beginExit a epoch) (.exiting exitEpoch)
  | left {exitEpoch epoch} (past : exitEpoch ≤ epoch) : Moves (.exiting exitEpoch) (.processExits epoch) .exited
  | slashed (s a epoch) : Moves s (.slash a epoch) .slashed

namespace ValidatorSet

/-- The status of an address in a map of records. -/
def statusIn (validators : HashMap Address ValidatorInfo) (a : Address) : Option ValidatorStatus :=
  (validators.lookup a).map ValidatorInfo.status

/-- The status of a tracked address. -/
def statusOf (set : ValidatorSet) (a : Address) : Option ValidatorStatus :=
  statusIn set.validators a

/-- The address waits for its activation. -/
def pendingIn (validators : HashMap Address ValidatorInfo) (a : Address) : Bool :=
  statusIn validators a = some .pending

/-- The address waits for its activation. -/
def isPending (set : ValidatorSet) (a : Address) : Bool :=
  pendingIn set.validators a

/-- The validators that wait, in the order in which they were added. -/
def waiting (set : ValidatorSet) : List Address :=
  set.order.filter set.isPending

def activeAddresses (set : ValidatorSet) : Finset Address :=
  set.validators.keys.toFinset.filter fun a => set.isActive a

/-- The order names each validator once, the active count counts each active address once, and no exit leaves the active set
empty. -/
structure NamedOnce (set : ValidatorSet) : Prop where
  order_nodup : set.order.Nodup
  mem_order : ∀ a, a ∈ set.order ↔ a ∈ set.validators
  activeCount_eq : set.activeCount = set.activeAddresses.card
  exit_keeps : ∀ a epoch set', set.beginExit a epoch = .ok set' → ∃ b, set'.isActive b = true

/-- The queue holds the waiting validators, each once and in order. -/
structure Queued (set : ValidatorSet) : Prop where
  mem_order : ∀ a, a ∈ set.order ↔ a ∈ set.validators
  queue_subset : ∀ a ∈ set.activationQueue, a ∈ set.order
  queue_eq : set.activationQueue.filter set.isPending = set.waiting
  waiting_nodup : set.waiting.Nodup

/-! ## Successful calls -/

section

variable {set set' : ValidatorSet} {a : Address} {epoch : Nat}
  {info info' : ValidatorInfo} {c : LifecycleCall} {s : ValidatorStatus}

theorem getInfo_ok_iff : set.getInfo a = .ok info ↔ set.validators.lookup a = some info := by
  unfold getInfo
  split <;> simp_all

theorem beginExit_ok (h : set.beginExit a epoch = .ok set') :
    1 < set.activeCount ∧ ∃ info, set.validators.lookup a = some info ∧ info.status = .active ∧
      set' = set.setInfo a { info with status := .exiting (saturatingAdd epoch set.config.exitCooldownEpochs) } := by
  simp only [beginExit, bind_ok_iff, ensure_ok_iff, pure_ok_iff, getInfo_ok_iff] at h
  obtain ⟨_, hcount, info, hinfo, _, hactive, rfl⟩ := h
  exact ⟨by simpa using hcount, info, hinfo, by simpa using hactive, rfl⟩

/-- What a call can do to the set: nothing, a new validator, another record of one validator, or the work of an epoch. -/
inductive Stepped (set : ValidatorSet) : LifecycleCall → ValidatorSet → Prop
  | same (c : LifecycleCall) : Stepped set c set
  | enqueue {a : Address} (fresh : a ∉ set.validators) : Stepped set (.enqueue a) { set with
      order := set.order ++ [a]
      validators := set.validators.insert a (.pending a)
      activationQueue := set.activationQueue ++ [a] }
  | record {c : LifecycleCall} {a : Address} {info info' : ValidatorInfo} (found : set.validators.lookup a = some info)
      (address : info'.address = info.address) (moves : info.status.Moves c info'.status) : Stepped set c (set.setInfo a info')
  | activations (epoch : Nat) : Stepped set (.processActivations epoch) (set.processActivations epoch)
  | exits (epoch : Nat) : Stepped set (.processExits epoch) (set.processExits epoch)

theorem stepped_step (set : ValidatorSet) (c : LifecycleCall) : set.Stepped c (lifecycleSystem.step set c) := by
  simp only [lifecycleSystem]
  cases hok : set.call c with
  | error e => exact .same c
  | ok set' =>
    change set.Stepped c set'
    cases c with
    | enqueue a =>
      simp only [call, ValidatorSet.enqueue, bind_ok_iff, ensure_ok_iff, pure_ok_iff] at hok
      obtain ⟨_, hnew, rfl⟩ := hok
      exact .enqueue (by simpa using hnew)
    | setWeight a weight =>
      simp only [call, setWeight, bind_ok_iff, pure_ok_iff, getInfo_ok_iff] at hok
      obtain ⟨info, hinfo, _, _, _, _, rfl⟩ := hok
      exact .record hinfo rfl (.same _ _)
    | processActivations epoch =>
      cases hok
      exact .activations epoch
    | processExits epoch =>
      cases hok
      exact .exits epoch
    | beginExit a epoch =>
      obtain ⟨_, info, hinfo, hactive, rfl⟩ := beginExit_ok hok
      refine .record hinfo rfl ?_
      rw [hactive]
      exact .leaving a epoch _
    | slash a epoch =>
      simp only [call, slash, bind_ok_iff, pure_ok_iff, getInfo_ok_iff] at hok
      obtain ⟨info, hinfo, rfl⟩ := hok
      exact .record hinfo rfl (.slashed _ a epoch)

/-! ## What a call does to the statuses -/

theorem statusIn_insert (validators : HashMap Address ValidatorInfo) (a b : Address) (info : ValidatorInfo) :
    statusIn (validators.insert a info) b = if b = a then some info.status else statusIn validators b := by
  unfold statusIn
  by_cases hb : b = a
  · subst hb
    simp
  · simp [hb, AList.lookup_insert_ne hb]

theorem statusOf_setInfo (set : ValidatorSet) (a b : Address) (info : ValidatorInfo) :
    (set.setInfo a info).statusOf b = if b = a then some info.status else set.statusOf b :=
  statusIn_insert set.validators a b info

theorem mem_setInfo (h : set.validators.lookup a = some info) (b : Address) :
    b ∈ (set.setInfo a info').validators ↔ b ∈ set.validators := by
  have ha : a ∈ set.validators := AList.lookup_isSome.mp (by rw [h]; rfl)
  rw [setInfo, AList.mem_insert, or_iff_right_of_imp]
  rintro rfl
  exact ha

theorem isActive_eq (set : ValidatorSet) (a : Address) : set.isActive a = decide (set.statusOf a = some .active) := by
  unfold isActive statusOf statusIn
  cases set.validators.lookup a <;> simp

theorem statusOf_processExits (set : ValidatorSet) (epoch : Nat) (a : Address) :
    (set.processExits epoch).statusOf a = (set.validators.lookup a).map fun info => (finishExit epoch info).status := by
  simp [statusOf, statusIn, processExits, AList.lookup_mapVal, Function.comp_def]

/-- The status of a record after the cooldown check. -/
theorem moves_finishExit (epoch : Nat) (info : ValidatorInfo) :
    info.status.Moves (.processExits epoch) (finishExit epoch info).status := by
  cases hs : info.status with
  | exiting exitEpoch =>
    by_cases hover : exitEpoch ≤ epoch
    · simpa [finishExit, hs, hover] using ValidatorStatus.Moves.left hover
    · simpa [finishExit, hs, hover] using ValidatorStatus.Moves.same _ _
  | _ => simpa [finishExit, hs] using ValidatorStatus.Moves.same _ _

/-! ## Activations -/

/-- The loop activates the first waiting entries of the queue, as many as the budget, and leaves the others in it. -/
theorem activateNext_spec (epoch : Nat) (queue : List Address) (budget : Nat) (validators : HashMap Address ValidatorInfo)
    (hnodup : (queue.filter (pendingIn validators)).Nodup) :
    (∀ a, statusIn (activateNext epoch queue budget validators).1 a =
      if a ∈ (queue.filter (pendingIn validators)).take budget then some .active else statusIn validators a) ∧
    (activateNext epoch queue budget validators).2.filter (pendingIn (activateNext epoch queue budget validators).1) =
      (queue.filter (pendingIn validators)).drop budget ∧
    ∀ a ∈ (activateNext epoch queue budget validators).2, a ∈ queue := by
  fun_induction activateNext epoch queue budget validators with
  | case1 | case2 => simp
  | case3 address queue budget validators info hlookup hpending ih =>
    have hstatus : statusIn validators address = some .pending := by simp [statusIn, hlookup, hpending]
    rw [filter_cons_of_pos (by simp [pendingIn, hstatus])] at hnodup ⊢
    obtain ⟨hfresh, hrest⟩ := nodup_cons.mp hnodup
    -- the activated address does not come again among the waiting entries
    have hsame : queue.filter (pendingIn (validators.insert address
        { info with status := .active, activationEpoch := some epoch })) = queue.filter (pendingIn validators) := by
      refine filter_congr fun b hb => ?_
      have hne : pendingIn validators b = true → b ≠ address := by
        rintro hb' rfl
        exact hfresh (mem_filter.mpr ⟨hb, hb'⟩)
      by_cases hba : b = address
      · subst hba
        simp [pendingIn, hstatus] at hne
      · simp [pendingIn, statusIn_insert, hba]
    rw [hsame] at ih
    obtain ⟨hafter, hqueue, hsub⟩ := ih hrest
    refine ⟨fun a => ?_, hqueue, fun a ha => mem_cons_of_mem _ (hsub a ha)⟩
    rw [hafter a, statusIn_insert, take_succ_cons]
    by_cases ha : a = address
    · subst ha
      simp
    · simp [ha]
  | case4 address queue budget validators info hlookup hpending ih =>
    have hstatus : pendingIn validators address = false := by simp [pendingIn, statusIn, hlookup, hpending]
    rw [filter_cons_of_neg (by simp [hstatus])] at hnodup ⊢
    obtain ⟨hafter, hqueue, hsub⟩ := ih hnodup
    exact ⟨hafter, hqueue, fun a ha => mem_cons_of_mem _ (hsub a ha)⟩
  | case5 address queue budget validators hlookup ih =>
    have hstatus : pendingIn validators address = false := by simp [pendingIn, statusIn, hlookup]
    rw [filter_cons_of_neg (by simp [hstatus])] at hnodup ⊢
    obtain ⟨hafter, hqueue, hsub⟩ := ih hnodup
    exact ⟨hafter, hqueue, fun a ha => mem_cons_of_mem _ (hsub a ha)⟩

/-- An epoch activates the first waiting validators, as many as the configuration allows. -/
theorem Queued.statusOf_processActivations (h : set.Queued) (epoch : Nat) (a : Address) :
    (set.processActivations epoch).statusOf a =
      if a ∈ set.waiting.take set.config.maxActivationsPerEpoch then some .active else set.statusOf a := by
  have hqueue : set.activationQueue.filter (pendingIn set.validators) = set.waiting := h.queue_eq
  have hspec := (activateNext_spec epoch set.activationQueue set.config.maxActivationsPerEpoch set.validators
    (hqueue ▸ h.waiting_nodup)).1 a
  rw [hqueue] at hspec
  exact hspec

theorem isPending_of_mem_waiting (h : a ∈ set.waiting) : set.isPending a = true :=
  (mem_filter.mp h).2

theorem isPending_iff : set.isPending a = true ↔ set.statusOf a = some .pending := by
  simp [isPending, pendingIn, statusOf]

theorem mem_validators_iff : a ∈ set.validators ↔ (set.statusOf a).isSome := by
  rw [statusOf, statusIn, Option.isSome_map, AList.lookup_isSome]

/-- A list without repetitions, less its first elements. -/
theorem filter_not_mem_take {l : List Address} (h : l.Nodup) (n : Nat) :
    l.filter (fun a => decide (a ∉ l.take n)) = l.drop n := by
  rw [← take_append_drop n l, nodup_append'] at h
  calc l.filter (fun a => decide (a ∉ l.take n))
      = (l.take n ++ l.drop n).filter (fun a => decide (a ∉ l.take n)) := by rw [take_append_drop]
    _ = (l.drop n).filter (fun a => decide (a ∉ l.take n)) := by
      rw [filter_append, filter_eq_nil_iff.mpr (by simp), nil_append]
    _ = l.drop n := by
      rw [filter_eq_self]
      intro a ha
      simpa using fun htake => h.2.2 htake ha

theorem Queued.waiting_processActivations (h : set.Queued) (epoch : Nat) :
    (set.processActivations epoch).waiting = set.waiting.drop set.config.maxActivationsPerEpoch := by
  rw [← filter_not_mem_take h.waiting_nodup, waiting, waiting, filter_filter]
  refine filter_congr fun a _ => ?_
  change _ = (decide (a ∉ set.waiting.take _) && set.isPending a)
  rw [Bool.eq_iff_iff, Bool.and_eq_true, isPending_iff, isPending_iff, h.statusOf_processActivations, decide_eq_true_iff]
  split <;> simp_all

/-! ## The queue in every run -/

/-- A change that adds no waiting validator, and leaves the order and the queue as they are, keeps the queue in line. -/
theorem Queued.of_pending_le (h : set.Queued) (horder : set'.order = set.order)
    (hqueue : set'.activationQueue = set.activationQueue) (hmem : ∀ b, b ∈ set'.validators ↔ b ∈ set.validators)
    (hle : ∀ b, set'.isPending b = true → set.isPending b = true) : set'.Queued := by
  -- what still waits is filtered from what waited before
  have hfilter : ∀ l : List Address, l.filter set'.isPending = (l.filter set.isPending).filter set'.isPending := by
    intro l
    rw [filter_filter]
    refine filter_congr fun b _ => ?_
    cases hb : set'.isPending b with
    | false => rfl
    | true => simp [hle b hb]
  have hwaiting : set'.waiting = set.waiting.filter set'.isPending := by
    rw [waiting, horder]
    exact hfilter set.order
  refine ⟨fun b => ?_, fun b hb => ?_, ?_, ?_⟩
  · rw [horder, hmem]
    exact h.mem_order b
  · rw [horder]
    rw [hqueue] at hb
    exact h.queue_subset b hb
  · rw [hqueue, hfilter, h.queue_eq, hwaiting]
  · rw [hwaiting]
    exact h.waiting_nodup.filter _

/-- No call makes a validator wait that did not wait before. -/
theorem pending_of_moves {s' : ValidatorStatus} (h : s.Moves c s') (hs : s' = .pending) : s = .pending := by
  subst hs
  cases h
  rfl

theorem Queued.setInfo (h : set.Queued) (hinfo : set.validators.lookup a = some info)
    (hmoves : info.status.Moves c info'.status) : (set.setInfo a info').Queued := by
  refine h.of_pending_le rfl rfl (mem_setInfo hinfo) fun b hb => ?_
  rw [isPending_iff, statusOf_setInfo] at hb
  rw [isPending_iff]
  by_cases hba : b = a
  · subst hba
    rw [if_pos rfl] at hb
    rw [statusOf, statusIn, hinfo, Option.map_some, pending_of_moves hmoves (Option.some.inj hb)]
  · rwa [if_neg hba] at hb

theorem Queued.enqueue (h : set.Queued) (hnew : a ∉ set.validators) : Queued { set with
    order := set.order ++ [a]
    validators := set.validators.insert a (.pending a)
    activationQueue := set.activationQueue ++ [a] } := by
  have horder : a ∉ set.order := fun hmem => hnew ((h.mem_order a).mp hmem)
  have hpending : ∀ b, pendingIn (set.validators.insert a (.pending a)) b = (decide (b = a) || set.isPending b) := by
    intro b
    by_cases hb : b = a
    · subst hb
      simp [pendingIn, statusIn_insert, ValidatorInfo.pending]
    · simp [pendingIn, statusIn_insert, hb, isPending]
  have hfilter : ∀ l : List Address, a ∉ l →
      (l ++ [a]).filter (pendingIn (set.validators.insert a (.pending a))) = l.filter set.isPending ++ [a] := by
    intro l hl
    rw [filter_append]
    congr 1
    · refine filter_congr fun b hb => ?_
      have hba : b ≠ a := fun heq => hl (heq ▸ hb)
      simp [hpending, hba]
    · simp [hpending]
  have hqueue : a ∉ set.activationQueue := fun hmem => horder (h.queue_subset a hmem)
  refine ⟨fun b => ?_, fun b hb => ?_, ?_, ?_⟩
  · rw [mem_append, mem_singleton, h.mem_order, AList.mem_insert, or_comm]
  · rcases mem_append.mp hb with hb | hb
    · exact mem_append_left _ (h.queue_subset b hb)
    · exact mem_append_right _ hb
  · exact (hfilter _ hqueue).trans ((congrArg (· ++ [a]) h.queue_eq).trans (hfilter _ horder).symm)
  · refine (congrArg List.Nodup (hfilter _ horder)).mpr (h.waiting_nodup.append (nodup_singleton a) ?_)
    rw [disjoint_singleton]
    exact fun hmem => horder (mem_filter.mp hmem).1

theorem Queued.processActivations (h : set.Queued) (epoch : Nat) : (set.processActivations epoch).Queued := by
  have hqueue : set.activationQueue.filter (pendingIn set.validators) = set.waiting := h.queue_eq
  obtain ⟨-, hrest, hsub⟩ := activateNext_spec epoch set.activationQueue set.config.maxActivationsPerEpoch set.validators
    (hqueue ▸ h.waiting_nodup)
  refine ⟨fun b => ?_, fun b hb => h.queue_subset b (hsub b hb), ?_, ?_⟩
  · rw [mem_validators_iff, h.statusOf_processActivations]
    change b ∈ set.order ↔ _
    rw [h.mem_order, mem_validators_iff]
    split
    · next htake =>
      have hpending := isPending_iff.mp (isPending_of_mem_waiting (mem_of_mem_take htake))
      simp [hpending]
    · exact Iff.rfl
  · rw [h.waiting_processActivations, ← hqueue]
    exact hrest
  · rw [h.waiting_processActivations]
    exact h.waiting_nodup.sublist (drop_sublist _ _)

theorem Queued.processExits (h : set.Queued) (epoch : Nat) : (set.processExits epoch).Queued := by
  refine h.of_pending_le rfl rfl (fun b => ?_) fun b hb => ?_
  · rw [mem_validators_iff, statusOf_processExits, Option.isSome_map, AList.lookup_isSome]
  · rw [isPending_iff, statusOf_processExits, Option.map_eq_some_iff] at hb
    obtain ⟨info, hinfo, hstatus⟩ := hb
    rw [isPending_iff, statusOf, statusIn, hinfo, Option.map_some, pending_of_moves (moves_finishExit epoch info) hstatus]

theorem Stepped.queued (hstep : set.Stepped c set') (h : set.Queued) : set'.Queued := by
  cases hstep with
  | same => exact h
  | enqueue fresh => exact h.enqueue fresh
  | record found _ moves => exact h.setInfo found moves
  | activations epoch => exact h.processActivations epoch
  | exits epoch => exact h.processExits epoch

/-! ## Genesis -/

section

variable (entries : List (Address × Nat)) (config : ValidatorSetConfig)

theorem activationQueue_fromGenesis : (fromGenesis entries config).activationQueue = [] := by
  induction entries using reverseRecOn with
  | nil => rfl
  | append_singleton entries entry ih => simp [fromGenesis_concat, addGenesis, ih]

theorem statusOf_fromGenesis (b : Address) :
    (fromGenesis entries config).statusOf b = if b ∈ entries.map Prod.fst then some .active else none := by
  rw [statusOf, statusIn, lookup_fromGenesis, Option.map_map]
  split
  · next hb =>
    obtain ⟨entry, hentry, rfl⟩ := mem_map.mp hb
    cases hfound : entries.reverse.find? fun e => e.1 = entry.1 with
    | none => simpa using find?_eq_none.mp hfound entry (mem_reverse.mpr hentry)
    | some found => rfl
  · next hb =>
    rw [find?_eq_none.mpr fun entry hentry => ?_]
    · rfl
    · simp only [decide_eq_true_eq]
      rintro rfl
      exact hb (mem_map_of_mem (mem_reverse.mp hentry))

theorem queued_fromGenesis : (fromGenesis entries config).Queued := by
  have hnone : ∀ l : List Address, l.filter (fromGenesis entries config).isPending = [] := by
    intro l
    simp only [filter_eq_nil_iff, isPending_iff, statusOf_fromGenesis]
    intro b _
    split <;> simp
  refine ⟨fun b => ?_, ?_, ?_, ?_⟩
  · rw [order_fromGenesis, mem_validators_iff, statusOf_fromGenesis]
    split <;> simp_all
  · simp [activationQueue_fromGenesis]
  · rw [hnone, waiting, hnone]
  · rw [waiting, hnone]
    exact nodup_nil

end

/-! ## Distinct addresses -/

/-- The order only grows, and by addresses that it does not name. -/
theorem Stepped.order (hstep : set.Stepped c set') (h : set.Queued) :
    set'.order = set.order ∨ ∃ b, b ∉ set.order ∧ set'.order = set.order ++ [b] := by
  cases hstep with
  | enqueue fresh => exact .inr ⟨_, fun hmem => fresh ((h.mem_order _).mp hmem), rfl⟩
  | _ => exact .inl rfl

theorem activeCount_eq_length (set : ValidatorSet) : set.activeCount = (set.order.filter set.isActive).length := by
  rw [activeCount, activeValidators]
  induction set.order with
  | nil => rfl
  | cons b rest ih =>
    cases hb : set.validators.lookup b with
    | none =>
      rw [filter_cons_of_neg (by simp [isActive, hb]), ← ih]
      simp only [filterMap_cons, hb]
    | some info =>
      simp only [filterMap_cons, hb]
      by_cases hactive : info.status = .active
      · rw [filter_cons_of_pos (by simp [hactive]), filter_cons_of_pos (by simp [isActive, hb, hactive]),
          length_cons, length_cons, ih]
      · rw [filter_cons_of_neg (by simp [hactive]), filter_cons_of_neg (by simp [isActive, hb, hactive]), ih]

theorem activeCount_eq_card (h : set.Queued) (hnodup : set.order.Nodup) : set.activeCount = set.activeAddresses.card := by
  rw [activeCount_eq_length, ← toFinset_card_of_nodup (hnodup.filter _)]
  congr 1
  ext b
  simp only [activeAddresses, mem_toFinset, Finset.mem_filter, mem_filter, h.mem_order, AList.mem_keys]

/-- With distinct addresses, another validator stays active when one leaves. -/
theorem NamedOnce.of_nodup (h : set.Queued) (hnodup : set.order.Nodup) : set.NamedOnce := by
  refine ⟨hnodup, h.mem_order, activeCount_eq_card h hnodup, fun a epoch set' hok => ?_⟩
  obtain ⟨hcount, info, -, -, rfl⟩ := beginExit_ok hok
  rw [activeCount_eq_card h hnodup] at hcount
  obtain ⟨b, hb, hne⟩ := Finset.exists_mem_ne hcount a
  refine ⟨b, ?_⟩
  have hactive := (Finset.mem_filter.mp hb).2
  rw [isActive_eq] at hactive ⊢
  rwa [statusOf_setInfo, if_neg hne]

/-! ## Statuses -/

/-- A call moves the status of a validator forward, or leaves it. -/
theorem Stepped.moves (hstep : set.Stepped c set') (h : set.Queued) (hs : set.statusOf a = some s) :
    ∃ s', set'.statusOf a = some s' ∧ s.Moves c s' := by
  cases hstep with
  | same => exact ⟨s, hs, .same s c⟩
  | @enqueue b fresh =>
    have hab : a ≠ b := by
      rintro rfl
      exact fresh (mem_validators_iff.mpr (by rw [hs]; rfl))
    refine ⟨s, ?_, .same s _⟩
    rw [statusOf, statusIn_insert, if_neg hab]
    exact hs
  | @record _ b info info' found _ moves =>
    rw [statusOf_setInfo]
    by_cases hab : a = b
    · subst hab
      rw [statusOf, statusIn, found, Option.map_some] at hs
      obtain rfl := Option.some.inj hs
      exact ⟨info'.status, if_pos rfl, moves⟩
    · exact ⟨s, by rw [if_neg hab, hs], .same s c⟩
  | activations epoch =>
    rw [h.statusOf_processActivations]
    by_cases htake : a ∈ set.waiting.take set.config.maxActivationsPerEpoch
    · rw [isPending_iff.mp (isPending_of_mem_waiting (mem_of_mem_take htake))] at hs
      obtain rfl := Option.some.inj hs
      exact ⟨.active, if_pos htake, .activated epoch⟩
    · exact ⟨s, by rw [if_neg htake, hs], .same s _⟩
  | exits epoch =>
    rw [statusOf_processExits]
    rw [statusOf, statusIn, Option.map_eq_some_iff] at hs
    obtain ⟨info, hinfo, rfl⟩ := hs
    exact ⟨_, by rw [hinfo, Option.map_some], moves_finishExit epoch info⟩

/-! ## Every run -/

/-- The set after calls from genesis. -/
def after (entries : List (Address × Nat)) (config : ValidatorSetConfig) (calls : List LifecycleCall) : ValidatorSet :=
  lifecycleSystem.run (fromGenesis entries config) calls

section

variable (entries : List (Address × Nat)) (config : ValidatorSetConfig) (calls : List LifecycleCall)

theorem after_concat (c : LifecycleCall) :
    after entries config (calls ++ [c]) = lifecycleSystem.step (after entries config calls) c := by
  simp [after]

theorem queued_after : (after entries config calls).Queued :=
  TransitionSystem.invariant_run_of_step (fun set c h => (stepped_step set c).queued h) (queued_fromGenesis entries config) calls

theorem nodup_after (hentries : (entries.map Prod.fst).Nodup) : (after entries config calls).order.Nodup := by
  induction calls using reverseRecOn with
  | nil =>
    rw [after, TransitionSystem.run_nil, order_fromGenesis]
    exact hentries
  | append_singleton calls c ih =>
    rw [after_concat]
    rcases (stepped_step _ c).order (queued_after entries config calls) with hsame | ⟨b, hb, hmore⟩
    · rwa [hsame]
    · rw [hmore]
      exact ih.append (nodup_singleton b) (disjoint_singleton.mpr hb)

end

theorem Keyed.setInfo (h : set.Keyed) (hinfo : info.address = a) : (set.setInfo a info).Keyed := by
  intro b info' hb
  rcases AList.lookup_insert_eq_some.mp hb with ⟨rfl, rfl⟩ | ⟨-, hb⟩
  · exact hinfo
  · exact h b info' hb

/-- The loop of an epoch changes no address. -/
theorem address_activateNext (epoch : Nat) (queue : List Address) (budget : Nat) (validators : HashMap Address ValidatorInfo)
    (h : ∀ a info, validators.lookup a = some info → info.address = a) :
    ∀ a info, (activateNext epoch queue budget validators).1.lookup a = some info → info.address = a := by
  fun_induction activateNext epoch queue budget validators with
  | case1 | case2 => exact h
  | case3 address queue budget validators info hlookup hpending ih =>
    refine ih fun a info' ha => ?_
    rcases AList.lookup_insert_eq_some.mp ha with ⟨rfl, rfl⟩ | ⟨-, ha⟩
    · exact h a info hlookup
    · exact h a info' ha
  | case4 address queue budget validators info hlookup hpending ih => exact ih h
  | case5 address queue budget validators hlookup ih => exact ih h

theorem Stepped.keyed (hstep : set.Stepped c set') (h : set.Keyed) : set'.Keyed := by
  cases hstep with
  | same => exact h
  | @enqueue a fresh =>
    have hkey : (ValidatorInfo.pending a).address = a := rfl
    exact h.setInfo hkey
  | record found address _ => exact h.setInfo (address.trans (h _ _ found))
  | activations epoch => exact address_activateNext epoch _ _ _ h
  | exits epoch =>
    intro a info hinfo
    rw [processExits, AList.lookup_mapVal, Option.map_eq_some_iff] at hinfo
    obtain ⟨old, hold, rfl⟩ := hinfo
    rw [← h a old hold, finishExit]
    split
    · split <;> rfl
    · rfl

/-- In every run, the order names each validator once, the active count is the number of active addresses and no exit leaves
the active set empty, exactly if the genesis entries have distinct addresses. In every run from any entries, each waiting
validator is in the queue once, an epoch activates the first waiting ones in the order of their arrival and at most as many as
configured, and every status moves forward, out of its cooldown only when that is over. -/
theorem lifecycle_of_distinct_genesis (entries : List (Address × Nat)) (config : ValidatorSetConfig) :
    ((∀ calls, (after entries config calls).NamedOnce) ↔ (entries.map Prod.fst).Nodup) ∧
    ∀ calls,
      (∀ a, (after entries config calls).isPending a = true → (after entries config calls).activationQueue.count a = 1) ∧
      (∀ epoch a, ((after entries config calls).processActivations epoch).statusOf a =
        if a ∈ (after entries config calls).waiting.take (after entries config calls).config.maxActivationsPerEpoch then
          some .active
        else (after entries config calls).statusOf a) ∧
      ∀ c, (after entries config calls).order <+: (after entries config (calls ++ [c])).order ∧
        ∀ a s, (after entries config calls).statusOf a = some s →
          ∃ s', (after entries config (calls ++ [c])).statusOf a = some s' ∧ s.Moves c s' := by
  refine ⟨⟨fun h => ?_, fun hentries calls => ?_⟩, fun calls => ⟨fun a ha => ?_, fun epoch a => ?_, fun c => ?_⟩⟩
  · have hstart := (h []).order_nodup
    rwa [after, TransitionSystem.run_nil, order_fromGenesis] at hstart
  · exact .of_nodup (queued_after entries config calls) (nodup_after entries config calls hentries)
  · have h := queued_after entries config calls
    have hmem : a ∈ (after entries config calls).waiting := by
      refine List.mem_filter.mpr ⟨(h.mem_order a).mpr (mem_validators_iff.mpr ?_), ha⟩
      rw [isPending_iff.mp ha]
      rfl
    rw [← List.count_filter ha, h.queue_eq]
    exact List.count_eq_one_of_mem h.waiting_nodup hmem
  · exact (queued_after entries config calls).statusOf_processActivations epoch a
  · have h := queued_after entries config calls
    rw [after_concat]
    refine ⟨?_, fun a s hs => (stepped_step _ c).moves h hs⟩
    rcases (stepped_step _ c).order h with hsame | ⟨b, -, hmore⟩
    · rw [hsame]
    · rw [hmore]
      exact List.prefix_append _ _

end

/-! ## An address that genesis names twice -/

namespace RepeatedGenesis

/-- Genesis names one validator twice. -/
def twice : ValidatorSet :=
  fromGenesis [(.repeatByte 1, 1), (.repeatByte 1, 1)] {}

theorem last_validator_leaves :
    twice.order = [.repeatByte 1, .repeatByte 1] ∧ twice.activeCount = 2 ∧ twice.activeAddresses.card = 1 ∧
      (twice.beginExit (.repeatByte 1) 0).toOption.map activeCount = some 0 := by
  decide +kernel

end RepeatedGenesis

end ValidatorSet

end ShellChain
