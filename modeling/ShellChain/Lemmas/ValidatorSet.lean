import ShellChain.Lib.WeightedRotation
import ShellChain.ValidatorSet

/-!
# Facts about the validator set

The proposer of a height is the member that the weighted rotation picks, and the active validators are those whose record
says so.
-/

namespace ShellChain

open WeightedRotation

namespace ValidatorSet

/-! ## The proposer of a height -/

/-- The addresses of a list of validators with their weights. -/
def members (active : List ValidatorInfo) : List (Address × Nat) :=
  active.map fun v => (v.address, v.weight)

def activeWeight (set : ValidatorSet) : Nat :=
  total (members set.activeValidators)

theorem members_cons (v : ValidatorInfo) (rest : List ValidatorInfo) :
    members (v :: rest) = (v.address, v.weight) :: members rest := rfl

theorem foldlM_checkedAdd (active : List ValidatorInfo) (start : Nat) (hstart : start ≤ u64Max) :
    active.foldlM (fun sum v => checkedAdd sum v.weight) start =
      if start + total (members active) ≤ u64Max then some (start + total (members active)) else none := by
  induction active generalizing start with
  | nil => simp [members, hstart]
  | cons v rest ih =>
    rw [List.foldlM_cons, members_cons, total_cons, ← Nat.add_assoc, checkedAdd]
    by_cases hfits : start + v.weight ≤ u64Max
    · rw [if_pos hfits, Option.bind_eq_bind, Option.bind_some, ih _ hfits]
    · rw [if_neg hfits, if_neg (by omega)]
      rfl

/-- A walk that does not overflow picks the member of the slot. -/
theorem walkSlots_eq_pick {active : List ValidatorInfo} {slot cumulative : Nat} {last : Option Address}
    (hfits : cumulative + total (members active) ≤ u64Max) (hlow : cumulative ≤ slot)
    (hhigh : slot < cumulative + total (members active)) :
    walkSlots slot active cumulative last = pick (members active) (slot - cumulative) := by
  induction active generalizing cumulative last with
  | nil => exact absurd hhigh (by simpa [members] using hlow)
  | cons v rest ih =>
    rw [members_cons, total_cons] at hfits hhigh
    have hadd : checkedAdd cumulative v.weight = some (cumulative + v.weight) := if_pos (by omega)
    rw [walkSlots, hadd, members_cons, pick]
    simp only [Option.bind_eq_bind, Option.bind_some]
    by_cases hslot : slot < cumulative + v.weight
    · rw [if_pos hslot, if_pos (by omega)]
    · rw [if_neg hslot, if_neg (by omega), ih (by omega) (by omega) (by omega), Nat.sub_sub]

/-- The proposer of a height, when some weight is active and the sum is within the word size. -/
theorem weightedProposer_eq_pick {set : ValidatorSet} (hpos : 0 < set.activeWeight) (hfits : set.activeWeight ≤ u64Max)
    (blockNumber : Nat) :
    set.weightedProposer blockNumber = pick (members set.activeValidators) (blockNumber % set.activeWeight) := by
  have htotal : totalWeight set.activeValidators = some set.activeWeight := by
    rw [totalWeight, foldlM_checkedAdd _ 0 (Nat.zero_le _), Nat.zero_add]
    exact if_pos hfits
  rw [weightedProposer, htotal]
  simp only [Option.bind_eq_bind, Option.bind_some]
  rw [if_neg (Nat.pos_iff_ne_zero.mp hpos)]
  have hlt : blockNumber % set.activeWeight < 0 + total (members set.activeValidators) := by
    rw [Nat.zero_add]
    exact Nat.mod_lt _ hpos
  rw [walkSlots_eq_pick (by rw [Nat.zero_add]; exact hfits) (Nat.zero_le _) hlt, Nat.sub_zero]

/-! ## Records and addresses -/

/-- Every record is filed under the address it carries. -/
def Keyed (set : ValidatorSet) : Prop :=
  ∀ a info, set.validators.lookup a = some info → info.address = a

/-- The record that genesis makes of an entry. -/
def genesisInfo (entry : Address × Nat) : ValidatorInfo :=
  { ValidatorInfo.new entry.1 with weight := clampWeight entry.2, activationEpoch := some 0 }

section

variable (entries : List (Address × Nat)) (config : ValidatorSetConfig)

theorem fromGenesis_concat (entry : Address × Nat) :
    fromGenesis (entries ++ [entry]) config = (fromGenesis entries config).addGenesis entry := by
  simp [fromGenesis]

/-- Genesis keeps the last entry of an address. -/
theorem lookup_fromGenesis (a : Address) : (fromGenesis entries config).validators.lookup a =
      (entries.reverse.find? fun entry => entry.1 = a).map genesisInfo := by
  induction entries using List.reverseRecOn with
  | nil => rfl
  | append_singleton entries entry ih =>
    rw [fromGenesis_concat, List.reverse_concat, addGenesis]
    by_cases ha : entry.1 = a
    · subst ha
      rw [AList.lookup_insert, List.find?_cons_of_pos (by simp)]
      rfl
    · rw [AList.lookup_insert_ne (Ne.symm ha), List.find?_cons_of_neg (by simpa using ha)]
      exact ih

theorem order_fromGenesis : (fromGenesis entries config).order = entries.map Prod.fst := by
  induction entries using List.reverseRecOn with
  | nil => rfl
  | append_singleton entries entry ih => simp [fromGenesis_concat, addGenesis, ih]

theorem keyed_fromGenesis : (fromGenesis entries config).Keyed := by
  intro a info h
  rw [lookup_fromGenesis, Option.map_eq_some_iff] at h
  obtain ⟨entry, hentry, rfl⟩ := h
  have heq : entry.1 = a := by simpa using List.find?_some hentry
  exact heq

end

theorem Keyed.mem_activeValidators {set : ValidatorSet} (h : set.Keyed) (a : Address) :
    a ∈ set.activeValidators.map ValidatorInfo.address ↔ a ∈ set.order ∧ set.isActive a = true := by
  simp only [activeValidators, List.mem_map, List.mem_filter, List.mem_filterMap, isActive]
  constructor
  · rintro ⟨info, ⟨⟨b, hb, hinfo⟩, hactive⟩, rfl⟩
    rw [h b info hinfo, hinfo]
    exact ⟨hb, hactive⟩
  · rintro ⟨horder, hactive⟩
    cases hinfo : set.validators.lookup a with
    | none => simp [hinfo] at hactive
    | some info =>
      rw [hinfo] at hactive
      exact ⟨info, ⟨⟨a, horder, hinfo⟩, hactive⟩, h a info hinfo⟩

end ValidatorSet

end ShellChain
