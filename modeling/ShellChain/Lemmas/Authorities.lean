import ShellChain.Authorities
import ShellChain.Lemmas.RetentionRuns

/-!
# The authority set along runs

A block on top of the head reloads the authorities exactly when the reload height moves to it. So the set stays that of the
registry at the reload height as long as no adoption and no recovery moves the reload height or replaces the block there.
-/

namespace ShellChain

open RetainingNode List AuthorityRules

variable {σ ρ : Type} {M : Machine σ ρ} {A : AuthorityRules σ} {a b : AuthorityNode σ ρ}

/-! ## Reload heights -/

theorem authorityReloadHeight_le (number epochLength : Nat) : authorityReloadHeight number epochLength ≤ number := by
  unfold authorityReloadHeight
  split_ifs
  · exact le_rfl
  · exact Nat.sub_le ..

variable {epochLength number trie now : Nat} {block : Block} {r : RetainingNode σ ρ} {world : σ}
  {configured : AuthoritySet}

theorem authorityReloadHeight_eq_mul (h : epochLength ≠ 0) (number : Nat) :
    authorityReloadHeight number epochLength = epochLength * (number / epochLength) := by
  have hdiv := Nat.mod_add_div number epochLength
  rw [authorityReloadHeight, if_neg h]
  omega

/-- A block at which the authorities are reloaded is its own reload height. -/
theorem authorityReloadHeight_of_boundary (h : epochLength = 0 ∨ number % epochLength = 0) :
    authorityReloadHeight number epochLength = number := by
  unfold authorityReloadHeight
  split_ifs with hzero
  · rfl
  · rw [h.resolve_left hzero, Nat.sub_zero]

/-- Any other block has the reload height of its parent. -/
theorem authorityReloadHeight_succ (h : ¬ (epochLength = 0 ∨ (number + 1) % epochLength = 0)) :
    authorityReloadHeight (number + 1) epochLength = authorityReloadHeight number epochLength := by
  rw [not_or] at h
  rw [authorityReloadHeight_eq_mul h.1, authorityReloadHeight_eq_mul h.1,
    Nat.succ_div_of_not_dvd (fun hdvd => h.2 (Nat.mod_eq_zero_of_dvd hdvd))]

/-- The reload height of a block is that of every block between the two. -/
theorem authorityReloadHeight_of_between {low high : Nat} (hle : low ≤ high)
    (h : authorityReloadHeight high epochLength ≤ low) :
    authorityReloadHeight low epochLength = authorityReloadHeight high epochLength := by
  by_cases hzero : epochLength = 0
  · simp only [authorityReloadHeight, if_pos hzero] at h ⊢
    omega
  · rw [authorityReloadHeight_eq_mul hzero] at h
    rw [authorityReloadHeight_eq_mul hzero, authorityReloadHeight_eq_mul hzero]
    have hupper := Nat.div_le_div_right (c := epochLength) hle
    have hlower := Nat.div_le_div_right (c := epochLength) h
    rw [Nat.mul_div_cancel_left _ (Nat.pos_of_ne_zero hzero)] at hlower
    rw [le_antisymm hupper hlower]

/-! ## The layer below -/

/-- The authority set is added to what the node does and changes nothing there. -/
theorem base_step (A : AuthorityRules σ) (M : Machine σ ρ) (sign : Bytes → PQSignature) (pubkey : Bytes)
    (a : AuthorityNode σ ρ) (input : NodeInput) :
    ((authoritySystem A M sign pubkey).step a input).base = (retentionSystem M sign pubkey).step a.base input := by
  cases input with
  | produce timestamp maxTxs candidates pending trie =>
    simp only [authoritySystem, retentionSystem, AuthorityNode.produce, RetainingNode.produce]
    rcases produceSettlingBlock M sign pubkey a.base.node timestamp maxTxs candidates pending with _ | ⟨next, block⟩
    · rfl
    · rfl
  | importBlock now block finalizedImport trie =>
    simp only [authoritySystem, retentionSystem, AuthorityNode.importBlock]
    split
    · rename_i hnext hclass
      simp only [RetainingNode.importBlock, hnext, hclass]
      rfl
    · rfl
  | adoptFork now trie =>
    simp only [authoritySystem, retentionSystem, AuthorityNode.adoptFork, RetainingNode.adoptFork]
    cases hplan : preferredForkPlan M.toCtx a.base.node with
    | error e => rfl
    | ok plan? =>
      cases plan? with
      | none => rfl
      | some plan =>
        simp only
        cases adoptPreferredFork M now a.base.node plan with
        | error e => rfl
        | ok next => cases plan.oldChain.mapM (Block.revertedStarkSettlements M) <;> rfl
  | recover restored => rfl
  | consensus engine forkChoice finality finalizedNumber => rfl

/-! ## The invariant -/

/-- The active authorities are those of the registry in the state of the canonical block at the reload height, unless that
registry is empty. -/
structure FollowsRegistry (A : AuthorityRules σ) (M : Machine σ ρ) (a : AuthorityNode σ ρ) : Prop where
  tracks : Tracks M.toCtx a.base
  length : a.posts.length = a.base.chain.length
  registry : ∃ world block, a.posts[authorityReloadHeight a.base.node.head.number A.epochLength]? = some (some world) ∧
    a.base.chain[authorityReloadHeight a.base.node.head.number A.epochLength]? = some block ∧
    M.stateRoot world = block.header.stateRoot ∧ (M.validators world ≠ [] → a.active = A.registrySet M world)

/-- The reload height of the head stays where it is when branches are switched or the head is recovered: neither the
reverted nor the new blocks reload the authorities. -/
def KeepsBoundary (A : AuthorityRules σ) (M : Machine σ ρ) (a : AuthorityNode σ ρ) : NodeInput → Prop
  | .adoptFork _ _ => ∀ plan ∈ (preferredForkPlan M.toCtx a.base.node).toOption.getD none,
      authorityReloadHeight a.base.node.head.number A.epochLength ≤ plan.ancestorNumber ∧
        authorityReloadHeight plan.preferredNumber A.epochLength ≤ plan.ancestorNumber
  | .recover _ => ∀ finalized ∈ a.base.node.finalizedNumber,
      authorityReloadHeight a.base.node.head.number A.epochLength ≤ finalized
  | _ => True

instance decidableKeepsBoundary (A : AuthorityRules σ) (M : Machine σ ρ) (a : AuthorityNode σ ρ) (input : NodeInput) :
    Decidable (KeepsBoundary A M a input) := by
  cases input <;> unfold KeepsBoundary <;> infer_instance

section

variable (h : FollowsRegistry A M a)

include h

/-- The chain may change above a height to which the reload heights of both heads do not reach. -/
theorem FollowsRegistry.of_take (htracks : Tracks M.toCtx b.base) (hlength : b.posts.length = b.base.chain.length)
    (hactive : b.active = a.active) {height : Nat} (hposts : b.posts.take (height + 1) = a.posts.take (height + 1))
    (hchain : b.base.chain.take (height + 1) = a.base.chain.take (height + 1))
    (hreload : authorityReloadHeight b.base.node.head.number A.epochLength =
      authorityReloadHeight a.base.node.head.number A.epochLength)
    (hle : authorityReloadHeight a.base.node.head.number A.epochLength ≤ height) : FollowsRegistry A M b := by
  obtain ⟨world, block, hworld, hblock, hroot, hset⟩ := h.registry
  have hlt := Nat.lt_succ_of_le hle
  refine ⟨htracks, hlength, world, block, ?_, ?_, hroot, fun hne => hactive.trans (hset hne)⟩
  · rw [hreload, ← getElem?_take_of_lt hlt, hposts, getElem?_take_of_lt hlt, hworld]
  · rw [hreload, ← getElem?_take_of_lt hlt, hchain, getElem?_take_of_lt hlt, hblock]

/-- A block on top of the head moves the reload height to itself and reloads, or does neither. -/
theorem FollowsRegistry.extend {next : ChainNode σ ρ} (hnext : CommittedNext M a.base.node next block)
    (htracks : Tracks M.toCtx (a.extend A M next block trie).base) :
    FollowsRegistry A M (a.extend A M next block trie) := by
  have hnumber := hnext.number
  have hroot := hnext.stateRoot
  have hchain : (a.extend A M next block trie).base.chain = a.base.chain ++ [block] := chain_extend ..
  have hlength := h.tracks.length
  have hposts := h.length
  have hhead : (a.extend A M next block trie).base.node.head.number = block.number := by
    have hnew := htracks.length
    rw [hchain, length_append, hlength, length_singleton] at hnew
    omega
  have hstored : next.worldAt block.header.stateRoot = some next.state.world := by
    obtain ⟨authorities, processed, rfl⟩ := hnext.next_eq
    exact Function.update_self ..
  refine ⟨htracks, ?_, ?_⟩
  · rw [hchain, length_append, ← hposts, AuthorityNode.extend, length_append]
    rfl
  · rw [hhead, hchain]
    simp only [AuthorityNode.extend, reloadAuthoritiesIfBoundary, hstored]
    by_cases hboundary : A.epochLength = 0 ∨ block.number % A.epochLength = 0
    · rw [authorityReloadHeight_of_boundary hboundary]
      refine ⟨next.state.world, block, ?_, ?_, hroot, fun hne => ?_⟩
      · rw [getElem?_append_right (by omega), hposts, hlength, hnumber, Nat.sub_self]
        rfl
      · rw [getElem?_append_right (by omega), hlength, hnumber, Nat.sub_self]
        rfl
      · rw [if_neg (not_not_intro hboundary), if_neg hne]
    · rw [if_pos hboundary, hnumber, authorityReloadHeight_succ (hnumber ▸ hboundary)]
      obtain ⟨world, boundary, hworld, hblock, hroot, hset⟩ := h.registry
      have hle := authorityReloadHeight_le a.base.node.head.number A.epochLength
      refine ⟨world, boundary, ?_, ?_, hroot, hset⟩
      · rw [getElem?_append_left (by omega), hworld]
      · rw [getElem?_append_left (by omega), hblock]

theorem FollowsRegistry.adoptFork (hkeeps : KeepsBoundary A M a (.adoptFork now trie))
    (htracks : Tracks M.toCtx (a.adoptFork M now trie).base) : FollowsRegistry A M (a.adoptFork M now trie) := by
  have hlength := h.tracks.length
  have hposts := h.length
  unfold AuthorityNode.adoptFork at htracks ⊢
  split at htracks
  · rename_i plan hplan
    split at htracks
    · rename_i next reverted hadopt hreverted
      have hfacts := planFacts_of_preferredForkPlan hplan
      have hnext := adoptedFork_of_ok hfacts hadopt
      obtain ⟨hold, hnew⟩ := hkeeps plan (by rw [hplan]; rfl)
      have hhead : (a.base.switchBranch M next plan reverted trie).node.head.number = plan.preferredNumber := by
        rw [(prunes_switchBranch ..).head, stagedSwitch_eq]
        exact hnext.head
      have hancestor := hfacts.ancestor_le
      have hpreferred := hfacts.preferred
      refine h.of_take htracks ?_ rfl ?_ ?_ ?_ hold
      · rw [(prunes_switchBranch ..).chain, stagedSwitch_eq, length_append, length_append, length_map,
          length_take, length_take, hposts]
      · exact take_left' (by rw [length_take]; omega)
      · rw [(prunes_switchBranch ..).chain, stagedSwitch_eq]
        exact take_left' (by rw [length_take]; omega)
      · rw [hhead, ← authorityReloadHeight_of_between (by omega) hnew, authorityReloadHeight_of_between hancestor hold]
    · exact h
  · exact h

theorem FollowsRegistry.recover {restored : ForkChoice} (hkeeps : KeepsBoundary A M a (.recover restored))
    (htracks : Tracks M.toCtx (a.recover M restored).base) : FollowsRegistry A M (a.recover M restored) := by
  have hlength := h.tracks.length
  have hposts := h.length
  simp only [AuthorityNode.recover] at htracks ⊢
  have hmoves := moves_recover (M := M) a.base restored
  generalize a.base.recover M restored = s at hmoves htracks ⊢
  cases hmoves with
  | stay =>
    refine h.of_take htracks ?_ rfl ?_ rfl rfl (authorityReloadHeight_le ..)
    · rw [length_take, hposts, min_self]
    · rw [take_take, min_eq_left (by omega)]
  | extend hbrings => exact hbrings.elim
  | recover hfinalized hnext =>
    rw [foldl_cancel_eq] at htracks ⊢
    have hle := hkeeps _ hfinalized
    have hlt := hnext.lt
    refine h.of_take htracks ?_ rfl ?_ ?_ ?_ hle
    · rw [length_take, length_take]
      omega
    · rw [length_take, take_take, min_eq_left (by omega)]
    · rw [take_take, min_self]
    · rw [hnext.head]
      exact authorityReloadHeight_of_between hlt.le hle

end

/-- Every input that keeps the boundary keeps the authorities those of the chain. -/
theorem FollowsRegistry.step (hcodec : PayloadCodec M) (sign : Bytes → PQSignature) (pubkey : Bytes) (h : FollowsRegistry A M a)
    {input : NodeInput} (hkeeps : KeepsBoundary A M a input) :
    FollowsRegistry A M ((authoritySystem A M sign pubkey).step a input) := by
  have htracks : Tracks M.toCtx ((authoritySystem A M sign pubkey).step a input).base := by
    rw [base_step]
    exact h.tracks.moves (moves_step hcodec sign pubkey a.base input)
  cases input with
  | produce timestamp maxTxs candidates pending trie =>
    simp only [authoritySystem, AuthorityNode.produce] at htracks ⊢
    split at htracks
    · exact h
    · rename_i hproduce
      exact h.extend (committedNext_of_produce hcodec hproduce).1 htracks
  | importBlock now block finalizedImport trie =>
    simp only [authoritySystem, AuthorityNode.importBlock] at htracks ⊢
    split at htracks
    · rename_i hnext hclass
      exact h.extend (committedNext_of_import hclass hnext) htracks
    · rename_i hother
      -- a block that is not on top of the head changes neither the chain nor the authorities
      have hchain : (a.base.importBlock M now block finalizedImport trie).chain = a.base.chain := by
        unfold RetainingNode.importBlock
        split
        · rfl
        · rename_i next hnext
          split <;> try rfl
          rename_i hclass
          exact (hother next hnext hclass).elim
      have hold := h.tracks.length
      have hnew := htracks.length
      refine h.of_take htracks ?_ rfl rfl ?_ ?_ (authorityReloadHeight_le ..)
      · rw [hchain, h.length]
      · rw [hchain]
      · simp only [hchain] at hnew
        rw [show (a.base.importBlock M now block finalizedImport trie).node.head.number = a.base.node.head.number by omega]
  | adoptFork now trie => exact h.adoptFork hkeeps htracks
  | recover restored => exact h.recover hkeeps htracks
  | consensus engine forkChoice finality finalizedNumber => exact ⟨htracks, h.length, h.registry⟩

/-! ## A built node -/

/-- A node that the builder has made over a store: the stored states have their roots, the stored headers are those of the
canonical blocks, and the history is what the store holds for them. -/
structure Built (A : AuthorityRules σ) (M : Machine σ ρ) (configured : AuthoritySet) (a : AuthorityNode σ ρ) : Prop where
  tracks : Tracks M.toCtx a.base
  active : A.buildAuthorities M configured a.base = .ok a.active
  posts : a.posts = a.base.chain.map fun block => a.base.node.worldAt block.header.stateRoot
  head : a.base.chain[a.base.node.head.number]? = some a.base.node.head
  headers : ∀ block ∈ a.base.chain, ∀ header, a.base.headers (block.hash M.toCtx) = some header → header = block.header
  roots : ∀ root world, a.base.node.worldAt root = some world → M.stateRoot world = root

theorem reloads_of_authorityReloadHeight (h : authorityReloadHeight number epochLength = number) :
    epochLength = 0 ∨ number % epochLength = 0 := by
  unfold authorityReloadHeight at h
  split_ifs at h with hzero
  · exact .inl hzero
  · have hle := Nat.mod_le number epochLength
    exact .inr (by omega)

theorem buildAuthorities_of_boundaryState (hstate : A.boundaryState M r = .ok world) (hne : M.validators world ≠ [])
    (configured : AuthoritySet) : A.buildAuthorities M configured r = .ok (A.registrySet M world) := by
  simp only [buildAuthorities, hstate]
  change (if _ then _ else _) = _
  split_ifs with hboundary
  · rw [reloadAuthoritiesIfBoundary, if_neg (not_not_intro (reloads_of_authorityReloadHeight hboundary)), if_neg hne]
    rfl
  · rfl

theorem Built.followsRegistry (h : Built A M configured a) : FollowsRegistry A M a := by
  have hactive := h.active
  cases hstate : A.boundaryState M a.base with
  | error e =>
    rw [buildAuthorities, hstate] at hactive
    cases hactive
  | ok world =>
    -- the state that the builder reads is the one stored for the canonical block at the reload height
    obtain ⟨block, hblock, hworld⟩ : ∃ block, a.base.chain[authorityReloadHeight a.base.node.head.number A.epochLength]? =
        some block ∧ a.base.node.worldAt block.header.stateRoot = some world := by
      have hread := hstate
      simp only [AuthorityRules.boundaryState] at hread
      split_ifs at hread with hboundary
      · split at hread <;> cases hread
        rename_i hworld
        exact ⟨a.base.node.head, by rw [hboundary, h.head], hworld⟩
      · split at hread
        · cases hread
        rename_i hash hhash
        split at hread
        · cases hread
        rename_i header hheader
        split_ifs at hread
        split at hread <;> cases hread
        rename_i hworld
        obtain ⟨block, hblock, rfl⟩ := h.tracks.canonical _ hash hhash
        obtain rfl := h.headers block (mem_of_getElem? hblock) header hheader
        exact ⟨block, hblock, hworld⟩
    refine ⟨h.tracks, by rw [h.posts, length_map], world, block, ?_, hblock, h.roots _ _ hworld, fun hne => ?_⟩
    · rw [h.posts, getElem?_map, hblock, Option.map_some, hworld]
    · rw [buildAuthorities_of_boundaryState hstate hne] at hactive
      exact (Except.ok.inj hactive).symm

end ShellChain
