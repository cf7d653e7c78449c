import ShellChain.Retention

/-!
# What pruning takes away

The pruners touch bundles, blocks and canonical hashes and nothing else of a node. `Prunes` says what is taken, and why: a
bundle goes for a reason `W`, a body for a reason `B`, a canonical hash when it is below the finalized height. Every pass is
an instance, and passes compose.
-/

namespace ShellChain

variable {σ ρ : Type}

namespace RetainingNode

variable {r s t : RetainingNode σ ρ}

/-! ## Reasons -/

/-- The bundle of a hash is due in the grace queue. -/
def GraceDue (r : RetainingNode σ ρ) (finalized : Nat) (h : ShellHash) : Prop :=
  ∃ deleteAt, r.graceDeletes.lookup h = some deleteAt ∧ deleteAt ≤ finalized

/-- The bundle of a hash is behind the retention window and settled. -/
def RetentionDue (r : RetainingNode σ ρ) (finalized : Nat) (h : ShellHash) : Prop :=
  (1, h) ∈ r.node.settledSources ∧ r.pruning.witnessRetention ≠ 0 ∧
    ∃ n, r.node.canonical n = some h ∧ n < retentionCutoff finalized r.pruning.witnessRetention

/-- The body of a hash is behind its window. -/
def BodyDue (r : RetainingNode σ ρ) (finalized : Nat) (h : ShellHash) : Prop :=
  r.pruning.bodyRetention ≠ 0 ∧
    ∃ n, r.node.canonical n = some h ∧ n < retentionCutoff finalized r.pruning.bodyRetention

/-- The block of a hash after pruning: kept, without its witnesses, or gone with only its header left. -/
def BlockPruned (W B : ShellHash → Prop) (r s : RetainingNode σ ρ) (h : ShellHash) : Prop :=
  s.node.blocks h = r.node.blocks h ∨
    (s.node.blocks h = (r.node.blocks h).map Block.withoutWitnesses ∧ W h) ∨
    (s.node.blocks h = none ∧ s.node.storedArtifact h = true ∧ B h)

/-- No height from `k` on is behind the body window. -/
def WindowFrom (r : RetainingNode σ ρ) (k : Nat) : Prop :=
  r.pruning.bodyRetention = 0 ∨ retentionCutoff r.finalizedHeight r.pruning.bodyRetention ≤ k

/-- What pruning leaves of a node. -/
structure Prunes (W B : ShellHash → Prop) (r s : RetainingNode σ ρ) : Prop where
  node : s.node = { r.node with
    blocks := s.node.blocks, canonical := s.node.canonical, storedArtifact := s.node.storedArtifact }
  pruning : s.pruning = r.pruning
  headers : s.headers = r.headers
  chain : s.chain = r.chain
  graceDeletes : ∀ h deleteAt, s.graceDeletes.lookup h = some deleteAt → r.graceDeletes.lookup h = some deleteAt
  bundles : ∀ h, s.bundles h = r.bundles h ∨ (s.bundles h = none ∧ W h)
  blocks : ∀ h, BlockPruned W B r s h
  stored : ∀ h, r.node.storedArtifact h = true → s.node.storedArtifact h = true
  mapped : ∀ k, r.finalizedHeight ≤ k → r.statePruner.prunableBelow ≤ k →
    s.statePruner.prunableBelow ≤ k ∧ ∀ n, k ≤ n → s.node.canonical n = r.node.canonical n
  windowed : ∀ k, r.WindowFrom k → r.bodyPrunedBelow ≤ k → r.statePruner.prunableBelow ≤ k →
    s.bodyPrunedBelow ≤ k ∧ s.statePruner.prunableBelow ≤ k ∧ ∀ n, k ≤ n → s.node.canonical n = r.node.canonical n
  canonical : ∀ n, s.node.canonical n = r.node.canonical n ∨ s.node.canonical n = none

namespace Prunes

variable {W B W' B' : ShellHash → Prop}

theorem refl (r : RetainingNode σ ρ) : Prunes W B r r where
  node := rfl
  pruning := rfl
  headers := rfl
  chain := rfl
  graceDeletes _ _ h := h
  bundles _ := .inl rfl
  blocks _ := .inl rfl
  stored _ h := h
  mapped _ _ h := ⟨h, fun _ _ => rfl⟩
  windowed _ _ hbody hprunable := ⟨hbody, hprunable, fun _ _ => rfl⟩
  canonical _ := .inl rfl

section

variable (h : Prunes W B r s)

include h

theorem mono (hW : ∀ x, W x → W' x) (hB : ∀ x, B x → B' x) : Prunes W' B' r s where
  __ := h
  bundles x := (h.bundles x).imp_right fun hx => ⟨hx.1, hW x hx.2⟩
  blocks x := (h.blocks x).imp_right fun hx => hx.imp (fun hx => ⟨hx.1, hW x hx.2⟩) fun hx => ⟨hx.1, hx.2.1, hB x hx.2.2⟩

theorem settledSources : s.node.settledSources = r.node.settledSources := by
  rw [h.node]

theorem settledFrontiers : s.node.settledFrontiers = r.node.settledFrontiers := by
  rw [h.node]

theorem head : s.node.head = r.node.head := by
  rw [h.node]

theorem finalizedHeight : s.finalizedHeight = r.finalizedHeight := by
  unfold RetainingNode.finalizedHeight
  rw [h.node]

/-- A canonical hash of a pruned node was one before. -/
theorem canonical_of_some {n : Nat} {hash : ShellHash} (hn : s.node.canonical n = some hash) :
    r.node.canonical n = some hash := by
  rcases h.canonical n with heq | hnone
  · rw [← heq, hn]
  · rw [hnone] at hn
    cases hn

theorem trans (h' : Prunes W B s t) : Prunes W B r t where
  node := by
    rw [h'.node, h.node]
  pruning := h'.pruning.trans h.pruning
  headers := h'.headers.trans h.headers
  chain := h'.chain.trans h.chain
  graceDeletes x deleteAt hx := h.graceDeletes x deleteAt (h'.graceDeletes x deleteAt hx)
  bundles x := by
    rcases h'.bundles x with hx | hx
    · rw [hx]
      exact h.bundles x
    · exact .inr hx
  blocks x := by
    rcases h'.blocks x with hx' | ⟨hx', hw⟩ | hx'
    · rcases h.blocks x with hx | ⟨hx, hw⟩ | ⟨hx, hstored, hb⟩
      · exact .inl (hx'.trans hx)
      · exact .inr (.inl ⟨hx'.trans hx, hw⟩)
      · exact .inr (.inr ⟨hx'.trans hx, h'.stored x hstored, hb⟩)
    · rcases h.blocks x with hx | ⟨hx, -⟩ | ⟨hx, hstored, hb⟩
      · exact .inr (.inl ⟨hx'.trans (by rw [hx]), hw⟩)
      · refine .inr (.inl ⟨?_, hw⟩)
        rw [hx', hx, Option.map_map]
        congr 1
        funext block
        simp [Block.withoutWitnesses, StrippedBlock.split, StrippedBlock.intoBlock, StrippedBlock.intoTransactions,
          SignedTransaction.strip, StrippedTransaction.withWitness]
      · exact .inr (.inr ⟨by rw [hx', hx]; rfl, h'.stored x hstored, hb⟩)
    · exact .inr (.inr hx')
  stored x hx := h'.stored x (h.stored x hx)
  mapped k hfinalized hprunable := by
    obtain ⟨hs, hcanonical⟩ := h.mapped k hfinalized hprunable
    obtain ⟨ht, hcanonical'⟩ := h'.mapped k (h.finalizedHeight ▸ hfinalized) hs
    exact ⟨ht, fun n hn => (hcanonical' n hn).trans (hcanonical n hn)⟩
  windowed k hk hbody hprunable := by
    obtain ⟨hbody, hprunable, hcanonical⟩ := h.windowed k hk hbody hprunable
    unfold WindowFrom at hk
    rw [← h.pruning, ← h.finalizedHeight] at hk
    obtain ⟨hbody', hprunable', hcanonical'⟩ := h'.windowed k hk hbody hprunable
    exact ⟨hbody', hprunable', fun n hn => (hcanonical' n hn).trans (hcanonical n hn)⟩
  canonical n := by
    rcases h'.canonical n with hn | hn
    · rcases h.canonical n with hn' | hn'
      · exact .inl (hn.trans hn')
      · exact .inr (hn.trans hn')
    · exact .inr hn

end

end Prunes

/-! ## The passes -/

variable {B W : ShellHash → Prop} {hashes : List ShellHash} {h : ShellHash} {fuel start finalized : Nat}

/-- The deletion of bundles for which there is a reason. -/
theorem prunes_dropBundles (hW : ∀ h ∈ hashes, W h) : Prunes W B r (r.dropBundles hashes) where
  __ := Prunes.refl (W := W) (B := B) r
  node := rfl
  bundles h := by
    by_cases hmem : h ∈ hashes
    · exact .inr ⟨by simp [dropBundles, hmem], hW h hmem⟩
    · exact .inl (by simp [dropBundles, hmem])
  blocks h := by
    by_cases hmem : h ∈ hashes
    · exact .inr (.inl ⟨by simp [dropBundles, hmem], hW h hmem⟩)
    · exact .inl (by simp [dropBundles, hmem])

theorem prunableHash_some {n : Nat} (hp : r.prunableHash n = some h) : r.node.canonical n = some h :=
  (Option.filter_eq_some_iff.mp hp).1

/-- The pass under the settlement guard takes canonical settled hashes. -/
theorem settledPass_some {advancedTo : Nat} (hpass : r.settledPass fuel start = some (hashes, advancedTo)) :
    ∀ h ∈ hashes, ∃ n, r.node.canonical n = some h ∧ n < start + fuel ∧ (1, h) ∈ r.node.settledSources := by
  induction fuel generalizing start hashes advancedTo with
  | zero =>
    obtain ⟨rfl, rfl⟩ := Prod.mk.inj (Option.some.inj hpass)
    intro h hh
    cases hh
  | succ fuel ih =>
    rw [settledPass] at hpass
    split at hpass
    · cases hpass
    · rename_i hash hhash
      have hcanonical := prunableHash_some hhash
      by_cases hsettled : (1, hash) ∈ r.node.settledSources
      · rw [if_neg (not_not.mpr hsettled)] at hpass
        obtain ⟨⟨others, reached⟩, hrest, heq⟩ := Option.map_eq_some_iff.mp hpass
        obtain ⟨rfl, rfl⟩ := Prod.mk.inj heq
        have hothers : ∀ h ∈ others,
            ∃ n, r.node.canonical n = some h ∧ n < start + (fuel + 1) ∧ (1, h) ∈ r.node.settledSources := by
          intro h hh
          obtain ⟨n, hn, hlt, hs⟩ := ih hrest h hh
          exact ⟨n, hn, by omega, hs⟩
        intro h hh
        simp only at hh
        split_ifs at hh
        · rcases List.mem_cons.mp hh with rfl | hh
          · exact ⟨start, hcanonical, by omega, hsettled⟩
          · exact hothers h hh
        · exact hothers h hh
      · rw [if_pos hsettled] at hpass
        obtain ⟨rfl, rfl⟩ := Prod.mk.inj (Option.some.inj hpass)
        intro h hh
        cases hh

theorem prunes_pruneBeforeSettled (r : RetainingNode σ ρ) (finalized : Nat) :
    Prunes (r.RetentionDue finalized) B r (r.pruneBeforeSettled finalized) := by
  simp only [pruneBeforeSettled]
  split_ifs with harchive hcutoff
  · exact Prunes.refl r
  · exact Prunes.refl r
  · split
    · exact Prunes.refl r
    · rename_i hashes advancedTo hpass
      have hhashes := settledPass_some hpass
      have hdrop : Prunes (r.RetentionDue finalized) B r (r.dropBundles hashes) := by
        refine prunes_dropBundles fun h hh => ?_
        obtain ⟨n, hn, hlt, hsettled⟩ := hhashes h hh
        exact ⟨hsettled, harchive, n, hn, by omega⟩
      exact { hdrop with
        node := hdrop.node
        mapped := hdrop.mapped
        windowed := hdrop.windowed }

theorem prunes_pruneGraceWitnesses (r : RetainingNode σ ρ) (finalized : Nat) :
    Prunes (r.GraceDue finalized) B r (r.pruneGraceWitnesses finalized) := by
  have hdrop : Prunes (r.GraceDue finalized) B r (r.dropBundles
      (((r.graceDeletes.entries.filter fun entry => entry.2 ≤ finalized).map Sigma.fst).filter
        fun hash => (r.bundles hash).isSome)) := by
    refine prunes_dropBundles fun h hh => ?_
    obtain ⟨hh, -⟩ := List.mem_filter.mp hh
    obtain ⟨⟨hash, deleteAt⟩, hentry, rfl⟩ := List.mem_map.mp hh
    obtain ⟨hentry, hdue⟩ := List.mem_filter.mp hentry
    exact ⟨deleteAt, AList.mem_lookup_iff.2 hentry, by simpa using hdue⟩
  exact { hdrop with
    node := hdrop.node
    graceDeletes := fun h deleteAt hlookup => by
      simp only [pruneGraceWitnesses, AList.lookup_retain] at hlookup
      exact (Option.filter_eq_some_iff.mp hlookup).1 }

theorem bodyPass_some (hpass : r.bodyPass fuel start = some hashes) :
    ∀ h ∈ hashes, ∃ n, r.node.canonical n = some h ∧ n < start + fuel := by
  induction fuel generalizing start hashes with
  | zero =>
    obtain rfl := Option.some.inj hpass
    intro h hh
    cases hh
  | succ fuel ih =>
    rw [bodyPass] at hpass
    split at hpass
    · cases hpass
    · rename_i hash hhash
      obtain ⟨others, hrest, rfl⟩ := Option.map_eq_some_iff.mp hpass
      intro h hh
      rcases List.mem_cons.mp hh with rfl | hh
      · exact ⟨start, prunableHash_some hhash, by omega⟩
      · obtain ⟨n, hn, hlt⟩ := ih hrest h hh
        exact ⟨n, hn, by omega⟩

theorem prunes_pruneExpiredBodies (r : RetainingNode σ ρ) (hfinalized : finalized = r.finalizedHeight) :
    Prunes W (r.BodyDue finalized) r (r.pruneExpiredBodies finalized) := by
  simp only [pruneExpiredBodies]
  split_ifs with harchive hhorizon
  · exact Prunes.refl r
  · exact Prunes.refl r
  · split
    · exact Prunes.refl r
    · rename_i hashes hpass
      have hhashes := bodyPass_some hpass
      exact { Prunes.refl (W := W) (B := r.BodyDue finalized) r with
        node := rfl
        blocks := fun h => by
          by_cases hmem : h ∈ hashes
          · obtain ⟨n, hn, hlt⟩ := hhashes h hmem
            exact .inr (.inr ⟨by simp [dropBodies, hmem], by simp [dropBodies, hmem], harchive, n, hn, by omega⟩)
          · exact .inl (by simp [dropBodies, hmem])
        stored := fun h hh => by simp [dropBodies, hh]
        windowed := fun k hk hbody hprunable => by
          refine ⟨(Nat.min_le_left _ _).trans ?_, hprunable, fun _ _ => rfl⟩
          rcases hk with hzero | hle
          · exact absurd hzero harchive
          · exact hfinalized ▸ hle }

/-- The pass over the canonical hashes takes heights below its end. -/
theorem canonicalPass_some {genesisRoot : Option ShellHash} {budget : Nat} {numbers : List Nat}
    (hpass : r.canonicalPass genesisRoot fuel budget start = some numbers) : ∀ n ∈ numbers, n < start + fuel := by
  induction fuel generalizing budget start numbers with
  | zero =>
    obtain rfl := Option.some.inj hpass
    intro n hn
    cases hn
  | succ fuel ih =>
    have hrest : ∀ {budget numbers}, r.canonicalPass genesisRoot fuel budget (start + 1) = some numbers →
        ∀ n ∈ numbers, n < start + (fuel + 1) := by
      intro budget numbers h n hn
      have := ih h n hn
      omega
    rw [canonicalPass] at hpass
    split at hpass
    · exact hrest hpass
    · split at hpass
      · cases hpass
      · split_ifs at hpass
        · exact hrest hpass
        · obtain rfl := Option.some.inj hpass
          intro n hn
          rw [List.mem_singleton.mp hn]
          omega
        · obtain ⟨others, hothers, rfl⟩ := Option.map_eq_some_iff.mp hpass
          intro n hn
          rcases List.mem_cons.mp hn with rfl | hn
          · omega
          · exact hrest hothers n hn

theorem canonicalMappingPruneBoundary_le (finalized body witness : Nat) (trie : Option Nat) :
    canonicalMappingPruneBoundary finalized body witness trie ≤ min finalized body := by
  unfold canonicalMappingPruneBoundary
  cases trie with
  | none => exact Nat.min_le_left _ _
  | some boundary => exact (Nat.min_le_left _ _).trans (Nat.min_le_left _ _)

theorem prunes_pruneCanonical (r : RetainingNode σ ρ) (number trie : Nat) (hfinalized : finalized = r.finalizedHeight) :
    Prunes W B r (r.pruneCanonical number finalized trie) := by
  obtain ⟨hboundary, hbody⟩ := Nat.le_min.mp (canonicalMappingPruneBoundary_le finalized r.bodyPrunedBelow
    r.witnessPrunedBelow (if r.pruning.isLight ∧ 0 < r.pruning.keepRecent then some trie else none))
  simp only [pruneCanonical]
  generalize canonicalMappingPruneBoundary finalized r.bodyPrunedBelow r.witnessPrunedBelow _ = boundary
    at hboundary hbody ⊢
  generalize (if r.statePruner.genesisRoot.isNone = true ∨ 0 < finalized ∧ 0 < number ∧ number % defaultPruneInterval = 0
    then r.confirmedGenesisRoot else r.statePruner.genesisRoot) = genesisRoot
  have hmarked : ∀ k, r.finalizedHeight ≤ k → r.statePruner.prunableBelow ≤ k →
      max r.statePruner.prunableBelow boundary ≤ k :=
    fun k hk hprunable => Nat.max_le.mpr ⟨hprunable, hboundary.trans (hfinalized.trans_le hk)⟩
  have hwindowed : ∀ k, r.bodyPrunedBelow ≤ k → r.statePruner.prunableBelow ≤ k →
      max r.statePruner.prunableBelow boundary ≤ k :=
    fun k hk hprunable => Nat.max_le.mpr ⟨hprunable, hbody.trans hk⟩
  split
  · exact { Prunes.refl (W := W) (B := B) r with node := rfl }
  · split
    · exact { Prunes.refl (W := W) (B := B) r with
        node := rfl
        mapped := fun k hk hprunable => ⟨hmarked k hk hprunable, fun _ _ => rfl⟩
        windowed := fun k _ hk hprunable => ⟨hk, hwindowed k hk hprunable, fun _ _ => rfl⟩ }
    · rename_i numbers hpass
      have hnumbers := canonicalPass_some hpass
      have hkept : ∀ k, max r.statePruner.prunableBelow boundary ≤ k → ∀ n, k ≤ n →
          (if n ∈ numbers then none else r.node.canonical n) = r.node.canonical n := by
        intro k hk n hn
        refine if_neg fun hmem => ?_
        have hlt := hnumbers n hmem
        rw [Nat.zero_add] at hlt
        have hle := (hlt.trans_le (Nat.min_le_left _ _)).trans_le hk
        omega
      exact { Prunes.refl (W := W) (B := B) r with
        node := rfl
        mapped := fun k hk hprunable => ⟨hmarked k hk hprunable, hkept k (hmarked k hk hprunable)⟩
        windowed := fun k _ hk hprunable => ⟨hk, hwindowed k hk hprunable, hkept k (hwindowed k hk hprunable)⟩
        canonical := fun n => by
          by_cases hn : n ∈ numbers
          · exact .inr (by simp [hn])
          · exact .inl (by simp [hn]) }

/-! ## The passes of one block, and of several -/

theorem RetentionDue.of_prunes (hp : Prunes W B r s) (hdue : s.RetentionDue finalized h) : r.RetentionDue finalized h := by
  obtain ⟨hsettled, hretention, n, hn, hlt⟩ := hdue
  rw [hp.pruning] at hretention hlt
  exact ⟨hp.settledSources ▸ hsettled, hretention, n, hp.canonical_of_some hn, hlt⟩

theorem BodyDue.of_prunes (hp : Prunes W B r s) (hdue : s.BodyDue finalized h) : r.BodyDue finalized h := by
  obtain ⟨hretention, n, hn, hlt⟩ := hdue
  rw [hp.pruning] at hretention hlt
  exact ⟨hretention, n, hp.canonical_of_some hn, hlt⟩

theorem prunes_recordCanonicalStateRoot (r : RetainingNode σ ρ) (trie number : Nat) :
    Prunes (r.RetentionDue r.finalizedHeight) (r.BodyDue r.finalizedHeight) r (r.recordCanonicalStateRoot trie number) := by
  have hwitness := r.prunes_pruneBeforeSettled r.finalizedHeight (B := r.BodyDue r.finalizedHeight)
  have hbody := (r.pruneBeforeSettled r.finalizedHeight).prunes_pruneExpiredBodies hwitness.finalizedHeight.symm
    (W := r.RetentionDue r.finalizedHeight)
  have hboth := hwitness.trans (hbody.mono (fun _ h => h) fun _ => BodyDue.of_prunes hwitness)
  exact hboth.trans (prunes_pruneCanonical _ number trie hboth.finalizedHeight.symm)

/-- The passes of several blocks. -/
theorem prunes_foldl_recordCanonicalStateRoot (r : RetainingNode σ ρ) (trie : Nat) (numbers : List Nat) :
    Prunes (r.RetentionDue r.finalizedHeight) (r.BodyDue r.finalizedHeight) r
      (numbers.foldl (recordCanonicalStateRoot trie) r) := by
  induction numbers generalizing r with
  | nil => exact Prunes.refl r
  | cons number rest ih =>
    have hfirst := r.prunes_recordCanonicalStateRoot trie number
    have hrest := ih (r.recordCanonicalStateRoot trie number)
    rw [hfirst.finalizedHeight] at hrest
    exact hfirst.trans (hrest.mono (fun _ => RetentionDue.of_prunes hfirst) fun _ => BodyDue.of_prunes hfirst)

end RetainingNode

end ShellChain
