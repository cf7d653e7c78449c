import ShellChain.Lemmas.ForwardChain
import ShellChain.Lemmas.Witnesses
import ShellChain.SourceBinding

/-!
# What a node must keep of unsettled blocks

The settlement of a canonical block needs its body and its bundle. The witness pruners delete bundles of settled blocks only;
the body pruner deletes whatever is behind its window.
-/

namespace ShellChain

open List

variable {σ ρ : Type} {M : Machine σ ρ}

namespace RetainingNode

variable {r s : RetainingNode σ ρ}

/-! ## The sources -/

/-- The body of a height goes with the next pass. -/
def Behind (r : RetainingNode σ ρ) (n : Nat) : Prop :=
  r.pruning.bodyRetention ≠ 0 ∧ n < retentionCutoff r.finalizedHeight r.pruning.bodyRetention

/-- A block with its body and its bundle. -/
def HoldsSource (Γ : Ctx) (r : RetainingNode σ ρ) (block : Block) : Prop :=
  r.node.blocks (block.hash Γ) = some block ∧
    (block.transactions ≠ [] → r.bundles (block.hash Γ) = some (StrippedBlock.split block).2)

/-- What is settled or due is settled at the first layer, and every block that is not has its body and its bundle. -/
structure KeepsSources (M : Machine σ ρ) (r : RetainingNode σ ρ) : Prop where
  anchored : Anchored M r
  layered : ∀ key ∈ r.node.settledSources, (1, key.2) ∈ r.node.settledSources
  grace : ∀ h deleteAt, r.graceDeletes.lookup h = some deleteAt → (1, h) ∈ r.node.settledSources
  sources : ∀ block ∈ r.chain, (1, block.hash M.toCtx) ∉ r.node.settledSources → r.HoldsSource M.toCtx block

/-- The inputs are imported blocks and messages of consensus, and every block that is behind the body window when a block
has been committed is settled at the layer. -/
def ImportsSettled (M : Machine σ ρ) (layer : Nat) (r : RetainingNode σ ρ) : NodeInput → Prop
  | .importBlock _ block _ _ => block.number = r.node.head.number + 1 →
      ∀ (n : Nat) (covered : Block), (r.chain ++ [block])[n]? = some covered → r.Behind n →
        (layer, covered.hash M.toCtx) ∈ chainKeys M (r.chain ++ [block])
  | .consensus _ _ _ _ => True
  | _ => False

/-- The blocks behind the body window are settled at the first layer, in a run that keeps its chain. -/
def KeepsSettled (M : Machine σ ρ) (r : RetainingNode σ ρ) (input : NodeInput) : Prop :=
  KeepsChain M r input ∧ ImportsSettled M 1 r input

variable {chain : List Block} {h : ShellHash} {height : Nat} {block : Block} {Γ : Ctx} {next : ChainNode σ ρ}

theorem mem_chainKeys_of_settledUpTo (hs : SettledUpTo M chain height h) : (1, h) ∈ chainKeys M chain := by
  obtain ⟨block, hblock, -, a, ha, hlayer, hh⟩ := hs
  refine mem_flatMap.mpr ⟨block, hblock, mem_flatMap.mpr ⟨a, ha, mem_map.mpr ⟨h, hh, ?_⟩⟩⟩
  rw [hlayer]

/-- Pruning that spares unsettled blocks keeps their sources. -/
theorem HoldsSource.of_prunes {W B : ShellHash → Prop} (h : r.HoldsSource M.toCtx block) (hp : Prunes W B r s)
    (hW : ¬ W (block.hash M.toCtx)) (hB : ¬ B (block.hash M.toCtx)) : s.HoldsSource M.toCtx block := by
  refine ⟨?_, fun htxs => ?_⟩
  · rcases hp.blocks (block.hash M.toCtx) with heq | ⟨-, hwhy⟩ | ⟨-, -, hwhy⟩
    · rw [heq, h.1]
    · exact absurd hwhy hW
    · exact absurd hwhy hB
  · rcases hp.bundles (block.hash M.toCtx) with heq | ⟨-, hwhy⟩
    · rw [heq, h.2 htxs]
    · exact absurd hwhy hW

/-- The node has stored a block in its two parts. -/
structure Stores (Γ : Ctx) (r s : RetainingNode σ ρ) (block : Block) : Prop where
  blocks : s.node.blocks = Function.update r.node.blocks (block.hash Γ) (some block)
  bundles : s.bundles = (r.putBlock Γ block).bundles

/-- A block that is stored under another hash leaves a source alone. -/
theorem HoldsSource.stores {other : Block} (h : r.HoldsSource Γ block) (hs : Stores Γ r s other)
    (hne : block.hash Γ ≠ other.hash Γ) : s.HoldsSource Γ block := by
  refine ⟨by rw [hs.blocks, Function.update_of_ne hne, h.1], fun htxs => ?_⟩
  rw [hs.bundles]
  simp only [putBlock]
  split_ifs
  · exact h.2 htxs
  · rw [Function.update_of_ne hne, h.2 htxs]

/-! ## The step -/

section

variable (hk : KeepsSources M r) (hnext : CommittedNext M r.node next block)

include hk hnext

theorem KeepsSources.settledSources_staged :
    (r.staged M next block).node.settledSources = (chainKeys M (r.chain ++ [block])).toFinset := by
  rw [staged_eq]
  obtain ⟨authorities, processed, rfl⟩ := hnext.next_eq
  rw [ChainNode.settledSources_recordSettledSources, chainKeys_append, toFinset_append]
  change r.node.settledSources ∪ _ = _
  rw [hk.anchored.settledByChain.settled, chainKeys, chainKeys, flatMap_singleton]
  rfl

/-- A committed block settles at the first layer whatever it settles. -/
theorem KeepsSources.layered_staged {key : SourceKey} (hkey : key ∈ chainKeys M (r.chain ++ [block])) :
    (1, key.2) ∈ chainKeys M (r.chain ++ [block]) := by
  have hsettled := hk.anchored.settledByChain.settled
  have hnumber := hnext.number
  have hold : ∀ key ∈ r.node.settledSources, SettledUpTo M (r.chain ++ [block]) block.number key.2 := by
    intro key hkey
    have hfirst := hk.layered key hkey
    rw [hsettled, mem_toFinset] at hfirst
    obtain ⟨b, hb, hkey⟩ := mem_flatMap.mp hfirst
    obtain ⟨a, ha, hkey⟩ := mem_flatMap.mp hkey
    obtain ⟨hash, hh, heq⟩ := mem_map.mp hkey
    obtain ⟨hlayer, rfl⟩ := Prod.mk.inj heq
    have := hk.anchored.settledByChain.tracks.number_le hb
    exact ⟨b, mem_append_left _ hb, by omega, a, ha, hlayer, hh⟩
  rw [chainKeys_append] at hkey
  rcases mem_append.mp hkey with hkey | hkey
  · exact mem_chainKeys_of_settledUpTo (hold key (by rw [hsettled]; exact mem_toFinset.mpr hkey))
  · rw [chainKeys, flatMap_singleton] at hkey
    obtain ⟨a, ha, hkey⟩ := mem_flatMap.mp hkey
    obtain ⟨hash, hh, rfl⟩ := mem_map.mp hkey
    exact mem_chainKeys_of_settledUpTo (settledUpTo_of_settles hnext.settles
      (mem_append_right _ (mem_singleton_self _)) (Nat.le_refl _) hold ha hh)

theorem KeepsSources.extend {trie : Nat} (hanchored : Anchored M (r.extend M next block trie))
    (hne : ∀ b ∈ r.chain, b.hash M.toCtx ≠ block.hash M.toCtx)
    (hbehind : ∀ (n : Nat) (covered : Block), (r.chain ++ [block])[n]? = some covered → r.Behind n →
      (1, covered.hash M.toCtx) ∈ chainKeys M (r.chain ++ [block])) :
    KeepsSources M (r.extend M next block trie) := by
  have hp := prunes_extend (M := M) r next block trie
  have hsettled : (r.extend M next block trie).node.settledSources = (chainKeys M (r.chain ++ [block])).toFinset := by
    rw [hp.settledSources, hk.settledSources_staged hnext]
  have htracks := hk.anchored.settledByChain.tracks.staged hnext
  have hgrace : ∀ hash deleteAt, (r.staged M next block).graceDeletes.lookup hash = some deleteAt →
      (1, hash) ∈ chainKeys M (r.chain ++ [block]) := by
    intro hash deleteAt hlookup
    rcases lookup_schedule hlookup with hold | ⟨-, a, ha, hh⟩
    · have hmem := hk.grace hash deleteAt hold
      rw [hk.anchored.settledByChain.settled, mem_toFinset] at hmem
      rw [chainKeys_append]
      exact mem_append_left _ hmem
    · have hkey : (a.layer, hash) ∈ chainKeys M (r.chain ++ [block]) := by
        rw [chainKeys_append, chainKeys, chainKeys, flatMap_singleton]
        exact mem_append_right _ (mem_flatMap.mpr ⟨a, ha, mem_map.mpr ⟨hash, hh, rfl⟩⟩)
      exact hk.layered_staged hnext hkey
  refine ⟨hanchored, ?_, ?_, ?_⟩
  · intro key hkey
    rw [hsettled, mem_toFinset] at hkey ⊢
    exact hk.layered_staged hnext hkey
  · intro hash deleteAt hlookup
    rw [hsettled, mem_toFinset]
    exact hgrace hash deleteAt (hp.graceDeletes hash deleteAt hlookup)
  · intro b hb hunsettled
    rw [hsettled, mem_toFinset] at hunsettled
    rw [hp.chain, staged_eq] at hb
    have hstores : Stores M.toCtx r (r.staged M next block) block := by
      rw [staged_eq]
      obtain ⟨authorities, processed, rfl⟩ := hnext.next_eq
      exact ⟨rfl, rfl⟩
    have hstaged : (r.staged M next block).HoldsSource M.toCtx b := by
      rcases mem_append.mp hb with hb | hb
      · refine (hk.sources b hb fun hmem => hunsettled ?_).stores hstores (hne b hb)
        rw [hk.anchored.settledByChain.settled, mem_toFinset] at hmem
        rw [chainKeys_append]
        exact mem_append_left _ hmem
      · obtain rfl := mem_singleton.mp hb
        refine ⟨by rw [hstores.blocks, Function.update_self], fun htxs => ?_⟩
        rw [hstores.bundles]
        simp only [putBlock, if_neg htxs, Function.update_self]
    refine hstaged.of_prunes hp ?_ ?_
    · rintro (⟨deleteAt, hlookup, -⟩ | ⟨hmem, -⟩)
      · exact hunsettled (hgrace _ deleteAt hlookup)
      · rw [hk.settledSources_staged hnext, mem_toFinset] at hmem
        exact hunsettled hmem
    · rintro ⟨hretention, n, hn, hlt⟩
      obtain ⟨covered, hcovered, heq⟩ := htracks.canonical n _ hn
      have hframe : (r.staged M next block).pruning = r.pruning ∧ (r.staged M next block).chain = r.chain ++ [block] ∧
          (r.staged M next block).finalizedHeight = r.finalizedHeight := by
        rw [staged_eq]
        obtain ⟨authorities, processed, rfl⟩ := hnext.next_eq
        exact ⟨rfl, rfl, rfl⟩
      rw [hframe.1] at hretention hlt
      rw [hframe.2.2] at hlt
      rw [hframe.2.1] at hcovered
      exact hunsettled (heq ▸ hbehind n covered hcovered ⟨hretention, hlt⟩)

end

/-- Imports lengthen the chain by at most one block. -/
theorem distinctHashes_of_moves {layer : Nat} {input : NodeInput} (hsettled : ImportsSettled M layer r input)
    (hmoves : Moves M r input s) (h : DistinctHashes M.toCtx s.chain) : DistinctHashes M.toCtx r.chain := by
  cases hmoves with
  | stay | store | consensus => exact h
  | extend =>
    rw [chain_extend] at h
    exact h.of_append
  | adopt | recover => exact hsettled.elim

/-- A run of imports under the condition keeps the sources, when the hashes of the chain it leaves are distinct. -/
theorem KeepsSources.moves (hlayers : BindsLayers M) {input : NodeInput} (h : KeepsSources M r)
    (hkeeps : KeepsChain M r input) (hsettled : ImportsSettled M 1 r input) (hmoves : Moves M r input s)
    (hdistinct : DistinctHashes M.toCtx s.chain) : KeepsSources M s := by
  have hanchored := Anchored.moves hlayers (fun _ => h.anchored) hkeeps hmoves hdistinct
  cases hmoves with
  | stay => exact h
  | store hfork =>
    rename_i fork _ _
    have hne := h.anchored.hash_ne_of_fork hfork hkeeps
    refine ⟨hanchored, h.layered, h.grace, fun b hb hunsettled => ?_⟩
    exact (h.sources b hb hunsettled).stores ⟨rfl, rfl⟩ (hne b hb).symm
  | extend hbrings hnext =>
    rename_i next block trie
    rw [chain_extend] at hdistinct
    cases input with
    | importBlock now imported finalizedImport trie =>
      obtain rfl : imported = block := hbrings
      exact h.extend hnext hanchored hdistinct.ne_last (hsettled hnext.number)
    | produce | adoptFork | recover => exact hsettled.elim
    | consensus => exact hbrings.elim
  | adopt | recover => exact hsettled.elim
  | consensus => exact ⟨hanchored, h.layered, h.grace, h.sources⟩

end RetainingNode

end ShellChain
