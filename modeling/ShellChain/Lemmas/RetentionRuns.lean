import ShellChain.Lemmas.CanonicalChain
import ShellChain.Lemmas.Retention

/-!
# The steps of a retaining node

One input leaves the node as it is, stores a fork block, extends the chain, switches to another branch, goes back to the
finalized block, or changes consensus. `Moves` lists these with what each has established, so that an invariant is checked
once for each of them. An extension and a switch first commit and schedule, and then prune; the state in between is named.
-/

namespace ShellChain

open Checks List Function

variable {σ ρ : Type} {M : Machine σ ρ}

namespace RetainingNode

variable {r s : RetainingNode σ ρ}

/-! ## The grace queue -/

variable {deleteAt n : Nat} {h : ShellHash} {reverted : List (List ProofAmendment)} {block : Block} {Γ : Ctx}
  {B W : ShellHash → Prop} {next : ChainNode σ ρ} {input : NodeInput}

theorem lookup_foldl_insert {found : Nat} {hashes : List ShellHash} {m : HashMap ShellHash Nat}
    (hlookup : (hashes.foldl (fun m hash => m.insert hash deleteAt) m).lookup h = some found) :
    m.lookup h = some found ∨ (found = deleteAt ∧ h ∈ hashes) := by
  induction hashes generalizing m with
  | nil => exact .inl hlookup
  | cons first rest ih =>
    rcases ih hlookup with hm | ⟨hfound, hmem⟩
    · rcases AList.lookup_insert_eq_some.mp hm with ⟨rfl, rfl⟩ | ⟨-, hm⟩
      · exact .inr ⟨rfl, mem_cons_self ..⟩
      · exact .inl hm
    · exact .inr ⟨hfound, mem_cons_of_mem _ hmem⟩

theorem schedule_eq (r : RetainingNode σ ρ) (amendments : List ProofAmendment) (number : Nat) :
    r.scheduleSettledWitnessDeletes amendments number =
      { r with graceDeletes := (r.scheduleSettledWitnessDeletes amendments number).graceDeletes } := by
  unfold scheduleSettledWitnessDeletes
  split_ifs <;> rfl

theorem lookup_schedule {amendments : List ProofAmendment} {number : Nat}
    (hlookup : (r.scheduleSettledWitnessDeletes amendments number).graceDeletes.lookup h = some deleteAt) :
    r.graceDeletes.lookup h = some deleteAt ∨
      (deleteAt = saturatingAdd number r.pruning.proofReplacementGrace ∧ ∃ a ∈ amendments, h ∈ a.coveredHashes) := by
  unfold scheduleSettledWitnessDeletes at hlookup
  split_ifs at hlookup
  · exact .inl hlookup
  · rcases lookup_foldl_insert hlookup with hold | ⟨hat, hmem⟩
    · exact .inl hold
    · exact .inr ⟨hat, mem_flatMap.mp hmem⟩

theorem foldl_schedule_eq {α : Type} (settled : α → List ProofAmendment) (number : α → Nat) (items : List α)
    (r : RetainingNode σ ρ) : let final := items.foldl (fun s x => s.scheduleSettledWitnessDeletes (settled x) (number x)) r
    final = { r with graceDeletes := final.graceDeletes } := by
  induction items generalizing r with
  | nil => rfl
  | cons x rest ih =>
    have hfirst := r.schedule_eq (settled x) (number x)
    have hrest := ih (r.scheduleSettledWitnessDeletes (settled x) (number x))
    simp only [foldl_cons] at hrest ⊢
    rw [hfirst] at hrest ⊢
    exact hrest

theorem lookup_foldl_schedule {α : Type} (settled : α → List ProofAmendment) (number : α → Nat) {items : List α}
    (hlookup : (items.foldl (fun s x => s.scheduleSettledWitnessDeletes (settled x) (number x)) r).graceDeletes.lookup h =
      some deleteAt) : r.graceDeletes.lookup h = some deleteAt ∨
      ∃ x ∈ items, deleteAt = saturatingAdd (number x) r.pruning.proofReplacementGrace ∧
        ∃ a ∈ settled x, h ∈ a.coveredHashes := by
  induction items generalizing r with
  | nil => exact .inl hlookup
  | cons first rest ih =>
    have hpruning : (r.scheduleSettledWitnessDeletes (settled first) (number first)).pruning = r.pruning := by
      rw [schedule_eq]
    rcases ih hlookup with hfirst | ⟨x, hx, hat, ha⟩
    · rcases lookup_schedule hfirst with hold | hnew
      · exact .inl hold
      · exact .inr ⟨first, mem_cons_self .., hnew⟩
    · exact .inr ⟨x, mem_cons_of_mem _ hx, hpruning ▸ hat, ha⟩

theorem foldl_cancel_eq (reverted : List (List ProofAmendment)) (r : RetainingNode σ ρ) :
    reverted.foldl cancelSettledWitnessDeletes r =
      { r with graceDeletes := (reverted.foldl cancelSettledWitnessDeletes r).graceDeletes } := by
  induction reverted generalizing r with
  | nil => rfl
  | cons first rest ih => exact ih (r.cancelSettledWitnessDeletes first)

theorem lookup_foldl_cancel (hlookup : (reverted.foldl cancelSettledWitnessDeletes r).graceDeletes.lookup h = some deleteAt) :
    r.graceDeletes.lookup h = some deleteAt := by
  induction reverted generalizing r with
  | nil => exact hlookup
  | cons first rest ih =>
    have hfirst := ih hlookup
    simp only [cancelSettledWitnessDeletes, AList.lookup_eraseAll] at hfirst
    split_ifs at hfirst
    exact hfirst

/-! ## Before pruning -/

/-- The node that has committed a block on top of its head and scheduled the deletes, before it prunes. -/
def staged (M : Machine σ ρ) (r : RetainingNode σ ρ) (next : ChainNode σ ρ) (block : Block) : RetainingNode σ ρ :=
  ({ r.putBlock M.toCtx block with node := next, chain := r.chain ++ [block] } :
    RetainingNode σ ρ).scheduleSettledWitnessDeletes (block.settlements M) block.number

/-- The node that has committed another branch, cancelled and scheduled the deletes, before it prunes. -/
def stagedSwitch (M : Machine σ ρ) (r : RetainingNode σ ρ) (next : ChainNode σ ρ) (plan : ForkAdoptionPlan)
    (reverted : List (List ProofAmendment)) : RetainingNode σ ρ :=
  plan.newChain.foldl (fun s block => s.scheduleSettledWitnessDeletes (block.settlements M) block.number)
    (reverted.foldl cancelSettledWitnessDeletes
      { r with node := next, chain := r.chain.take (plan.ancestorNumber + 1) ++ plan.newChain })

/-- The reasons for which the bundle of a hash goes when the pruners run. -/
def WitnessDue (r : RetainingNode σ ρ) (h : ShellHash) : Prop :=
  r.GraceDue r.node.finality.lastFinalizedNumber h ∨ r.RetentionDue r.finalizedHeight h

section

variable (r : RetainingNode σ ρ) (next : ChainNode σ ρ)

theorem prunes_passes (trie : Nat) (numbers : List Nat) : Prunes r.WitnessDue (r.BodyDue r.finalizedHeight) r
      (numbers.foldl (recordCanonicalStateRoot trie) (r.pruneGraceWitnesses r.node.finality.lastFinalizedNumber)) := by
  have hgrace := r.prunes_pruneGraceWitnesses r.node.finality.lastFinalizedNumber (B := r.BodyDue r.finalizedHeight)
  have hpasses := (r.pruneGraceWitnesses r.node.finality.lastFinalizedNumber).prunes_foldl_recordCanonicalStateRoot
    trie numbers
  rw [hgrace.finalizedHeight] at hpasses
  exact (hgrace.mono (fun _ => .inl) fun _ h => h).trans
    (hpasses.mono (fun _ h => .inr (h.of_prunes hgrace)) fun _ h => h.of_prunes hgrace)

theorem staged_eq (block : Block) : r.staged M next block = { r.putBlock M.toCtx block with
      node := next, chain := r.chain ++ [block], graceDeletes := (r.staged M next block).graceDeletes } :=
  schedule_eq ..

theorem stagedSwitch_eq (plan : ForkAdoptionPlan) (reverted : List (List ProofAmendment)) :
    r.stagedSwitch M next plan reverted = { r with
      node := next, chain := r.chain.take (plan.ancestorNumber + 1) ++ plan.newChain,
      graceDeletes := (r.stagedSwitch M next plan reverted).graceDeletes } := by
  have hschedule := foldl_schedule_eq (Block.settlements M) Block.number plan.newChain (reverted.foldl cancelSettledWitnessDeletes
    { r with node := next, chain := r.chain.take (plan.ancestorNumber + 1) ++ plan.newChain })
  unfold stagedSwitch
  simp only at hschedule
  rw [hschedule, foldl_cancel_eq]

theorem prunes_extend (block : Block) (trie : Nat) :
    Prunes (r.staged M next block).WitnessDue ((r.staged M next block).BodyDue (r.staged M next block).finalizedHeight)
      (r.staged M next block) (r.extend M next block trie) := by
  have hpasses := (r.staged M next block).prunes_passes trie [block.number]
  have hfinality : (r.staged M next block).node.finality = next.finality := by rw [staged_eq]
  rw [hfinality] at hpasses
  exact hpasses

theorem chain_extend (block : Block) (trie : Nat) : (r.extend M next block trie).chain = r.chain ++ [block] := by
  rw [(prunes_extend ..).chain, staged_eq]

theorem prunes_switchBranch (plan : ForkAdoptionPlan) (reverted : List (List ProofAmendment)) (trie : Nat) :
    Prunes (r.stagedSwitch M next plan reverted).WitnessDue
      ((r.stagedSwitch M next plan reverted).BodyDue (r.stagedSwitch M next plan reverted).finalizedHeight)
      (r.stagedSwitch M next plan reverted) (r.switchBranch M next plan reverted trie) := by
  have hpasses := (r.stagedSwitch M next plan reverted).prunes_passes trie (plan.newChain.map Block.number)
  have hfinality : (r.stagedSwitch M next plan reverted).node.finality = next.finality := by rw [stagedSwitch_eq]
  rw [hfinality] at hpasses
  exact hpasses

end

/-! ## Moves -/

/-- The block that an input brings: the imported one, or one that settles some of what was pending. -/
def Brings (M : Machine σ ρ) : NodeInput → Block → Prop
  | .importBlock _ imported _ _, block => imported = block
  | .produce _ _ _ pending _, block => ∀ a ∈ block.settlements M, a ∈ pending
  | _, _ => False

/-- A fork block is above the finalized height and is not the canonical block there, or it is next to the head. -/
def ForkPlace (Γ : Ctx) (r : RetainingNode σ ρ) (block : Block) : Prop :=
  (block.number ≤ r.node.head.number ∧ r.node.finality.lastFinalizedNumber < block.number ∧
      r.node.canonical block.number ≠ some (block.hash Γ)) ∨
    block.number = r.node.head.number + 1

/-- How an input moves a node. -/
inductive Moves (M : Machine σ ρ) (r : RetainingNode σ ρ) : NodeInput → RetainingNode σ ρ → Prop
  | stay (input : NodeInput) : Moves M r input r
  | store {now trie : Nat} {block : Block} {finalizedImport : Bool} {authorities : KeyTable}
      (hfork : ForkPlace M.toCtx r block) :
      Moves M r (.importBlock now block finalizedImport trie) { r.putBlock M.toCtx block with
        node := { r.node with
          knownAuthorities := authorities
          blocks := Function.update r.node.blocks (block.hash M.toCtx) (some block) } }
  | extend {input : NodeInput} {next : ChainNode σ ρ} {block : Block} {trie : Nat} (hbrings : Brings M input block)
      (hnext : CommittedNext M r.node next block) : Moves M r input (r.extend M next block trie)
  | adopt {now trie : Nat} {next : ChainNode σ ρ} {plan : ForkAdoptionPlan} {reverted : List (List ProofAmendment)}
      (hplan : preferredForkPlan M.toCtx r.node = .ok (some plan)) (hfacts : PlanFacts M.toCtx r.node plan)
      (hnext : AdoptedFork M r.node next plan)
      (hreverted : plan.oldChain.mapM (Block.revertedStarkSettlements M) = .ok reverted) :
      Moves M r (.adoptFork now trie) (r.switchBranch M next plan reverted trie)
  | recover {restored : ForkChoice} {finalized : Nat} {next : ChainNode σ ρ} {reverted : List (List ProofAmendment)}
      (hfinalized : r.node.finalizedNumber = some finalized) (hnext : RecoveredHead M r.node next finalized) :
      Moves M r (.recover restored) (reverted.foldl cancelSettledWitnessDeletes
        { r with node := next, chain := r.chain.take (finalized + 1) })
  | consensus {engine : Engine} {forkChoice : ForkChoice} {finality : FinalityState} {finalizedNumber : Option Nat} :
      Moves M r (.consensus engine forkChoice finality finalizedNumber) { r with node := { r.node with
        engine := engine, forkChoice := forkChoice, finality := finality, finalizedNumber := finalizedNumber } }

theorem moves_importBlock (r : RetainingNode σ ρ) (now : Nat) (block : Block) (finalizedImport : Bool) (trie : Nat) :
    Moves M r (.importBlock now block finalizedImport trie) (r.importBlock M now block finalizedImport trie) := by
  unfold RetainingNode.importBlock
  split
  · exact .stay _
  · rename_i next hnext
    have hside : importSideFork M now r.node block finalizedImport = .ok next → ForkPlace M.toCtx r block →
        Moves M r (.importBlock now block finalizedImport trie) { r.putBlock M.toCtx block with node := next } := by
      intro h hfork
      simp only [importSideFork, bind_ok_iff, mapError_ok_iff, pure_ok_iff] at h
      obtain ⟨_, -, pubkey, -, _, -, rfl⟩ := h
      exact .store hfork
    split
    · exact .stay _
    · rename_i hclass
      exact .extend rfl (committedNext_of_import hclass hnext)
    · exact .stay _
    · rename_i hclass
      simp only [importBlockInner, hclass, bind, Except.bind] at hnext
      refine hside hnext (.inl ?_)
      unfold ChainNode.classify classifyImport at hclass
      split_ifs at hclass with _ hfork <;> cases hclass
      exact hfork
    · rename_i hclass
      simp only [importBlockInner, hclass, bind, Except.bind] at hnext
      refine hside hnext (.inr ?_)
      unfold ChainNode.classify classifyImport at hclass
      split_ifs at hclass with _ _ _ _ hfork <;> cases hclass
      exact hfork.1

theorem moves_adoptFork (r : RetainingNode σ ρ) (now trie : Nat) :
    Moves M r (.adoptFork now trie) (r.adoptFork M now trie) := by
  unfold RetainingNode.adoptFork
  split
  · rename_i plan hplan
    split
    · rename_i next reverted hadopt hreverted
      have hfacts := planFacts_of_preferredForkPlan hplan
      exact .adopt hplan hfacts (adoptedFork_of_ok hfacts hadopt) hreverted
    · exact .stay _
  · exact .stay _

theorem moves_recover (r : RetainingNode σ ρ) (restored : ForkChoice) :
    Moves M r (.recover restored) (r.recover M restored) := by
  unfold RetainingNode.recover
  split
  · exact .stay _
  · rename_i finalized hfinalized
    split_ifs with hle
    · exact .stay _
    · split
      · rename_i next oldChain hnext hold
        split
        · exact .stay _
        · exact .recover hfinalized (recoveredHead_of_ok hfinalized hle hnext)
      · exact .stay _

theorem moves_step (hcodec : PayloadCodec M) (sign : Bytes → PQSignature) (pubkey : Bytes) (r : RetainingNode σ ρ)
    (input : NodeInput) : Moves M r input ((retentionSystem M sign pubkey).step r input) := by
  cases input with
  | produce timestamp maxTxs candidates pending trie =>
    change Moves M r _ (r.produce M sign pubkey timestamp maxTxs candidates pending trie)
    unfold RetainingNode.produce
    split
    · exact .stay _
    · rename_i next block h
      obtain ⟨hnext, hpending⟩ := committedNext_of_produce hcodec h
      exact .extend hpending hnext
  | importBlock now block finalizedImport trie => exact moves_importBlock r now block finalizedImport trie
  | adoptFork now trie => exact moves_adoptFork r now trie
  | recover restored => exact moves_recover r restored
  | consensus engine forkChoice finality finalizedNumber => exact .consensus

/-! ## The canonical chain -/

theorem getElem?_concat {chain : List Block} {b : Block} (h : (chain ++ [block])[n]? = some b) :
    chain[n]? = some b ∨ (n = chain.length ∧ b = block) := by
  rw [getElem?_append] at h
  split_ifs at h with hlt
  · exact .inl h
  · rw [getElem?_singleton] at h
    split_ifs at h
    exact .inr ⟨by omega, (Option.some.inj h).symm⟩

/-- The history of a node is its canonical chain: it reaches the head, its blocks are at their heights, the canonical
hashes that are left are those of its blocks, and each of them is a stored source. -/
structure Tracks (Γ : Ctx) (r : RetainingNode σ ρ) : Prop where
  length : r.chain.length = r.node.head.number + 1
  number : ∀ (n : Nat) (block : Block), r.chain[n]? = some block → block.number = n
  canonical : ∀ n hash, r.node.canonical n = some hash → ∃ block : Block, r.chain[n]? = some block ∧ block.hash Γ = hash
  stored : ∀ n hash, r.node.canonical n = some hash →
    r.node.storedArtifact hash = true ∨ (r.node.blocks hash).isSome = true

theorem Tracks.canonicalBelow (h : Tracks Γ r) : r.node.CanonicalBelow := by
  intro n hash hhash
  obtain ⟨block, hblock, -⟩ := h.canonical n hash hhash
  have hlt := (List.getElem?_eq_some_iff.mp hblock).1
  have hlength := h.length
  omega

theorem Tracks.number_le (h : Tracks Γ r) (hblock : block ∈ r.chain) : block.number ≤ r.node.head.number := by
  obtain ⟨n, hn⟩ := mem_iff_getElem?.mp hblock
  have hlt := (List.getElem?_eq_some_iff.mp hn).1
  have hnumber := h.number n block hn
  have hlength := h.length
  omega

/-- A chain whose blocks are at their heights is cut below a height. -/
theorem Tracks.number_lt_of_mem_take (h : Tracks Γ r) (hblock : block ∈ r.chain.take n) : block.number < n := by
  obtain ⟨i, hi⟩ := mem_iff_getElem?.mp hblock
  rw [getElem?_take] at hi
  split_ifs at hi with hlt
  rwa [h.number i block hi]

theorem Tracks.of_prunes (h : Tracks Γ r) (hp : Prunes W B r s) : Tracks Γ s where
  length := by rw [hp.chain, hp.head, h.length]
  number := by rw [hp.chain]; exact h.number
  canonical n hash hhash := by
    rw [hp.chain]
    exact h.canonical n hash (hp.canonical_of_some hhash)
  stored n hash hhash := by
    rcases h.stored n hash (hp.canonical_of_some hhash) with hstored | hsome
    · exact .inl (hp.stored hash hstored)
    · rcases hp.blocks hash with heq | ⟨heq, -⟩ | ⟨-, hstored, -⟩
      · exact .inr (by rw [heq, hsome])
      · exact .inr (by rw [heq, Option.isSome_map, hsome])
      · exact .inl hstored

theorem Tracks.staged (h : Tracks M.toCtx r) (hnext : CommittedNext M r.node next block) :
    Tracks M.toCtx (r.staged M next block) := by
  have hnumber := hnext.number
  have hlength := h.length
  obtain ⟨authorities, processed, rfl⟩ := hnext.next_eq
  rw [staged_eq]
  refine ⟨?_, ?_, ?_, ?_⟩
  · rw [length_append, hlength]
    exact congrArg (· + 1) hnumber.symm
  · intro n b hb
    rcases getElem?_concat hb with hb | ⟨rfl, rfl⟩
    · exact h.number n b hb
    · rw [hnumber, hlength]
  · intro n hash hhash
    rcases update_eq_some.mp hhash with ⟨rfl, rfl⟩ | ⟨-, hhash⟩
    · refine ⟨block, ?_, rfl⟩
      rw [getElem?_append_right (by omega)]
      simp [hlength, hnumber]
    · obtain ⟨b, hb, heq⟩ := h.canonical n hash hhash
      exact ⟨b, by rw [getElem?_append_left (List.getElem?_eq_some_iff.mp hb).1, hb], heq⟩
  · intro n hash hhash
    change r.node.storedArtifact hash = true ∨ (update r.node.blocks _ _ hash).isSome = true
    by_cases hb : hash = block.hash M.toCtx
    · exact .inr (by rw [hb, update_self]; rfl)
    · rw [update_of_ne hb]
      rcases update_eq_some.mp hhash with ⟨-, hb'⟩ | ⟨-, hhash⟩
      · exact absurd hb'.symm hb
      · exact h.stored n hash hhash

theorem Tracks.stagedSwitch {plan : ForkAdoptionPlan} (h : Tracks M.toCtx r) (hfacts : PlanFacts M.toCtx r.node plan)
    (hnext : AdoptedFork M r.node next plan) : Tracks M.toCtx (r.stagedSwitch M next plan reverted) := by
  have hlength := h.length
  have hancestor := hfacts.ancestor_le
  have htake : (r.chain.take (plan.ancestorNumber + 1)).length = plan.ancestorNumber + 1 := by
    rw [length_take]
    omega
  have hchain : ∀ n, (r.chain.take (plan.ancestorNumber + 1) ++ plan.newChain)[n]? =
      if n ≤ plan.ancestorNumber then r.chain[n]? else plan.newChain[n - (plan.ancestorNumber + 1)]? := by
    intro n
    by_cases hle : n ≤ plan.ancestorNumber
    · rw [if_pos hle, getElem?_append_left (by omega), getElem?_take_of_lt (by omega)]
    · rw [if_neg hle, getElem?_append_right (by omega), htake]
  rw [stagedSwitch_eq]
  refine ⟨?_, ?_, ?_, ?_⟩
  · rw [length_append, htake]
    change _ = next.head.number + 1
    rw [hnext.head, hfacts.preferred]
    omega
  · intro n block hblock
    simp only [hchain] at hblock
    split_ifs at hblock with hle
    · exact h.number n block hblock
    · have := (hfacts.newChain _ block hblock).1
      omega
  · intro n hash hhash
    simp only [hchain]
    change next.canonical n = some hash at hhash
    rw [hnext.canonical] at hhash
    split_ifs at hhash ⊢ with hle
    · exact h.canonical n hash hhash
    · exact Option.map_eq_some_iff.mp hhash
  · intro n hash hhash
    change next.canonical n = some hash at hhash
    change next.storedArtifact hash = true ∨ (next.blocks hash).isSome = true
    rw [hnext.canonical] at hhash
    rw [hnext.storedArtifact, hnext.blocks]
    split_ifs at hhash with hle
    · exact h.stored n hash hhash
    · obtain ⟨block, hblock, rfl⟩ := Option.map_eq_some_iff.mp hhash
      exact .inr (by rw [(hfacts.newChain _ block hblock).2.2]; rfl)

theorem Tracks.recovered {finalized : Nat} (h : Tracks M.toCtx r) (hnext : RecoveredHead M r.node next finalized) :
    Tracks M.toCtx { r with node := next, chain := r.chain.take (finalized + 1) } := by
  have hlength := h.length
  have hlt := hnext.lt
  have hhead := hnext.head
  obtain ⟨head, state, forkChoice, rfl⟩ := hnext.next_eq
  have hcut : ∀ n hash, (if n ≤ finalized then r.node.canonical n else none) = some hash →
      n ≤ finalized ∧ r.node.canonical n = some hash := by
    intro n hash hhash
    split_ifs at hhash with hle
    exact ⟨hle, hhash⟩
  refine ⟨?_, ?_, ?_, ?_⟩
  · rw [length_take]
    change _ = head.number + 1
    change head.number = finalized at hhead
    omega
  · intro n block hblock
    rw [getElem?_take] at hblock
    split_ifs at hblock
    exact h.number n block hblock
  · intro n hash hhash
    obtain ⟨hle, hhash⟩ := hcut n hash hhash
    rw [getElem?_take_of_lt (by omega)]
    exact h.canonical n hash hhash
  · intro n hash hhash
    exact h.stored n hash (hcut n hash hhash).2

/-- Every input keeps the history the canonical chain. -/
theorem Tracks.moves (h : Tracks M.toCtx r) (hmoves : Moves M r input s) : Tracks M.toCtx s := by
  cases hmoves with
  | stay => exact h
  | store _ =>
    rename_i block _ _ _
    refine ⟨h.length, h.number, h.canonical, fun n hash hhash => ?_⟩
    change r.node.storedArtifact hash = true ∨ (update r.node.blocks _ _ hash).isSome = true
    by_cases hb : hash = block.hash M.toCtx
    · exact .inr (by rw [hb, update_self]; rfl)
    · rw [update_of_ne hb]
      exact h.stored n hash hhash
  | extend _ hnext => exact (h.staged hnext).of_prunes (prunes_extend ..)
  | adopt _ hfacts hnext => exact (h.stagedSwitch hfacts hnext).of_prunes (prunes_switchBranch ..)
  | recover _ hnext =>
    rw [foldl_cancel_eq]
    have hrecovered := h.recovered hnext
    exact ⟨hrecovered.length, hrecovered.number, hrecovered.canonical, hrecovered.stored⟩
  | consensus => exact ⟨h.length, h.number, h.canonical, h.stored⟩

/-! ## Frontiers -/

theorem frontiersOk_of_prunes (h : FrontiersOk M r.node) (hp : Prunes W B r s) : FrontiersOk M s.node where
  sound layer frontier hfrontier n hn hash hhash := by
    have hlayer : (s.node.settlementView M).settledLayer hash = (r.node.settlementView M).settledLayer hash := by
      simp only [SettlementView.settledLayer, SettlementView.compressionLayerForSource, ChainNode.settlementView,
        hp.settledSources]
      rfl
    rw [hlayer]
    refine h.sound layer frontier ?_ n hn hash (hp.canonical_of_some hhash)
    change r.node.settledFrontiers layer = some frontier
    rw [← hp.settledFrontiers]
    exact hfrontier
  below layer frontier hfrontier := by
    rw [hp.head]
    rw [hp.settledFrontiers] at hfrontier
    exact h.below layer frontier hfrontier

end RetainingNode

end ShellChain
