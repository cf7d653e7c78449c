import ShellChain.Lemmas.SettlementSources

/-!
# The verdict of a node that has pruned

The ordering checks of a settlement read canonical hashes, and `BLOCKHASH` reads recent bodies. Two nodes on one chain
agree on a block when each of them still has the hashes of the blocks that a settlement can name and the bodies of the last
256 blocks, and holds the sources of unsettled blocks.
-/

namespace ShellChain

open Checks ChainNode SettlementView List Function

variable {σ ρ : Type} {M : Machine σ ρ}

/-! ## The ordering checks up to a layer -/

namespace SettlementView

variable {v w : SettlementView} {overlay : LayerOverlay} {limit : Nat}

namespace SameBelow

variable (hsame : SameBelow limit v w) {layer : Nat}

include hsame

/-- The sources of an accepted range are canonical for both and pass the check of their layers. -/
theorem sources {number : Nat} {hashes : List ShellHash} (hoverlay : v.OverlaySound overlay) (hlayer : layer ≤ limit)
    (hcanonical : v.checkCanonical number hashes = .ok ()) (hlayers : v.checkLayers overlay layer number hashes = .ok ()) :
    w.checkCanonical number hashes = .ok () ∧ w.checkLayers overlay layer number hashes = .ok () := by
  induction hashes generalizing number with
  | nil => exact ⟨rfl, rfl⟩
  | cons first rest ih =>
    rw [checkCanonical] at hcanonical ⊢
    simp only [checkLayers, bind_ok_iff, ensure_ok_iff, decide_eq_true_eq] at hlayers ⊢
    obtain ⟨_, -, _, hlt, _, hnext, hrest⟩ := hlayers
    split at hcanonical
    · cases hcanonical
    · rename_i canonical hfound
      split_ifs at hcanonical with hne
      obtain rfl := not_not.mp hne
      have hw := (hsame.below hoverlay (hlt.trans_le hlayer)).mp hfound
      obtain ⟨hcanonical, hlayers⟩ := ih hcanonical hrest
      refine ⟨by rw [hw]; simpa using hcanonical, (), (hsame.isSource hfound hw).2, (), ?_, (), ?_, hlayers⟩
      · rw [hsame.compressionLayer]
        exact hlt
      · rw [hsame.compressionLayer]
        exact hnext

theorem validateOrdering (hv : v.FrontiersSound) (hw : w.FrontiersSound) (hoverlay : v.OverlaySound overlay)
    {a : ProofAmendment} (hlayer : a.layer ≤ limit) (h : v.validateStarkAmendmentOrdering overlay a = .ok ()) :
    w.validateStarkAmendmentOrdering overlay a = .ok () := by
  simp only [validateStarkAmendmentOrdering, bind_ok_iff, ensure_ok_iff, decide_eq_true_eq] at h ⊢
  obtain ⟨start, hrange, _, hlayers, hstart⟩ := h
  obtain ⟨hcanonical, hlayers'⟩ := hsame.sources hoverlay hlayer (validateRange_ok hrange).2 hlayers
  refine ⟨start, ?_, (), hlayers', by rw [hsame.firstCanonicalBlockBelowLayer hv hw hoverlay hlayer, ← hstart]⟩
  simp only [validateStarkAmendmentRange, bind_ok_iff] at hrange ⊢
  obtain ⟨_, h1, _, h2, _, h3, _, h4, _, h5, hrange⟩ := hrange
  refine ⟨(), h1, (), h2, (), h3, (), h4, (), h5, ?_⟩
  split at hrange
  · exact absurd hrange throw_ne_ok
  · simp only [bind_ok_iff, pure_ok_iff] at hrange ⊢
    obtain ⟨_, h6, _, h7, _, -, rfl⟩ := hrange
    exact ⟨(), h6, (), h7, (), hcanonical, rfl⟩

/-- What one node accepts of the layers in question the other one accepts. -/
theorem validateSequence (hv : v.FrontiersSound) (hw : w.FrontiersSound) {amendments : List ProofAmendment}
    (hlayers : ∀ a ∈ amendments, a.layer ≤ limit) (h : v.validateStarkSettlementSequence amendments = .ok ()) :
    w.validateStarkSettlementSequence amendments = .ok () := by
  have hfrom : ∀ overlay, v.OverlaySound overlay → v.validateSequenceFrom overlay amendments = .ok () →
      w.validateSequenceFrom overlay amendments = .ok () := by
    clear h
    induction amendments with
    | nil =>
      intro overlay _ _
      rfl
    | cons a rest ih =>
      intro overlay hoverlay h
      rw [forall_mem_cons] at hlayers
      simp only [validateSequenceFrom, bind_ok_iff] at h ⊢
      obtain ⟨_, hfirst, hrest⟩ := h
      exact ⟨(), hsame.validateOrdering hv hw hoverlay hlayers.1 hfirst,
        ih hlayers.2 _ ((accepted_of_ordering hfirst).overlaySound hoverlay) hrest⟩
  exact hfrom _ (overlaySound_empty v) h

end SameBelow

end SettlementView

/-! ## The binding and the reward -/

/-- The source binding of the machine is that of the source: at the first layer it is the check of the stored blocks and
bundles, at the second one the blocks are not read, and there is no third. -/
structure BindsSources (M : Machine σ ρ) : Prop where
  first : ∀ (blocks : ShellHash → Option Block) (bundles : ShellHash → Option WitnessBundle) (a : ProofAmendment),
    a.layer = 1 → (∀ h ∈ a.coveredHashes, ∃ block, blocks h = some block ∧
      (block.transactions ≠ [] → bundles h = some (StrippedBlock.split block).2)) →
    M.proofSourceBinding blocks a = (validateL1ProofSourceBinding M blocks bundles a).toBool
  second : ∀ (blocks blocks' : ShellHash → Option Block) (a : ProofAmendment), a.layer = 2 →
    M.proofSourceBinding blocks a = M.proofSourceBinding blocks' a
  supported : ∀ (blocks : ShellHash → Option Block) (a : ProofAmendment), M.proofSourceBinding blocks a = true → a.layer ≤ 2

theorem BindsSources.bindsLayers (h : BindsSources M) : BindsLayers M :=
  fun blocks a ha => (h.supported blocks a ha).trans (by decide)

/-- The loop over the sources reads the covered blocks only, and the bundles of those with transactions. -/
theorem canonicalL1Sources_congr {Γ : Ctx} {blocks blocks' : ShellHash → Option Block}
    {bundles bundles' : ShellHash → Option WitnessBundle} {hashes : List ShellHash}
    (h : ∀ hash ∈ hashes, ∃ block, blocks hash = some block ∧ blocks' hash = some block ∧
      (block.transactions ≠ [] → bundles' hash = bundles hash)) (entries : List SigBatchEntry) (size : Nat) :
    canonicalL1Sources Γ blocks' bundles' entries size hashes = canonicalL1Sources Γ blocks bundles entries size hashes := by
  induction hashes generalizing entries size with
  | nil => rfl
  | cons source rest ih =>
    rw [forall_mem_cons] at h
    obtain ⟨⟨block, hblock, hblock', hbundle⟩, hrest⟩ := h
    have hsize : canonicalL1SourceSize bundles' source block (blockToSigBatchEntries Γ block).length =
        canonicalL1SourceSize bundles source block (blockToSigBatchEntries Γ block).length := by
      by_cases hnil : block.transactions = []
      · simp [canonicalL1SourceSize, blockToSigBatchEntries, entriesFromTxs, hnil]
      · rw [canonicalL1SourceSize, canonicalL1SourceSize, hbundle hnil]
    simp only [canonicalL1Sources, hblock, hblock', hsize, ih hrest]

theorem mapM_option_congr {α β : Type} {f g : α → Option β} {l : List α} (h : ∀ x ∈ l, f x = g x) :
    l.mapM f = l.mapM g := by
  induction l with
  | nil => rfl
  | cons x rest ih =>
    rw [forall_mem_cons] at h
    simp only [mapM_cons, h.1, ih h.2]

namespace RetainingNode

variable {r s : RetainingNode σ ρ}

/-- Every covered hash is that of a canonical block that is not settled at the first layer. -/
def CoversUnsettled (Γ : Ctx) (r : RetainingNode σ ρ) (a : ProofAmendment) : Prop :=
  ∀ h ∈ a.coveredHashes, (1, h) ∉ r.node.settledSources ∧ ∃ block ∈ r.chain, block.hash Γ = h

namespace KeepsSources

variable {a : ProofAmendment} (hr : KeepsSources M r) (hs : KeepsSources M s) (hchain : s.chain = r.chain)

include hr hs hchain

/-- Both nodes hold the sources of what is not settled. -/
theorem both (ha : r.CoversUnsettled M.toCtx a) :
    ∀ h ∈ a.coveredHashes, ∃ block : Block, r.node.blocks h = some block ∧ s.node.blocks h = some block ∧
      (block.transactions ≠ [] → r.bundles h = some (StrippedBlock.split block).2 ∧ s.bundles h = r.bundles h) := by
  intro h hh
  obtain ⟨hunsettled, block, hblock, rfl⟩ := ha h hh
  have hsettled : s.node.settledSources = r.node.settledSources := by
    rw [hr.anchored.settledByChain.settled, hs.anchored.settledByChain.settled, hchain]
  obtain ⟨hbody, hbundle⟩ := hr.sources block hblock hunsettled
  obtain ⟨hbody', hbundle'⟩ := hs.sources block (hchain ▸ hblock) (hsettled ▸ hunsettled)
  exact ⟨block, hbody, hbody', fun htxs => ⟨hbundle htxs, by rw [hbundle htxs, hbundle' htxs]⟩⟩

theorem validateL1_eq (ha : r.CoversUnsettled M.toCtx a) :
    s.validateL1ProofSourceBinding M a = r.validateL1ProofSourceBinding M a := by
  have hsources := canonicalL1Sources_congr (Γ := M.toCtx) (fun h hh => by
    obtain ⟨block, hblock, hblock', hbundle⟩ := hr.both hs hchain ha h hh
    exact ⟨block, hblock, hblock', fun htxs => (hbundle htxs).2⟩) [] 0
  simp only [RetainingNode.validateL1ProofSourceBinding, ShellChain.validateL1ProofSourceBinding, hsources]

theorem starkRewardValue_eq (ha : a.layer = 1 → r.CoversUnsettled M.toCtx a) :
    (s.node.settlementView M).starkRewardValue a = (r.node.settlementView M).starkRewardValue a := by
  unfold starkRewardValue
  split_ifs with hinvalid hlayer
  · rfl
  · have hcounts : a.coveredHashes.mapM (s.node.settlementView M).transactionCount =
        a.coveredHashes.mapM (r.node.settlementView M).transactionCount := by
      refine mapM_option_congr fun h hh => ?_
      obtain ⟨block, hblock, hblock', -⟩ := hr.both hs hchain (ha hlayer) h hh
      simp only [settlementView, hblock, hblock']
    rw [hcounts]
  · rfl

/-- The binding of what the ordering checks admit is the same on both nodes. -/
theorem proofSourceBinding_eq (hbinds : BindsSources M) (hpos : 1 ≤ a.layer) (hle : a.layer ≤ 2)
    (ha : a.layer = 1 → r.CoversUnsettled M.toCtx a) :
    M.proofSourceBinding s.node.blocks a = M.proofSourceBinding r.node.blocks a := by
  by_cases hlayer : a.layer = 1
  · have hboth := hr.both hs hchain (ha hlayer)
    have hverdict := hr.validateL1_eq hs hchain (ha hlayer)
    rw [hbinds.first r.node.blocks r.bundles a hlayer, hbinds.first s.node.blocks s.bundles a hlayer]
    · exact congrArg Except.toBool hverdict
    · intro h hh
      obtain ⟨block, -, hblock, hbundle⟩ := hboth h hh
      exact ⟨block, hblock, fun htxs => (hbundle htxs).2.trans (hbundle htxs).1⟩
    · intro h hh
      obtain ⟨block, hblock, -, hbundle⟩ := hboth h hh
      exact ⟨block, hblock, fun htxs => (hbundle htxs).1⟩
  · exact hbinds.second _ _ a (by omega)

end KeepsSources

/-! ## What import reads of old blocks -/

/-- How far back `BLOCKHASH` looks. -/
def blockHashWindow : Nat :=
  256

/-- The heights that may have lost their bodies or their canonical hashes. -/
def prunedBelow (r : RetainingNode σ ρ) : Nat :=
  max r.bodyPrunedBelow r.statePruner.prunableBelow

/-- A block that import may still read by its height: it is recent, or not settled at the second layer. -/
def Readable (M : Machine σ ρ) (r : RetainingNode σ ρ) (n : Nat) (block : Block) : Prop :=
  r.node.head.number < n + blockHashWindow ∨ (2, block.hash M.toCtx) ∉ r.node.settledSources

/-- The bodies of the recent blocks are stored, nothing that may still be read is behind the cursors, and its canonical hash
is there. -/
structure KeepsReads (M : Machine σ ρ) (r : RetainingNode σ ρ) : Prop where
  head : r.chain[r.node.head.number]? = some r.node.head
  recent : ∀ (n : Nat) (block : Block), r.chain[n]? = some block → r.node.head.number < n + blockHashWindow →
    (r.node.blocks (block.hash M.toCtx)).isSome = true
  behind : ∀ (n : Nat) (block : Block), r.chain[n]? = some block → r.Readable M n block → r.prunedBelow ≤ n
  canonical : ∀ (n : Nat) (block : Block), r.chain[n]? = some block → r.Readable M n block →
    r.node.canonical n = some (block.hash M.toCtx)

/-- The body window reaches back further than `BLOCKHASH` when a block has been committed. -/
def KeepsRecent (r : RetainingNode σ ρ) : NodeInput → Prop
  | .importBlock _ block _ _ => ∀ n, r.Behind n → n + blockHashWindow ≤ block.number
  | _ => True

/-- What a commit leaves of a node before it prunes. -/
structure CommitFrame (M : Machine σ ρ) (r staged : RetainingNode σ ρ) (block : Block) : Prop where
  chain : staged.chain = r.chain ++ [block]
  pruning : staged.pruning = r.pruning
  finalizedHeight : staged.finalizedHeight = r.finalizedHeight
  head : staged.node.head = block
  prunedBelow : staged.prunedBelow = r.prunedBelow
  blocks : staged.node.blocks = Function.update r.node.blocks (block.hash M.toCtx) (some block)
  canonical : staged.node.canonical = Function.update r.node.canonical block.number (some (block.hash M.toCtx))

variable {block : Block} {next node : ChainNode σ ρ} {input input' : NodeInput} {finalizedImport : Bool} {now : Nat}
  {pubkey pubkey' : Bytes} {sign sign' : Bytes → PQSignature}

theorem KeepsReads.extend {trie : Nat} (h : KeepsReads M r) (hsources : KeepsSources M r)
    (hnext : CommittedNext M r.node next block) (hdistinct : DistinctHashes M.toCtx (r.chain ++ [block]))
    (hbehind : ∀ (n : Nat) (covered : Block), (r.chain ++ [block])[n]? = some covered → r.Behind n →
      (2, covered.hash M.toCtx) ∈ chainKeys M (r.chain ++ [block]))
    (hrecent : ∀ n, r.Behind n → n + blockHashWindow ≤ block.number) : KeepsReads M (r.extend M next block trie) := by
  have hp := prunes_extend (M := M) r next block trie
  have hframe : CommitFrame M r (r.staged M next block) block := by
    rw [staged_eq]
    obtain ⟨authorities, processed, rfl⟩ := hnext.next_eq
    exact ⟨rfl, rfl, rfl, rfl, rfl, rfl, rfl⟩
  have htracks := hsources.anchored.settledByChain.tracks
  have hnumber := hnext.number
  have hlength := htracks.length
  have hchain := r.chain_extend (M := M) next block trie
  have hhead : (r.extend M next block trie).node.head = block := by rw [hp.head, hframe.head]
  have hsettled : (r.extend M next block trie).node.settledSources = (chainKeys M (r.chain ++ [block])).toFinset := by
    rw [hp.settledSources, hsources.settledSources_staged hnext]
  have hlast : (r.chain ++ [block])[block.number]? = some block := by
    rw [getElem?_append_right (by omega)]
    simp [hlength, hnumber]
  -- what may be read afterwards could be read before, or is the new block
  have hkept : ∀ (n : Nat) (b : Block), (r.chain ++ [block])[n]? = some b →
      (r.extend M next block trie).Readable M n b → r.prunedBelow ≤ n ∧ ¬ r.Behind n ∧
        (r.staged M next block).node.canonical n = some (b.hash M.toCtx) := by
    intro n b hb hreadable
    rw [Readable, hhead, hsettled, mem_toFinset] at hreadable
    have hnot : ¬ r.Behind n := by
      intro hn
      rcases hreadable with hlt | hunsettled
      · have := hrecent n hn
        omega
      · exact hunsettled (hbehind n b hb hn)
    rw [hframe.canonical]
    rcases getElem?_concat hb with hold | ⟨rfl, rfl⟩
    · have hreadable' : r.Readable M n b := by
        refine hreadable.imp (fun hlt => by omega) fun hunsettled hmem => hunsettled ?_
        rw [hsources.anchored.settledByChain.settled, mem_toFinset] at hmem
        rw [chainKeys_append]
        exact mem_append_left _ hmem
      have hlt := (List.getElem?_eq_some_iff.mp hold).1
      rw [update_of_ne (by omega)]
      exact ⟨h.behind n b hold hreadable', hnot, h.canonical n b hold hreadable'⟩
    · have hbelow := h.behind _ _ h.head (.inl (by unfold blockHashWindow; omega))
      have heq : r.chain.length = b.number := by omega
      rw [heq, update_self]
      exact ⟨by omega, heq ▸ hnot, rfl⟩
  have hwindow : ∀ n, ¬ r.Behind n → r.prunedBelow ≤ n → (r.extend M next block trie).prunedBelow ≤ n ∧
      (r.extend M next block trie).node.canonical n = (r.staged M next block).node.canonical n := by
    intro n hn hle
    have hfrom : (r.staged M next block).WindowFrom n := by
      unfold WindowFrom
      rw [hframe.pruning, hframe.finalizedHeight]
      by_cases hzero : r.pruning.bodyRetention = 0
      · exact .inl hzero
      · exact .inr (Nat.le_of_not_lt fun hlt => hn ⟨hzero, hlt⟩)
    rw [← hframe.prunedBelow] at hle
    obtain ⟨hbody, hprunable, hcanonical⟩ := hp.windowed n hfrom ((Nat.le_max_left _ _).trans hle)
      ((Nat.le_max_right _ _).trans hle)
    exact ⟨Nat.max_le.mpr ⟨hbody, hprunable⟩, hcanonical n (Nat.le_refl n)⟩
  refine ⟨?_, ?_, ?_, ?_⟩
  · rw [hchain, hhead, hlast]
  · intro n b hb hlt
    rw [hchain] at hb
    obtain ⟨-, hnot, -⟩ := hkept n b hb (.inl hlt)
    have hstored : ((r.staged M next block).node.blocks (b.hash M.toCtx)).isSome = true := by
      rw [hframe.blocks]
      rcases getElem?_concat hb with hold | ⟨-, rfl⟩
      · rw [update_of_ne (hdistinct.ne_last b (mem_of_getElem? hold))]
        refine h.recent n b hold ?_
        rw [hhead] at hlt
        omega
      · rw [update_self]
        rfl
    rcases hp.blocks (b.hash M.toCtx) with heq | ⟨heq, -⟩ | ⟨-, -, hretention, m, hm, hcutoff⟩
    · rw [heq, hstored]
    · rw [heq, Option.isSome_map, hstored]
    · obtain ⟨covered, hcovered, hhash⟩ := (htracks.staged hnext).canonical m _ hm
      rw [hframe.chain] at hcovered
      obtain rfl := hdistinct m n covered b hcovered hb hhash
      rw [hframe.pruning] at hretention hcutoff
      rw [hframe.finalizedHeight] at hcutoff
      exact absurd ⟨hretention, hcutoff⟩ hnot
  · intro n b hb hreadable
    rw [hchain] at hb
    obtain ⟨hle, hnot, -⟩ := hkept n b hb hreadable
    exact (hwindow n hnot hle).1
  · intro n b hb hreadable
    rw [hchain] at hb
    obtain ⟨hle, hnot, hcanonical⟩ := hkept n b hb hreadable
    rw [(hwindow n hnot hle).2, hcanonical]

theorem KeepsReads.moves (h : KeepsReads M r) (hsources : KeepsSources M r) (hkeeps : KeepsChain M r input)
    (hsettled : ImportsSettled M 2 r input) (hrecent : r.KeepsRecent input) (hmoves : Moves M r input s)
    (hdistinct : DistinctHashes M.toCtx s.chain) : KeepsReads M s := by
  cases hmoves with
  | stay => exact h
  | store hfork =>
    rename_i fork _ _
    have hne := hsources.anchored.hash_ne_of_fork hfork hkeeps
    refine ⟨h.head, fun n b hb hlt => ?_, h.behind, h.canonical⟩
    change (update r.node.blocks (fork.hash M.toCtx) (some fork) (b.hash M.toCtx)).isSome = true
    rw [update_of_ne (hne b (mem_of_getElem? hb)).symm]
    exact h.recent n b hb hlt
  | extend hbrings hnext =>
    rename_i next block trie
    rw [chain_extend] at hdistinct
    cases input with
    | importBlock now imported finalizedImport trie =>
      obtain rfl : imported = block := hbrings
      exact h.extend hsources hnext hdistinct (hsettled hnext.number) hrecent
    | produce | adoptFork | recover => exact hsettled.elim
    | consensus => exact hbrings.elim
  | adopt | recover => exact hsettled.elim
  | consensus => exact ⟨h.head, h.recent, h.behind, h.canonical⟩

/-! ## The verdict on a block -/

/-- Contracts see the hashes of the last 256 blocks only. -/
def ReadsRecentHashes (M : Machine σ ρ) : Prop :=
  ∀ (ctx : ExecContext) (blockHash : Nat → Option ShellHash),
    (∀ n, n < ctx.env.number → ctx.env.number ≤ n + blockHashWindow → blockHash n = ctx.blockHash n) →
    ∀ stx, SameContracts M ctx ctx.headNumber blockHash stx

/-- The block that import finds for a recent height is that of the chain, up to its witnesses. -/
theorem KeepsReads.blockHashAt (h : KeepsReads M r) (hsources : KeepsSources M r) {n : Nat}
    (hblock : r.chain[n]? = some block) (hlt : r.node.head.number < n + blockHashWindow) :
    r.node.blockHashAt M.toCtx n = some (block.hash M.toCtx) := by
  obtain ⟨stored, hstored⟩ := Option.isSome_iff_exists.mp (h.recent n block hblock hlt)
  have hheader := (hsources.anchored.faithful.stored block stored (mem_of_getElem? hblock) hstored).1
  rw [ChainNode.blockHashAt, h.canonical n block hblock (.inl hlt), Option.bind_some, hstored, Option.map_some]
  simp only [Block.hash, hheader]

/-- The settlements that the ordering checks admit cover unsettled blocks of the chain at the first layer. -/
theorem KeepsSources.coversUnsettled (hr : KeepsSources M r) (hsettles : Settles M r.node block) {a : ProofAmendment}
    (ha : a ∈ block.settlements M) : 1 ≤ a.layer ∧ (a.layer = 1 → r.CoversUnsettled M.toCtx a) := by
  refine validateSequence_induction (v := r.node.settlementView M)
    (I := (r.node.settlementView M).OverlaySound)
    (Q := fun a => 1 ≤ a.layer ∧ (a.layer = 1 → r.CoversUnsettled M.toCtx a))
    ?_ (overlaySound_empty _) hsettles.sequence a ha
  intro overlay a _ hoverlay haccepted
  refine ⟨haccepted.overlaySound hoverlay, haccepted.layer_pos, fun hlayer h hh => ⟨fun hmem => ?_, ?_⟩⟩
  · have hle := le_settledLayer (v := r.node.settlementView M) (by decide) hmem
    have hlt := (settledLayer_le_compressionLayer hoverlay h).trans_lt (haccepted.below h hh)
    omega
  · obtain ⟨n, hn⟩ := haccepted.canonical h hh
    obtain ⟨block, hblock, rfl⟩ := hr.anchored.settledByChain.tracks.canonical n h hn
    exact ⟨block, mem_of_getElem? hblock, rfl⟩

theorem verifyHeaderChecks_parent {parent other : Block} (h : other.header = parent.header) :
    verifyHeaderChecks M node now block other finalizedImport =
      verifyHeaderChecks M node now block parent finalizedImport := by
  obtain ⟨header, _, _, _⟩ := parent
  obtain ⟨_, _, _, _⟩ := other
  obtain rfl : _ = header := h
  rfl

/-- The node with a block on its head, after its checks. -/
def commitNext (M : Machine σ ρ) (node : ChainNode σ ρ) (block : Block) (pubkey : Bytes) (processed : Processed σ ρ) :
    ChainNode σ ρ :=
  ((node.noteAuthority block.header.proposer pubkey).commitCanonical M.toCtx block processed).recordSettledSources
    processed.settlements

/-- The nodes differ only in what they retain and in the frontiers they have cached. -/
def SameLive (r s : RetainingNode σ ρ) : Prop :=
  s.chain = r.chain ∧ s.node = { r.node with
    blocks := s.node.blocks, canonical := s.node.canonical, storedArtifact := s.node.storedArtifact,
    settledFrontiers := s.node.settledFrontiers }

/-- What two nodes keep together: their sources, what import reads, and all but what they retain in common. -/
structure Agree (M : Machine σ ρ) (r s : RetainingNode σ ρ) : Prop where
  sourcesLeft : KeepsSources M r
  sourcesRight : KeepsSources M s
  readsLeft : KeepsReads M r
  readsRight : KeepsReads M s
  live : SameLive r s

theorem Agree.symm (h : Agree M r s) : Agree M s r :=
  ⟨h.sourcesRight, h.sourcesLeft, h.readsRight, h.readsLeft, h.live.1.symm, by rw [h.live.2]⟩

namespace Agree

variable (hagree : Agree M r s)

include hagree

theorem head : s.node.head = r.node.head := by
  rw [hagree.live.2]

theorem settledSources : s.node.settledSources = r.node.settledSources := by
  rw [hagree.live.2]

/-- Two nodes on one chain agree on the canonical blocks that are not settled at the second layer. -/
theorem sameBelow : SettlementView.SameBelow 2 (r.node.settlementView M) (s.node.settlementView M) := by
  -- a canonical hash of one node that is not settled at the second layer is one of the other
  have hmap : ∀ {t u : RetainingNode σ ρ}, KeepsSources M t → KeepsReads M u → u.chain = t.chain →
      u.node.settledSources = r.node.settledSources → ∀ n h, (r.node.settlementView M).settledLayer h < 2 →
      t.node.canonical n = some h → u.node.canonical n = some h := by
    intro t u ht hu hchain hsame n h hlt hn
    obtain ⟨block, hblock, rfl⟩ := ht.anchored.settledByChain.tracks.canonical n h hn
    refine hu.canonical n block (hchain ▸ hblock) (.inr fun hmem => ?_)
    have hle := le_settledLayer (v := r.node.settlementView M) (by decide) (hsame ▸ hmem)
    omega
  refine ⟨congrArg Block.number hagree.head, hagree.settledSources, fun n h hlt => ⟨?_, ?_⟩, fun n h hv hw => ⟨?_, ?_⟩⟩
  · exact hmap hagree.sourcesLeft hagree.readsRight hagree.live.1 hagree.settledSources n h hlt
  · exact hmap hagree.sourcesRight hagree.readsLeft hagree.live.1.symm rfl n h hlt
  · simpa [settlementView] using hagree.sourcesLeft.anchored.settledByChain.tracks.stored n h hv
  · simpa [settlementView] using hagree.sourcesRight.anchored.settledByChain.tracks.stored n h hw

variable {block : Block}

/-- The settlements that one node accepts the other one accepts, with the same rewards. -/
theorem checkedSettlements_of_ok (hbinds : BindsSources M) {registry : AlgorithmRegistry} {settlements : List ProofAmendment}
    (h : checkedSettlements M (r.node.settlementView M) registry block = .ok settlements) :
    checkedSettlements M (s.node.settlementView M) registry block = .ok settlements ∧
      ∀ a ∈ settlements, (s.node.settlementView M).starkRewardValue a = (r.node.settlementView M).starkRewardValue a := by
  obtain ⟨hsettles, rfl⟩ := settles_of_checkedSettlements h
  have hcovers := fun a ha => hagree.sourcesLeft.coversUnsettled hsettles (a := a) ha
  have hle : ∀ a ∈ block.settlements M, a.layer ≤ 2 := fun a ha => hbinds.supported _ a (hsettles.binding a ha)
  have hsequence := hagree.sameBelow.validateSequence hagree.sourcesLeft.anchored.settledByChain.frontiers.sound
    hagree.sourcesRight.anchored.settledByChain.frontiers.sound hle hsettles.sequence
  refine ⟨?_, fun a ha => hagree.sourcesLeft.starkRewardValue_eq hagree.sourcesRight hagree.live.1 (hcovers a ha).2⟩
  simp only [checkedSettlements, bind_ok_iff, ensure_ok_iff, mapError_ok_iff, pure_ok_iff, decide_eq_true_eq] at h ⊢
  obtain ⟨extra, hextra, _, hnil, settlements, hdecoded, _, -, _, hchecks, heq⟩ := h
  rw [heq] at hdecoded hchecks
  refine ⟨extra, hextra, (), hnil, _, hdecoded, (), hsequence, (), ?_, rfl⟩
  rw [← hchecks]
  refine forM_congr fun a ha => ?_
  have hbinding : (s.node.settlementView M).sourceBinding a = (r.node.settlementView M).sourceBinding a :=
    hagree.sourcesLeft.proofSourceBinding_eq hagree.sourcesRight hagree.live.1 hbinds (hcovers a ha).1 (hle a ha)
      (hcovers a ha).2
  rw [hbinding]

/-- The context of a block is the same up to the hashes of blocks that contracts do not see. -/
theorem sameContracts (hreads : ReadsRecentHashes M) (hnumber : block.number = r.node.head.number + 1)
    (stx : SignedTransaction) :
    SameContracts M (r.node.execContext M.toCtx block.header) r.node.head.number (s.node.blockHashAt M.toCtx) stx := by
  refine hreads (r.node.execContext M.toCtx block.header) _ (fun n hlt hle => ?_) stx
  change n < block.number at hlt
  change block.number ≤ n + blockHashWindow at hle
  change s.node.blockHashAt M.toCtx n = r.node.blockHashAt M.toCtx n
  have hlength := hagree.sourcesLeft.anchored.settledByChain.tracks.length
  obtain ⟨covered, hcovered⟩ : ∃ covered, r.chain[n]? = some covered :=
    ⟨_, getElem?_eq_getElem (by omega)⟩
  rw [hagree.readsLeft.blockHashAt hagree.sourcesLeft hcovered (by omega), hagree.readsRight.blockHashAt
    hagree.sourcesRight (hagree.live.1 ▸ hcovered) (by rw [hagree.head]; omega)]

theorem processBlock_ok (hbinds : BindsSources M) (hreads : ReadsRecentHashes M)
    (hnumber : block.number = r.node.head.number + 1) {processed : Processed σ ρ}
    (h : processBlock M (r.node.execContext M.toCtx block.header) (r.node.settlementView M) r.node.state block =
      .ok processed) :
    processBlock M (s.node.execContext M.toCtx block.header) (s.node.settlementView M) s.node.state block =
      .ok processed := by
  have hctx : s.node.execContext M.toCtx block.header = (r.node.execContext M.toCtx block.header).withChain
      r.node.head.number (s.node.blockHashAt M.toCtx) := by
    have hconfig : s.node.config = r.node.config := by rw [hagree.live.2]
    simp only [execContext, ExecContext.withChain, hconfig, hagree.head]
  have hstate : s.node.state = r.node.state := by rw [hagree.live.2]
  have halike : ReadsAlike M (r.node.execContext M.toCtx block.header) _ (r.node.settlementView M)
      (s.node.settlementView M) r.node.state block :=
    readsAlike_of_sameContracts (fun stx _ => hagree.sameContracts hreads hnumber stx)
      (fun _ => ⟨fun h => (hagree.symm.checkedSettlements_of_ok hbinds h).1,
        fun h => (hagree.checkedSettlements_of_ok hbinds h).1⟩) fun _ h => (hagree.checkedSettlements_of_ok hbinds h).2
  rw [hctx, hstate]
  exact (halike.processBlock_iff processed).mpr h

/-- A block on the head that one node accepts the other one accepts, with the same effect. -/
theorem importBlockInner_ok (hbinds : BindsSources M) (hreads : ReadsRecentHashes M)
    (hnext : r.node.head.Extends M.toCtx block) (h : importBlockInner M now r.node block finalizedImport = .ok next) :
    ∃ pubkey processed, next = commitNext M r.node block pubkey processed ∧
      importBlockInner M now s.node block finalizedImport = .ok (commitNext M s.node block pubkey processed) ∧
      r.node.classify M.toCtx block = .ok .canonicalNext ∧ s.node.classify M.toCtx block = .ok .canonicalNext := by
  have hnone : ∀ {t : RetainingNode σ ρ}, KeepsSources M t → t.node.head = r.node.head →
      t.node.canonical block.number = none := by
    intro t ht heq
    by_contra hsome
    obtain ⟨hash, hhash⟩ := Option.ne_none_iff_exists'.mp hsome
    have hle := ht.anchored.settledByChain.tracks.canonicalBelow _ hash hhash
    have hnumber := hnext.1
    rw [heq] at hle
    omega
  have hclassify : s.node.classify M.toCtx block = r.node.classify M.toCtx block := by
    have hfinality : s.node.finality = r.node.finality := by rw [hagree.live.2]
    rw [classify, classify, hnone hagree.sourcesLeft rfl, hnone hagree.sourcesRight hagree.head, hagree.head, hfinality]
  have hparents : ∀ {t : RetainingNode σ ρ}, KeepsSources M t → KeepsReads M t → t.node.head = r.node.head →
      ∃ parent, t.node.blocks block.header.parentHash = some parent ∧ parent.header = r.node.head.header := by
    intro t ht hreads heq
    obtain ⟨parent, hparent⟩ := Option.isSome_iff_exists.mp (hreads.recent _ _ hreads.head
      (by unfold blockHashWindow; omega))
    refine ⟨parent, ?_, ?_⟩
    · rw [hnext.2, ← heq, hparent]
    · rw [← heq]
      exact (ht.anchored.faithful.stored _ parent (mem_of_getElem? hreads.head) hparent).1
  obtain ⟨parent', hparent', hheader'⟩ := hparents hagree.sourcesRight hagree.readsRight hagree.head
  simp only [importBlockInner, bind_ok_iff] at h ⊢
  obtain ⟨transition, hclass, h⟩ := h
  obtain rfl := classify_of_extends hnext hclass
  simp only [importCanonicalNext, bind_ok_iff, mapError_ok_iff, pure_ok_iff] at h
  obtain ⟨parent, hfound, pubkey, hchecks, processed, hprocessed, rfl⟩ := h
  have hparent := parentForImport_ok hfound
  obtain ⟨found, hfound', hheader⟩ := hparents hagree.sourcesLeft hagree.readsLeft rfl
  obtain rfl := Option.some.inj (hparent.symm.trans hfound')
  refine ⟨pubkey, processed, rfl, ⟨.canonicalNext, hclassify.trans hclass, ?_⟩, hclass, hclassify.trans hclass⟩
  simp only [importCanonicalNext, bind_ok_iff, mapError_ok_iff, pure_ok_iff]
  refine ⟨parent', ?_, pubkey, ?_, processed, ?_, rfl⟩
  · rw [parentForImport, if_neg (by rw [hnext.1]; exact Nat.succ_ne_zero _), hparent']
  · rw [verifyHeaderChecks_parent (hheader'.trans hheader.symm), ← hchecks]
    exact verifyHeaderChecks_congr (by rw [hagree.live.2]) (by rw [hagree.live.2])
      (by rw [authorityPubkey, authorityPubkey, hagree.live.2])
  · exact hagree.processBlock_ok hbinds hreads hnext.1 hprocessed

end Agree

/-! ## Two nodes that import the same blocks -/

/-- The inputs differ at most in how far the state tries have been pruned. -/
inductive SameInput : NodeInput → NodeInput → Prop
  | importBlock (now : Nat) (block : Block) (finalizedImport : Bool) (trie trie' : Nat) :
      SameInput (.importBlock now block finalizedImport trie) (.importBlock now block finalizedImport trie')
  | consensus (engine : Engine) (forkChoice : ForkChoice) (finality : FinalityState) (finalizedNumber : Option Nat) :
      SameInput (.consensus engine forkChoice finality finalizedNumber)
        (.consensus engine forkChoice finality finalizedNumber)

/-- An imported block is on the head. -/
def ImportsNext (M : Machine σ ρ) (r : RetainingNode σ ρ) : NodeInput → Prop
  | .importBlock _ block _ _ => r.node.head.Extends M.toCtx block
  | _ => True

theorem SameLive.commit (h : SameLive r s) (block : Block) (pubkey : Bytes) (processed : Processed σ ρ)
    (trie trie' : Nat) : SameLive (r.extend M (commitNext M r.node block pubkey processed) block trie)
      (s.extend M (commitNext M s.node block pubkey processed) block trie') := by
  have hnode : ∀ (t : RetainingNode σ ρ) next trie, (t.extend M next block trie).node = { next with
      blocks := (t.extend M next block trie).node.blocks
      canonical := (t.extend M next block trie).node.canonical
      storedArtifact := (t.extend M next block trie).node.storedArtifact } := by
    intro t next trie
    have hprunes := (prunes_extend (M := M) t next block trie).node
    rw [staged_eq] at hprunes
    exact hprunes
  refine ⟨by rw [chain_extend, chain_extend, h.1], ?_⟩
  rw [hnode s, hnode r]
  have hlive : commitNext M s.node block pubkey processed =
      { commitNext M r.node block pubkey processed with
        blocks := (commitNext M s.node block pubkey processed).blocks
        canonical := (commitNext M s.node block pubkey processed).canonical
        storedArtifact := (commitNext M s.node block pubkey processed).storedArtifact
        settledFrontiers := (commitNext M s.node block pubkey processed).settledFrontiers } := by
    rw [h.2]
    rfl
  rw [hlive]

/-- The import of a block on the head by both nodes. -/
theorem Agree.importBlock (hbinds : BindsSources M) (hreads : ReadsRecentHashes M) (h : Agree M r s) (trie trie' : Nat)
    (hnext : r.node.head.Extends M.toCtx block) :
    SameLive (r.importBlock M now block finalizedImport trie) (s.importBlock M now block finalizedImport trie') := by
  cases hresult : importBlockInner M now r.node block finalizedImport with
  | ok next =>
    obtain ⟨pubkey, processed, rfl, hother, hclass, hclass'⟩ := h.importBlockInner_ok hbinds hreads hnext hresult
    simp only [RetainingNode.importBlock, hresult, hother, hclass, hclass']
    exact h.live.commit block pubkey processed trie trie'
  | error e =>
    cases hother : importBlockInner M now s.node block finalizedImport with
    | ok next =>
      obtain ⟨_, _, -, hok, -⟩ := h.symm.importBlockInner_ok hbinds hreads (h.head.symm ▸ hnext) hother
      rw [hresult] at hok
      cases hok
    | error e' =>
      simp only [RetainingNode.importBlock, hresult, hother]
      exact h.live

/-- The blocks behind the body window are settled at the second layer too, and the window is longer than that of
`BLOCKHASH`. -/
def KeepsInputs (M : Machine σ ρ) (r : RetainingNode σ ρ) (input : NodeInput) : Prop :=
  ImportsSettled M 2 r input ∧ r.KeepsRecent input

theorem Agree.step (hcodec : PayloadCodec M) (hbinds : BindsSources M) (hreads : ReadsRecentHashes M)
    (h : DistinctHashes M.toCtx r.chain → Agree M r s) (hsame : SameInput input input') (hnext : ImportsNext M r input)
    (hkeeps : KeepsSettled M r input ∧ KeepsInputs M r input) (hkeeps' : KeepsSettled M s input' ∧ KeepsInputs M s input')
    (hdistinct : DistinctHashes M.toCtx ((retentionSystem M sign pubkey).step r input).chain) :
    Agree M ((retentionSystem M sign pubkey).step r input) ((retentionSystem M sign' pubkey').step s input') := by
  have hmoves := moves_step hcodec sign pubkey r input
  have hmoves' := moves_step hcodec sign' pubkey' s input'
  obtain ⟨⟨hchain, hfirst⟩, hsecond, hrecent⟩ := hkeeps
  obtain ⟨⟨hchain', hfirst'⟩, hsecond', hrecent'⟩ := hkeeps'
  have hagree := h (distinctHashes_of_moves hfirst hmoves hdistinct)
  have hlive : SameLive ((retentionSystem M sign pubkey).step r input) ((retentionSystem M sign' pubkey').step s input') := by
    cases hsame with
    | importBlock now block finalizedImport trie trie' => exact hagree.importBlock hbinds hreads trie trie' hnext
    | consensus engine forkChoice finality finalizedNumber =>
      exact ⟨hagree.live.1, congrArg (fun node : ChainNode σ ρ => { node with
        engine := engine
        forkChoice := forkChoice
        finality := finality
        finalizedNumber := finalizedNumber }) hagree.live.2⟩
  have hdistinct' := hlive.1 ▸ hdistinct
  refine ⟨?_, ?_, ?_, ?_, hlive⟩
  · exact hagree.sourcesLeft.moves hbinds.bindsLayers hchain hfirst hmoves hdistinct
  · exact hagree.sourcesRight.moves hbinds.bindsLayers hchain' hfirst' hmoves' hdistinct'
  · exact hagree.readsLeft.moves hagree.sourcesLeft hchain hsecond hrecent hmoves hdistinct
  · exact hagree.readsRight.moves hagree.sourcesRight hchain' hsecond' hrecent' hmoves' hdistinct'

/-- Two nodes that import the same blocks on their heads stay the same but for what they retain. -/
theorem Agree.run (hcodec : PayloadCodec M) (hbinds : BindsSources M) (hreads : ReadsRecentHashes M)
    {inputs inputs' : List NodeInput} (hsame : List.Forall₂ SameInput inputs inputs')
    (h : DistinctHashes M.toCtx r.chain → Agree M r s)
    (hnext : (retentionSystem M sign pubkey).Admits (ImportsNext M) r inputs)
    (hinputs : (retentionSystem M sign pubkey).Admits (fun t i => KeepsSettled M t i ∧ KeepsInputs M t i) r inputs)
    (hinputs' : (retentionSystem M sign' pubkey').Admits (fun t i => KeepsSettled M t i ∧ KeepsInputs M t i) s inputs')
    (hdistinct : DistinctHashes M.toCtx ((retentionSystem M sign pubkey).run r inputs).chain) :
    Agree M ((retentionSystem M sign pubkey).run r inputs) ((retentionSystem M sign' pubkey').run s inputs') := by
  induction hsame generalizing r s with
  | nil => exact h hdistinct
  | cons hfirst _ ih =>
    exact ih (fun hd => Agree.step hcodec hbinds hreads h hfirst hnext.1 hinputs.1 hinputs'.1 hd) hnext.2 hinputs.2
      hinputs'.2 hdistinct

end RetainingNode

end ShellChain
