import ShellChain.Lemmas.Authorities
import ShellChain.SampleSettlements

/-!
# The authority set and the canonical chain

A node that only extends its chain has the authorities of the last block that reloads them. An adoption or a recovery that
reverts such a block, or brings another one, leaves the authorities as they were, so that a restart at the same head loads
others, and so does a node that never saw the reverted branch.
-/

namespace ShellChain

variable {σ ρ : Type} {M : Machine σ ρ} {A : AuthorityRules σ}

/-- In every run of a built node in which no adoption and no recovery reverts or brings a block that reloads the
authorities: the state stored for the canonical block at the reload height has its root, and, unless the registry in it is
empty, the authorities are those of that registry. They are what a restart loads from that state, and what every other such
node with the same chain has, if the two states do not collide in their root. -/
theorem authorities_eq_registrySet (hcodec : PayloadCodec M) {sign sign' : Bytes → PQSignature} {pubkey pubkey' : Bytes}
    {configured configured' : AuthoritySet} {a a' : AuthorityNode σ ρ} {inputs inputs' : List NodeInput}
    (hbuilt : Built A M configured a) (hinputs : (authoritySystem A M sign pubkey).Admits (KeepsBoundary A M) a inputs)
    (hbuilt' : Built A M configured' a')
    (hinputs' : (authoritySystem A M sign' pubkey').Admits (KeepsBoundary A M) a' inputs') :
    let s := (authoritySystem A M sign pubkey).run a inputs
    let s' := (authoritySystem A M sign' pubkey').run a' inputs'
    let height := authorityReloadHeight s.base.node.head.number A.epochLength
    ∃ world block, s.posts[height]? = some (some world) ∧ s.base.chain[height]? = some block ∧
      M.stateRoot world = block.header.stateRoot ∧
      (M.validators world ≠ [] →
        s.active = A.registrySet M world ∧
        (A.boundaryState M s.base = .ok world →
          ∀ configured, A.buildAuthorities M configured s.base = .ok s.active) ∧
        (s'.base.chain = s.base.chain →
          (∀ world', s'.posts[height]? = some (some world') → M.stateRoot world' = M.stateRoot world →
            M.validators world' = M.validators world ∧ A.validatorWeight world' = A.validatorWeight world) →
          s'.active = s.active)) := by
  intro s s' height
  have hs : FollowsRegistry A M s :=
    TransitionSystem.invariant_run (fun _ _ h => h.step hcodec sign pubkey) hbuilt.followsRegistry hinputs
  have hs' : FollowsRegistry A M s' :=
    TransitionSystem.invariant_run (fun _ _ h => h.step hcodec sign' pubkey') hbuilt'.followsRegistry hinputs'
  obtain ⟨world, block, hworld, hblock, hroot, hset⟩ := hs.registry
  refine ⟨world, block, hworld, hblock, hroot, fun hne => ⟨hset hne, ?_, ?_⟩⟩
  · intro hstate configured
    rw [buildAuthorities_of_boundaryState hstate hne, hset hne]
  · intro hchain hbinds
    have hhead : s'.base.node.head.number = s.base.node.head.number := by
      have hlength := hs.tracks.length
      have hlength' := hs'.tracks.length
      rw [hchain] at hlength'
      omega
    obtain ⟨world', block', hworld', hblock', hroot', hset'⟩ := hs'.registry
    rw [hhead] at hworld' hblock'
    rw [hchain, hblock] at hblock'
    obtain rfl := Option.some.inj hblock'
    obtain ⟨hvalidators, hweights⟩ := hbinds world' hworld' (hroot'.trans hroot.symm)
    rw [hset hne, hset' (hvalidators ▸ hne), AuthorityRules.registrySet, AuthorityRules.registrySet, hvalidators, hweights]

/-! ## A chain whose accounts are its validators -/

namespace RegistryChain

/-- The machine in which every account is a registered validator. -/
def registryMachine : Machine SampleWorld Unit :=
  { settlingMachine with validators := fun w => w.accounts.map SampleAccount.address }

/-- Weighted authorities with an epoch of the given length. -/
def rules (epochLength : Nat) : AuthorityRules SampleWorld :=
  ⟨.wpoa, epochLength, fun _ _ => 1⟩

/-- The only authority at genesis. -/
def founders : AuthoritySet :=
  ⟨[chainAddress senderKey], [1]⟩

/-- A node at genesis that keeps everything. -/
def start : AuthorityNode SampleWorld Unit :=
  ⟨genesisStore senderWorld senderKeys ⟨0, 0, 0, u64Max⟩, founders, [some senderWorld]⟩

def system (epochLength : Nat) : TransitionSystem (AuthorityNode SampleWorld Unit) NodeInput :=
  authoritySystem (rules epochLength) registryMachine validatorSign validatorKey

/-- A block with a transfer to a new account is produced. -/
def transfer : NodeInput :=
  .produce 1010 500 [sampleTransfer senderKey 0 (.repeatByte 9) 5 21000 2000 .reference] [] 0

/-- The empty block of another branch. -/
def otherBlock : Block :=
  emptyOnGenesis senderWorld 1011

/-- The other branch arrives, gets the quorum and is adopted. -/
def switchFrom (old : ShellHash) : List NodeInput :=
  [.importBlock 1100 otherBlock false 0,
    .consensus sampleEngine (preferred 1 ((genesisBlock senderWorld).hash chainCtx) old (otherBlock.hash chainCtx))
      start.base.node.finality none,
    .adoptFork 1100 0]

theorem headers_genesisStore {w : SampleWorld} {pubkeys : KeyTable} {pruning : PruningConfig} {header : BlockHeader}
    (h : (genesisStore w pubkeys pruning).headers ((genesisBlock w).hash chainCtx) = some header) :
    header = (genesisBlock w).header := by
  change (if (genesisBlock w).hash chainCtx = _ then some _ else none) = some header at h
  rw [if_pos rfl] at h
  exact (Option.some.inj h).symm

theorem built_start : Built (rules 2) registryMachine founders start where
  tracks := tracks_genesisStore
  active := by decide +kernel
  posts := by decide +kernel
  head := rfl
  headers block hblock header hheader := by
    obtain rfl := List.mem_singleton.mp hblock
    exact headers_genesisStore hheader
  roots root world h := by
    change (if root = sampleMachine.stateRoot _ then some _ else none) = some world at h
    split_ifs at h with hroot
    rw [hroot, Option.some.inj h]
    rfl

theorem payloadCodec_registryMachine : PayloadCodec registryMachine :=
  payloadCodec_settlingMachine

/-- The produced block is reverted before an epoch ends, and two blocks on the other branch end it. -/
def inputs : List NodeInput :=
  transfer :: switchFrom (((system 2).run start [transfer]).base.node.head.hash chainCtx) ++
    [.produce 1020 500 [sampleTransfer senderKey 0 (.repeatByte 9) 5 21000 2000 .reference] [] 0]

/-- A node that has switched branches inside an epoch has the authorities of the block that ended it, and would load them
again. -/
theorem authorities_after_switch :
    ((system 2).run start inputs).base.chain.length = 3 ∧
      ((system 2).run start inputs).active.authorities = [chainAddress senderKey, .repeatByte 9, validatorAddress] ∧
      (rules 2).buildAuthorities registryMachine founders ((system 2).run start inputs).base =
        .ok ((system 2).run start inputs).active := by
  have hadmits : (system 2).Admits (KeepsBoundary (rules 2) registryMachine) start inputs := by decide +kernel
  have hstate : ((system 2).run start inputs).base.chain.length = 3 ∧
      ∀ world ∈ (((system 2).run start inputs).posts[authorityReloadHeight
          ((system 2).run start inputs).base.node.head.number (rules 2).epochLength]?).getD none,
        registryMachine.validators world = [chainAddress senderKey, .repeatByte 9, validatorAddress] ∧
        (rules 2).boundaryState registryMachine ((system 2).run start inputs).base = .ok world := by decide +kernel
  obtain ⟨hlength, hworlds⟩ := hstate
  obtain ⟨world, block, hworld, -, -, hset⟩ := authorities_eq_registrySet payloadCodec_registryMachine built_start hadmits
    built_start hadmits
  unfold system at hlength hworlds ⊢
  obtain ⟨hvalidators, hboundary⟩ := hworlds world (by rw [hworld]; rfl)
  obtain ⟨hactive, hrestart, -⟩ := hset (by rw [hvalidators]; simp)
  exact ⟨hlength, by rw [hactive]; exact hvalidators, hrestart hboundary founders⟩

end RegistryChain

/-! ## An adoption across an epoch -/

namespace StaleAuthoritiesCex

open RegistryChain

/-- Every block ends an epoch. The validator produces a block in which two accounts appear. -/
def grown : AuthorityNode SampleWorld Unit :=
  (system 1).run start [transfer]

/-- The branch with the empty block is adopted. -/
def reverted : AuthorityNode SampleWorld Unit :=
  (system 1).run grown (switchFrom (grown.base.node.head.hash chainCtx))

/-- A node that only saw this branch. -/
def direct : AuthorityNode SampleWorld Unit :=
  (system 1).run start [.importBlock 1100 otherBlock false 0]

/-- After the switch the registry of the head has one validator, and a restart loads it, but the node keeps three
authorities. The node that only saw the branch has one. -/
theorem reverted_authorities_kept :
    reverted.base.chain = [genesisBlock senderWorld, otherBlock] ∧ direct.base.chain = reverted.base.chain ∧
      reverted.posts = [some senderWorld, some senderWorld] ∧
      registryMachine.validators senderWorld = [chainAddress senderKey] ∧
      (rules 1).buildAuthorities registryMachine founders reverted.base = .ok founders ∧
      reverted.active.authorities = [chainAddress senderKey, .repeatByte 9, validatorAddress] ∧
      direct.active = founders := by
  decide +kernel

end StaleAuthoritiesCex

end ShellChain
