import ShellChain.Lemmas.Rebuild
import ShellChain.SampleChain
import ShellChain.SourceBinding

/-!
# A concrete machine with settlements

The machine of the concrete chains with proofs that cover one block without transactions each. A payload names the layer, the
height and the hash of the source; the rest of the amendment follows from them. A proof of the first layer is bound to its
sources as the node checks it, and every proof of the second layer is taken to be bound.
-/

namespace ShellChain

open ByteCodec

def proverKey : Bytes :=
  [8]

theorem length_zeroRoot : (List.replicate 32 (0 : UInt8)).length = 32 :=
  List.length_replicate

/-- An amendment without its signature. -/
def unsignedAmendment (layer number : Nat) (hash : ShellHash) : ProofAmendment :=
  ⟨1, hash, number, none, ⟨sigBatchProofVersion, List.replicate 32 0, length_zeroRoot, 0, []⟩, chainAddress proverKey, [], layer, [],
    some 0, some 304⟩

/-- The amendment of the prover that covers one block. -/
def sampleAmendment (layer number : Nat) (hash : ShellHash) : ProofAmendment :=
  let a := unsignedAmendment layer number hash
  { a with proverSignature := [1, SignatureType.mlDsa65.asU8, 0, 1] ++ proverKey ++
      sampleSign proverKey (a.signingMessage chainCtx) }

/-- The payload of an amendment: one byte for the layer, eight for the height, and the hash. -/
def samplePayload (a : ProofAmendment) : Bytes :=
  UInt8.ofNat a.layer :: beBytes 8 a.blockNumber ++ a.blockHash.bytes

def ofSamplePayload : Bytes → Option ProofAmendment
  | [] => none
  | layer :: rest =>
    if h : (rest.drop 8).length = 32 then
      some (sampleAmendment layer.toNat ((rest.take 8).foldl (fun n b => n * 256 + b.toNat) 0) ⟨rest.drop 8, h⟩)
    else none

def storedBundle (blocks : ShellHash → Option Block) (h : ShellHash) : Option WitnessBundle :=
  (blocks h).map fun block => (StrippedBlock.split block).2

/-- The binding of the first layer is that of the node on a store that has the bundles of its blocks. -/
def sampleSourceBinding (M : Machine SampleWorld Unit) (blocks : ShellHash → Option Block) (a : ProofAmendment) : Bool :=
  if a.layer = 1 then (validateL1ProofSourceBinding M blocks (storedBundle blocks) a).toBool else a.layer = 2

theorem layer_le_of_sampleSourceBinding {M : Machine SampleWorld Unit} {blocks : ShellHash → Option Block}
    {a : ProofAmendment} (h : sampleSourceBinding M blocks a = true) : a.layer ≤ 2 := by
  unfold sampleSourceBinding at h
  split_ifs at h with hlayer
  · omega
  · exact (of_decide_eq_true h).le

def settlingMachine : Machine SampleWorld Unit :=
  { sampleMachine with
    amendmentToJson := fun a => if ofSamplePayload (samplePayload a) = some a then some (samplePayload a) else none
    amendmentFromJson := ofSamplePayload
    proofSourceBinding := sampleSourceBinding sampleMachine }

theorem payloadCodec_settlingMachine : PayloadCodec settlingMachine := by
  intro a payload h
  change (if ofSamplePayload (samplePayload a) = some a then some (samplePayload a) else none) = some payload at h
  split_ifs at h with hround
  rw [← Option.some.inj h]
  exact hround

/-! ## A node at genesis -/

/-- The store of a node at genesis with the given retention. -/
def genesisStore (w : SampleWorld) (pubkeys : KeyTable) (pruning : PruningConfig) : RetainingNode SampleWorld Unit where
  node := genesisNode w pubkeys
  pruning := pruning
  headers h := if h = (genesisBlock w).hash chainCtx then some (genesisBlock w).header else none
  bundles _ := none
  graceDeletes := ∅
  witnessPrunedBelow := 0
  bodyPrunedBelow := 0
  statePruner := ⟨0, none, 0, 0⟩
  chain := [genesisBlock w]

variable {w : SampleWorld} {pubkeys : KeyTable} {pruning : PruningConfig}

open RetainingNode

theorem blocks_genesisStore :
    (genesisStore w pubkeys pruning).node.blocks ((genesisBlock w).hash chainCtx) = some (genesisBlock w) :=
  if_pos rfl

theorem tracks_genesisStore : Tracks settlingMachine.toCtx (genesisStore w pubkeys pruning) := by
  have hcanonical : ∀ n hash, (genesisStore w pubkeys pruning).node.canonical n = some hash →
      n = 0 ∧ (genesisBlock w).hash chainCtx = hash := by
    intro n hash h
    change (if n = 0 then some _ else none) = some hash at h
    split_ifs at h with hn
    exact ⟨hn, Option.some.inj h⟩
  refine ⟨rfl, ?_, ?_, ?_⟩
  · intro n block h
    obtain ⟨hn, rfl⟩ := List.getElem?_eq_some_iff.mp h
    obtain rfl : n = 0 := Nat.lt_one_iff.mp hn
    rfl
  · intro n hash h
    obtain ⟨rfl, rfl⟩ := hcanonical n hash h
    exact ⟨genesisBlock w, rfl, rfl⟩
  · intro n hash h
    obtain ⟨rfl, rfl⟩ := hcanonical n hash h
    refine .inr (Option.isSome_iff_exists.mpr ⟨genesisBlock w, ?_⟩)
    exact if_pos rfl

theorem faithful_genesisStore : Faithful settlingMachine (genesisStore w pubkeys pruning) := by
  refine ⟨?_, ?_⟩
  · intro block stored hblock hstored
    obtain rfl := List.mem_singleton.mp hblock
    rw [show settlingMachine.toCtx = chainCtx from rfl, blocks_genesisStore] at hstored
    obtain rfl := Option.some.inj hstored
    exact ⟨rfl, rfl⟩
  · intro block hblock
    obtain rfl := List.mem_singleton.mp hblock
    rfl

theorem settlementsReadable_genesisStore : SettlementsReadable settlingMachine (genesisStore w pubkeys pruning) := by
  intro n block hblock hsettles
  obtain rfl := List.mem_singleton.mp (List.mem_of_getElem? hblock)
  exact absurd rfl hsettles

/-- The node that has started on the store. -/
def genesisStart (w : SampleWorld) (pubkeys : KeyTable) (pruning : PruningConfig) : RetainingNode SampleWorld Unit :=
  ((genesisStore w pubkeys pruning).rebuild settlingMachine).toOption.getD (genesisStore w pubkeys pruning)

theorem rebuild_genesisStore :
    (genesisStore w pubkeys pruning).rebuild settlingMachine = .ok (genesisStart w pubkeys pruning) := by
  obtain ⟨s, hs, -⟩ := rebuild_ok (r := genesisStore w pubkeys pruning) tracks_genesisStore faithful_genesisStore
  rw [genesisStart, hs]
  rfl

abbrev settlingSystem : TransitionSystem (RetainingNode SampleWorld Unit) NodeInput :=
  retentionSystem settlingMachine validatorSign validatorKey

def emptyOnGenesis (w : SampleWorld) (timestamp : Nat) : Block :=
  sealSample ⟨{ preliminaryHeader chainCtx (genesisBlock w) 1 timestamp validatorAddress with
    stateRoot := sampleMachine.stateRoot w }, [], [], none⟩

/-- The fork choice that prefers one of two blocks on an ancestor. -/
def preferred (number : Nat) (ancestor old new : ShellHash) : ForkChoice :=
  ⟨new, fun _ => some (number, 1), fun _ _ => some ancestor, fun tip _ => if tip = new then [new] else [old]⟩

def finalizeHead (r : RetainingNode SampleWorld Unit) : NodeInput :=
  .consensus sampleEngine r.node.forkChoice (r.node.finality.finalize (r.node.head.hash chainCtx) r.node.head.number)
    (some r.node.head.number)

end ShellChain
