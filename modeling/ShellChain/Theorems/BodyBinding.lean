import ShellChain.Lemmas.Body
import ShellChain.Lemmas.Commitments
import ShellChain.SampleChain

/-!
# What the hash of a block binds

The hash of a block covers its header, and the header commits to the transactions only through the state they lead to, the
gas they use, and an optional witness root. Two accepted blocks with one hash agree in all of these, and with a witness root
in the signatures, but not in the order of their transactions otherwise.
-/

namespace ShellChain

open Checks

variable {σ ρ : Type} {M : Machine σ ρ}

/-- A signature verifies for one signing hash only, on the transactions of two blocks. -/
def SignaturesBind (Γ : Ctx) (as bs : List SignedTransaction) : Prop :=
  ∀ s ∈ as, ∀ t ∈ bs, s.signature = t.signature → ∀ k k', Γ.verify k (s.senderSigningHash Γ).bytes s.signature = some true →
    Γ.verify k' (t.senderSigningHash Γ).bytes t.signature = some true → s.senderSigningHash Γ = t.senderSigningHash Γ

/-- The header of one block carries a witness root, and the other has as many transactions. -/
structure Witnessed (Γ : Ctx) (a b : Block) : Prop where
  root : ∃ r, a.header.witnessRoot = some r ∧ r ≠ .zero
  length_eq : a.transactions.length = b.transactions.length
  separated : WitnessSeparated Γ a.transactions b.transactions

def NoCustomSender (M : Machine σ ρ) (world : σ) (transactions : List SignedTransaction) : Prop :=
  ∀ stx ∈ transactions, (M.account world stx.sender).bind AccountPolicy.validationCodeHash = none

/-- What two accepted blocks with one hash share. -/
structure SharedBody (M : Machine σ ρ) (node nextA nextB : ChainNode σ ρ) (a b : Block) : Prop where
  header : a.header.Agrees b.header
  stateRoot : M.stateRoot nextA.state.world = M.stateRoot nextB.state.world
  /-- The signatures and embedded keys, in order. -/
  witnesses : Witnessed M.toCtx a b → a.transactions.map witnessContent = b.transactions.map witnessContent
  /-- What the signatures sign, in order. -/
  signingHashes : Witnessed M.toCtx a b → NoCustomSender M node.state.world (a.transactions ++ b.transactions) →
    SignaturesBind M.toCtx a.transactions b.transactions →
    a.transactions.map (SignedTransaction.senderSigningHash M.toCtx) =
      b.transactions.map (SignedTransaction.senderSigningHash M.toCtx)
  /-- The system transactions follow from the transactions and the proofs that are settled. -/
  systemTransactions : a.transactions = b.transactions →
    a.starkRewards.map SystemTransaction.proofPayload = b.starkRewards.map SystemTransaction.proofPayload →
    a.systemTransactions = b.systemTransactions

section

variable {now now' : Nat} {node next nextA nextB : ChainNode σ ρ} {a b block : Block}

section

variable (h : ImportedNext M now node block next)

include h

/-- The state root of the node that imported a block is the one of its header. -/
theorem ImportedNext.stateRoot : M.stateRoot next.state.world = block.header.stateRoot := by
  obtain ⟨_, _, processed, -, -, hprocessed, rfl⟩ := h.accepted
  obtain ⟨e, -, -, hroot, hstate, -⟩ := (processBlock_ok hprocessed).executed
  rw [← hroot]
  exact congrArg (fun s => M.stateRoot s.world) hstate

/-- A witness root of an imported block is the root of its transactions. -/
theorem ImportedNext.witnessRoot {r : ShellHash}
    (hr : block.header.witnessRoot = some r) : witnessRootOf M.toCtx block.transactions = r := by
  obtain ⟨_, _, _, -, hheader, -⟩ := h.accepted
  have hwitness := (verifyHeaderChecks_ok hheader).2.2.1
  rw [verifyIncomingWitnessRoot, hr] at hwitness
  simpa only [ensure_ok_iff, decide_eq_true_eq] using hwitness

/-- The outer signatures of an imported block verify. -/
theorem ImportedNext.verify {stx : SignedTransaction} (hmem : stx ∈ block.transactions)
    (hv : (M.account node.state.world stx.sender).bind AccountPolicy.validationCodeHash = none) :
    ∃ key, M.verify key (stx.senderSigningHash M.toCtx).bytes stx.signature = some true := by
  obtain ⟨_, _, _, -, -, hprocessed, -⟩ := h.accepted
  obtain ⟨e, hbody, -⟩ := (processBlock_ok hprocessed).executed
  rw [executeBody, if_neg fun hempty => List.ne_nil_of_mem hmem hempty.1] at hbody
  obtain ⟨keys, _, _, _, _, hkeys, hbatch, -⟩ := executeFullBody_ok hbody
  obtain ⟨key, hkey⟩ := mem_signingKeys hkeys hmem hv
  exact ⟨key, by simpa using List.all_eq_true.mp hbatch _ hkey⟩

end

section

variable (ha : ImportedNext M now node a nextA) (hb : ImportedNext M now' node b nextB) (hagree : a.header.Agrees b.header)

include ha hb hagree

theorem ImportedNext.witnesses_eq (hw : Witnessed M.toCtx a b) :
    a.transactions.map witnessContent = b.transactions.map witnessContent := by
  obtain ⟨r, hr, hne⟩ := hw.root
  have hrb : b.header.witnessRoot = some r := by
    have hroot := hagree.2
    rw [hr, Option.getD_some] at hroot
    cases hb' : b.header.witnessRoot with
    | none => exact absurd (by simpa [hb'] using hroot) hne
    | some r' => rw [hroot, hb', Option.getD_some]
  have hsep := hw.separated
  have hleaves : witnessLeaves M.toCtx a.transactions = witnessLeaves M.toCtx b.transactions :=
    MerkleFold.root_inj (by simp [witnessLeaves, hw.length_eq]) (by simpa [witnessLeaves] using hsep.nodes)
      ((ha.witnessRoot hr).trans (hb.witnessRoot hrb).symm)
  refine MerkleFold.map_eq_of_map_eq (fun s hs t ht hst => ?_) hleaves
  obtain ⟨hsig, hkey⟩ := encodeWitnessParts_inj (hsep.sizes s (List.mem_append_left _ hs))
    (hsep.sizes t (List.mem_append_right _ ht)) (hsep.leaves s hs t ht hst)
  exact Prod.ext hsig hkey

theorem ImportedNext.systemTransactions_eq (htxs : a.transactions = b.transactions)
    (hpayloads : a.starkRewards.map SystemTransaction.proofPayload = b.starkRewards.map SystemTransaction.proofPayload) :
    a.systemTransactions = b.systemTransactions := by
  obtain ⟨_, _, pa, -, -, hpa, -⟩ := ha.accepted
  obtain ⟨_, _, pb, -, -, hpb, -⟩ := hb.accepted
  have hctx : node.execContext M.toCtx b.header = node.execContext M.toCtx a.header := by
    unfold ChainNode.execContext
    rw [hagree.env]
  rw [hctx] at hpb
  have hsettled : pa.settlements = pb.settlements := by
    refine List.map_injective_iff.mpr (Option.some_injective _) ?_
    rw [map_some_settlements (processBlock_ok hpa).settled, map_some_settlements (processBlock_ok hpb).settled]
    simpa only [List.map_map, Function.comp_def] using
      congrArg (List.map fun payload => payload.bind M.amendmentFromJson) hpayloads
  obtain ⟨ea, hea, -⟩ := (processBlock_ok hpa).executed
  obtain ⟨eb, heb, -⟩ := (processBlock_ok hpb).executed
  unfold executeBody at hea heb
  rw [← hsettled, ← htxs] at heb
  split at hea
  · rename_i hempty
    rw [if_pos hempty] at heb
    simp only [executeEmptyBody, bind_ok_iff, ensure_ok_iff, decide_eq_true_eq] at hea heb
    obtain ⟨_, -, _, hea, -⟩ := hea
    obtain ⟨_, -, _, heb, -⟩ := heb
    rw [hea, heb]
  · rename_i hfull
    rw [if_neg hfull] at heb
    obtain ⟨_, xa, ra, ta, _, -, -, -, hxa, -, hra, hta, hsa, -⟩ := executeFullBody_ok hea
    obtain ⟨_, xb, rb, tb, _, -, -, -, hxb, -, hrb, htb, hsb, -⟩ := executeFullBody_ok heb
    rw [← htxs] at hxb hrb htb
    obtain rfl := Except.ok.inj (hxa.symm.trans hxb)
    rw [← (BlockHeader.mk.inj hagree.1).1] at hrb
    obtain rfl := Except.ok.inj (hra.symm.trans hrb)
    obtain rfl := Except.ok.inj (hta.symm.trans htb)
    rw [← hsa, hsb]

end

end

/-- Two blocks with one hash that are accepted on the same node share their header and the state they lead to; as many
transactions under a witness root share their signatures and what these sign, and the same transactions and settled proofs
lead to the same system transactions. -/
theorem sharedBody_of_hash_eq {now now' : Nat} {node nextA nextB : ChainNode σ ρ} {a b : Block}
    (ha : importBlock M now node a = .ok nextA) (hheadA : node.head.number < nextA.head.number)
    (hb : importBlock M now' node b = .ok nextB) (hheadB : node.head.number < nextB.head.number)
    (hrangeA : a.header.InRange) (hrangeB : b.header.InRange) (hsep : BlockHeader.Separated M.toCtx a.header b.header)
    (hhash : a.hash M.toCtx = b.hash M.toCtx) : SharedBody M node nextA nextB a b := by
  have ha := importBlock_advances ha hheadA
  have hb := importBlock_advances hb hheadB
  have hagree := BlockHeader.agrees_of_hash_eq hrangeA hrangeB hsep hhash
  refine ⟨hagree, ?_, ha.witnesses_eq hb hagree, fun hw hcustom hbind => ?_, ha.systemTransactions_eq hb hagree⟩
  · rw [ha.stateRoot, hb.stateRoot, (BlockHeader.mk.inj hagree.1).2.1]
  · refine MerkleFold.map_eq_of_map_eq (fun s hs t ht hst => ?_) (ha.witnesses_eq hb hagree hw)
    obtain ⟨k, hk⟩ := ha.verify hs (hcustom s (List.mem_append_left _ hs))
    obtain ⟨k', hk'⟩ := hb.verify ht (hcustom t (List.mem_append_right _ ht))
    exact hbind s hs t ht (congrArg Prod.fst hst) k k' hk hk'

/-! ## Two orders under one hash -/

namespace BodyBindingCex

/-- The keys of two senders. -/
def firstKey : Bytes :=
  [7]

/-- The keys of two senders. -/
def secondKey : Bytes :=
  [8]

/-- The node: both senders have funds and a registered key. -/
def node : ChainNode SampleWorld Unit :=
  genesisNode ⟨[.funded (chainAddress firstKey) 1000000000, .funded (chainAddress secondKey) 1000000000,
      .funded (.repeatByte 9) 0], none⟩
    fun a => if a = chainAddress firstKey then some firstKey else if a = chainAddress secondKey then some secondKey else none

def firstTransfer : SignedTransaction :=
  sampleTransfer firstKey 0 (.repeatByte 9) 5 21000 2000 .reference

def secondTransfer : SignedTransaction :=
  sampleTransfer secondKey 0 (.repeatByte 9) 6 21000 2000 .reference

/-- The world after both transfers, in either order. -/
def after : SampleWorld :=
  ⟨[⟨chainAddress firstKey, 1, 981624995, ⟨.zero, none⟩⟩, ⟨chainAddress secondKey, 1, 981624994, ⟨.zero, none⟩⟩,
    .funded (.repeatByte 9) 11, .funded validatorAddress 36750000], none⟩

/-- The header of both blocks. -/
def header : BlockHeader :=
  { preliminaryHeader chainCtx node.head 1 1010 validatorAddress with
    gasUsed := 42000
    stateRoot := sampleMachine.stateRoot after }

/-- The reward of the validator: 42000 gas at the base fee of 875. -/
def reward : SystemTransaction :=
  .blockGasReward 1337 1 2 validatorAddress 36750000 header.parentHash

/-- The block with the transfers in one order. -/
def block : Block :=
  sealSample ⟨header, [firstTransfer, secondTransfer], [reward], none⟩

/-- The block with the transfers in the other order. -/
def reordered : Block :=
  sealSample ⟨header, [secondTransfer, firstTransfer], [reward], none⟩

theorem block_next : (importBlock sampleMachine 1010 node block).toOption.map ChainNode.head = some block := by
  decide +kernel

theorem reordered_next : (importBlock sampleMachine 1010 node reordered).toOption.map ChainNode.head = some reordered := by
  decide +kernel

/-- Both orders are imported on the same node under one hash. -/
theorem reordered_imported :
    (∃ nextA nextB, importBlock sampleMachine 1010 node block = .ok nextA ∧ nextA.head = block ∧
      importBlock sampleMachine 1010 node reordered = .ok nextB ∧ nextB.head = reordered) ∧
      block.hash chainCtx = reordered.hash chainCtx ∧
      block.transactions = [firstTransfer, secondTransfer] ∧ reordered.transactions = [secondTransfer, firstTransfer] ∧
      firstTransfer ≠ secondTransfer := by
  obtain ⟨nextA, hA, hheadA⟩ := exists_ok_of_toOption block_next
  obtain ⟨nextB, hB, hheadB⟩ := exists_ok_of_toOption reordered_next
  exact ⟨⟨nextA, nextB, hA, hheadA, hB, hheadB⟩, rfl, rfl, rfl, by decide +kernel⟩

/-- The two blocks share what the hash binds. -/
theorem sharedBody_reordered :
    ∃ nextA nextB, importBlock sampleMachine 1010 node block = .ok nextA ∧
      importBlock sampleMachine 1010 node reordered = .ok nextB ∧
      SharedBody sampleMachine node nextA nextB block reordered := by
  obtain ⟨nextA, hA, hheadA⟩ := exists_ok_of_toOption block_next
  obtain ⟨nextB, hB, hheadB⟩ := exists_ok_of_toOption reordered_next
  have hnumber : node.head.number < block.number := by decide +kernel
  have hrange : block.header.InRange := by decide +kernel
  exact ⟨nextA, nextB, hA, hB, sharedBody_of_hash_eq hA (hheadA ▸ hnumber) hB (hheadB ▸ hnumber) hrange hrange
    ⟨fun _ => rfl, fun _ => rfl, fun _ => rfl, fun _ => rfl⟩ rfl⟩

end BodyBindingCex

end ShellChain
