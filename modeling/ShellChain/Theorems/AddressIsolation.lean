import ShellChain.LegacyState
import ShellChain.SampleExecutor

/-!
# Full addresses in legacy execution

Before the native address context revm is given the last 20 bytes of the sender, of the proposer and of the recipient.
Addresses that end alike are one account to revm, and so is an entry of the registry that is left over at such an end.
-/

namespace ShellChain

open Effect AddressRegistry Function

variable {κ : Type}

/-! ## The registry -/

namespace Address

theorem toAlloy_fromAlloy (e : EvmAddress) : (fromAlloy e).toAlloy = e := by
  obtain ⟨bytes, hlength⟩ := e
  simp [fromAlloy, toAlloy]

end Address

namespace AddressRegistry

/-- The full addresses of a registry end as the addresses they are entered for. -/
def Truncates (r : AddressRegistry) : Prop :=
  ∀ e a, r e = some a → a.toAlloy = e

theorem truncates_empty : empty.Truncates := by
  intro e a h
  cases h

variable {r : AddressRegistry} {a : Address}

theorem Truncates.register (h : r.Truncates) (a : Address) : (r.register a).Truncates := by
  intro e b hb
  unfold AddressRegistry.register at hb
  split at hb
  · rcases update_eq_some.mp hb with ⟨rfl, rfl⟩ | ⟨-, hb⟩
    · rfl
    · exact h e b hb
  · exact h e b hb

theorem Truncates.toAlloy_resolve (h : r.Truncates) (e : EvmAddress) : (r.resolve e).toAlloy = e := by
  unfold resolve
  cases he : r e with
  | none => exact Address.toAlloy_fromAlloy e
  | some a => exact h e a he

theorem resolve_register_of_ne {e : EvmAddress} (h : a.truncated ≠ a → a.toAlloy ≠ e) :
    (r.register a).resolve e = r.resolve e := by
  unfold register
  split
  · rename_i hfull
    rw [resolve, update_of_ne (h hfull).symm, resolve]
  · rfl

/-- What an address stands for after some registrations: the last full address with that end, or what it stood for. -/
theorem resolve_foldl (r : AddressRegistry) (addresses : List Address) (e : EvmAddress) :
    (∃ a ∈ addresses, a.truncated ≠ a ∧ a.toAlloy = e ∧ (addresses.foldl register r).resolve e = a) ∨
      (∀ a ∈ addresses, a.truncated ≠ a → a.toAlloy ≠ e) ∧ (addresses.foldl register r).resolve e = r.resolve e := by
  induction addresses generalizing r with
  | nil => exact .inr ⟨fun a ha => (List.not_mem_nil ha).elim, rfl⟩
  | cons a addresses ih =>
    rw [List.foldl_cons]
    rcases ih (r.register a) with ⟨b, hb, hfull, hend, heq⟩ | ⟨hnone, heq⟩
    · exact .inl ⟨b, .tail _ hb, hfull, hend, heq⟩
    · by_cases h : a.truncated ≠ a ∧ a.toAlloy = e
      · obtain ⟨hfull, rfl⟩ := h
        refine .inl ⟨a, List.mem_cons_self, hfull, rfl, heq.trans ?_⟩
        rw [register, if_pos (show Address.fromAlloy a.toAlloy ≠ a from hfull), resolve, update_self]
        rfl
      · have hne : a.truncated ≠ a → a.toAlloy ≠ e := fun hfull hend => h ⟨hfull, hend⟩
        refine .inr ⟨?_, heq.trans (resolve_register_of_ne hne)⟩
        intro b hb
        rcases List.mem_cons.mp hb with rfl | hb
        · exact hne
        · exact hnone b hb

end AddressRegistry

/-- The addresses of a transaction end differently, and an entry that the registry still has at the end of one of them, or
anywhere else, is either the padded address or replaced by the registration of a full one. -/
structure Separate (r : AddressRegistry) (parties : List Address) : Prop where
  apart : ∀ a ∈ parties, ∀ b ∈ parties, a.toAlloy = b.toAlloy → a = b
  replaced : ∀ e b, r e = some b → b = .fromAlloy e ∨ ∃ a ∈ parties, a.truncated ≠ a ∧ a.toAlloy = e

namespace Separate

variable {r : AddressRegistry} {parties : List Address} {e : EvmAddress}

/-- An address of revm that no full address was registered for stands for the padded one. -/
theorem resolve_of_unregistered (h : Separate r parties) (hnone : ∀ a ∈ parties, a.truncated ≠ a → a.toAlloy ≠ e) :
    r.resolve e = .fromAlloy e := by
  unfold resolve
  cases he : r e with
  | none => rfl
  | some b =>
    rcases h.replaced e b he with rfl | ⟨a, ha, hfull, hend⟩
    · rfl
    · exact absurd hend (hnone a ha hfull)

theorem resolve_party (h : Separate r parties) {a : Address} (ha : a ∈ parties) :
    (parties.foldl register r).resolve a.toAlloy = a := by
  rcases r.resolve_foldl parties a.toAlloy with ⟨b, hb, -, hend, heq⟩ | ⟨hnone, heq⟩
  · rw [heq, h.apart b hb a ha hend]
  · have hpadded : a.truncated = a := by
      by_contra hfull
      exact hnone a ha hfull rfl
    rw [heq, h.resolve_of_unregistered hnone]
    exact hpadded

theorem resolve_other (h : Separate r parties) (he : ∀ a ∈ parties, a.toAlloy ≠ e) :
    (parties.foldl register r).resolve e = .fromAlloy e := by
  rcases r.resolve_foldl parties e with ⟨b, hb, -, hend, -⟩ | ⟨hnone, heq⟩
  · exact absurd hend (he b hb)
  · rw [heq, h.resolve_of_unregistered hnone]

end Separate

/-! ## What a commit writes -/

/-- The record of an account with what revm made of it. -/
def EvmAccount.committed (x : EvmAccount) (account : Account) : Account :=
  { account with nonce := x.nonce, balance := x.balance, codeHash := x.codeHash.orElse fun _ => account.codeHash }

/-- The slots of an account with what revm wrote. -/
def EvmAccount.written (x : EvmAccount) (slots : ShellHash → ShellHash) : ShellHash → ShellHash :=
  x.storage.foldl (fun slots slot => Function.update slots slot.1 slot.2) slots

namespace Vm

variable {vm : Vm κ}

theorem accounts_commitState (w : WorldState κ) (state : HashMap Address EvmAccount) (a : Address) :
    (vm.commitState w state).accounts a =
      (state.lookup a).elim (w.accounts a) fun x => some (x.committed (w.account a)) := by
  have hview := AList.view_foldl vm.commitAccount WorldState.accounts
    (fun _ x record => some (x.committed (record.getD .blank)))
    (fun w a x => update_self ..) (fun w a x b hne => update_of_ne hne ..) state w a
  exact hview

/-- The slots of an account after the slots of an account were written. -/
theorem getStorage_foldl (slots : SlotReader vm) (a b : Address) (storage : List (ShellHash × ShellHash)) (contracts : κ) :
    slots.getStorage (storage.foldl (fun contracts slot => vm.setStorage contracts a slot.1 slot.2) contracts) b =
      if b = a then storage.foldl (fun values slot => update values slot.1 slot.2) (slots.getStorage contracts a)
      else slots.getStorage contracts b := by
  induction storage generalizing contracts with
  | nil =>
    split
    · rename_i h
      rw [h]
      rfl
    · rfl
  | cons slot storage ih =>
    rw [List.foldl_cons, List.foldl_cons, ih]
    by_cases h : b = a
    · subst h
      rw [if_pos rfl, if_pos rfl]
      congr 1
      funext other
      rw [slots.get_set, update_apply]
      simp
    · rw [if_neg h, if_neg h]
      funext other
      simp [slots.get_set, h]

theorem slots_commitState (slots : SlotReader vm) (w : WorldState κ) (state : HashMap Address EvmAccount) (a : Address) :
    slots.getStorage (vm.commitState w state).contracts a =
      (state.lookup a).elim (slots.getStorage w.contracts a) fun x => x.written (slots.getStorage w.contracts a) := by
  have hview := AList.view_foldl vm.commitAccount
    (fun (w : WorldState κ) a => slots.getStorage w.contracts a) (fun _ x values => x.written values)
    (fun w a x => (getStorage_foldl slots a a x.storage w.contracts).trans (if_pos rfl))
    (fun w a x b hne => (getStorage_foldl slots a b x.storage w.contracts).trans (if_neg hne)) state w a
  exact hview

/-! ## A transaction -/

variable {ctx : ExecContext} {stx : SignedTransaction} {e e' : Executor κ} {slots : SlotReader vm}
  {revm : EvmEnv → EvmTx → Database → Option RevmOutcome} {txIndex cumulativeGas : Nat}

/-- The registry that a transaction is executed with. -/
def registered (ctx : ExecContext) (stx : SignedTransaction) (e : Executor κ) : AddressRegistry :=
  (parties ctx stx).foldl AddressRegistry.register e.addresses

/-- What revm reads in a transaction. -/
def legacyDatabase (slots : SlotReader vm) (ctx : ExecContext) (stx : SignedTransaction) (e : Executor κ) : Database :=
  database slots (registered ctx stx e) e.state

/-- What revm makes of a transaction. -/
def legacyOutcome (slots : SlotReader vm) (revm : EvmEnv → EvmTx → Database → Option RevmOutcome) (ctx : ExecContext)
    (stx : SignedTransaction) (e : Executor κ) : Option RevmOutcome :=
  revm (vm.evmEnv ctx false).truncated (evmTx stx).truncated (legacyDatabase slots ctx stx e)

/-- The executor after what revm returned is committed. -/
def legacyCommit (vm : Vm κ) (ctx : ExecContext) (stx : SignedTransaction) (e : Executor κ) (o : RevmOutcome) : Executor κ :=
  let state := o.state.mapKeys (registered ctx stx e).resolve
  { e.mapWorld fun w => advanceNonce (vm.commitState w state) stx.sender (stx.tx.nonce + 1) with addresses := .empty }

/-- A transaction for revm runs it once, with the registered addresses, and commits what it returns. -/
theorem executeAndCommit_ok (hlegacy : vm.nativeContext ctx.env.number = false)
    (hcontract : stx.tx.recipient.filter isSystemContract = none)
    (hrun : (vm.withRevm slots revm).executeAndCommit ctx stx txIndex cumulativeGas e = (.ok (), e')) :
    ∃ o, legacyOutcome slots revm ctx stx e = some o ∧ e' = legacyCommit vm ctx stx e o := by
  have hcontext : (vm.withRevm slots revm).nativeContext ctx.env.number = false := hlegacy
  obtain ⟨result, e₁, hexecute, hcommit⟩ := bind_ok_iff.mp hrun
  unfold executeTx at hexecute
  rw [if_neg (by simp [hcontext]), hcontract] at hexecute
  split at hexecute
  · cases hexecute
  simp only [executeEvmTx, bind_ok_iff, lift_ok_iff] at hexecute
  obtain ⟨nonceAfter, _, ⟨hnonce, rfl⟩, identities, e₂, hregister, outcome, e₃, hrunEvm, hresult⟩ := hexecute
  have hnonceAfter : nonceAfter = stx.tx.nonce + 1 := by
    unfold nextSenderNonce checkedAdd at hnonce
    split at hnonce
    · cases hnonce
    · rename_i next hnext
      split at hnext
      · cases hnext
        cases hnonce
        rfl
      · cases hnext
  unfold registerCall at hregister
  rw [if_neg (by simp [hcontext]), bind_ok_iff] at hregister
  obtain ⟨_, e₄, hwrite, hread⟩ := hregister
  rw [write_ok_iff] at hwrite
  rw [read_ok_iff] at hread
  obtain ⟨rfl, rfl⟩ := hread
  subst hwrite
  rw [runEvm, read_ok_iff] at hrunEvm
  obtain ⟨houtcome, rfl⟩ := hrunEvm
  change Option.map (fun o => o.resolved (registered ctx stx e)) (legacyOutcome slots revm ctx stx e) = outcome at houtcome
  cases ho : legacyOutcome slots revm ctx stx e with
  | none =>
    rw [ho, Option.map_none] at houtcome
    subst houtcome
    cases hresult
  | some o =>
    rw [ho, Option.map_some] at houtcome
    subst houtcome
    refine ⟨o, rfl, ?_⟩
    obtain ⟨rfl, rfl⟩ := pure_ok_iff.mp hresult
    rw [commitPqvmState, write_ok_iff] at hcommit
    rw [← hcommit, hnonceAfter]
    rfl

/-- What legacy execution keeps apart: every party is read as itself, what revm made of it is written to its own account,
and an account that is neither a party nor what a changed address of revm stands for is left as it was. -/
structure Isolated (slots : SlotReader vm) (ctx : ExecContext) (stx : SignedTransaction) (db : Database) (o : RevmOutcome)
    (e e' : Executor κ) : Prop where
  reads : ∀ a ∈ parties ctx stx, db.basic a.toAlloy = (e.state.world.accounts a).map Account.info ∧
    ∀ slot, db.storage a.toAlloy slot = slots.getStorage e.state.world.contracts a slot
  writes : ∀ a ∈ parties ctx stx, ∀ x, o.state.lookup a.toAlloy = some x →
    e'.state.world.accounts a = some (if a = stx.sender
      then { x.committed (e.state.world.account a) with nonce := max x.nonce (stx.tx.nonce + 1) }
      else x.committed (e.state.world.account a)) ∧
    slots.getStorage e'.state.world.contracts a = x.written (slots.getStorage e.state.world.contracts a)
  others : ∀ b ∉ parties ctx stx,
    b.truncated ≠ b ∨ (∃ a ∈ parties ctx stx, a.toAlloy = b.toAlloy) ∨ o.state.lookup b.toAlloy = none →
    e'.state.world.accounts b = e.state.world.accounts b ∧
      slots.getStorage e'.state.world.contracts b = slots.getStorage e.state.world.contracts b

theorem accounts_advanceNonce (w : WorldState κ) (sender b : Address) (nonce : Nat) :
    (advanceNonce w sender (nonce + 1)).accounts b =
      if b = sender then some { w.account sender with nonce := max (w.account sender).nonce (nonce + 1) }
      else w.accounts b := by
  rw [advanceNonce, if_pos (Nat.succ_pos nonce)]
  exact update_apply ..

theorem contracts_advanceNonce (w : WorldState κ) (sender : Address) (nonce : Nat) :
    (advanceNonce w sender nonce).contracts = w.contracts := by
  unfold advanceNonce
  split <;> rfl

/-- Legacy execution keeps the accounts of a transaction apart from each other and from all others. -/
theorem legacy_execution_isolated (vm : Vm κ) (slots : SlotReader vm)
    (revm : EvmEnv → EvmTx → Database → Option RevmOutcome) (ctx : ExecContext) (stx : SignedTransaction)
    (txIndex cumulativeGas : Nat) (e e' : Executor κ) (hlegacy : vm.nativeContext ctx.env.number = false)
    (hcontract : stx.tx.recipient.filter isSystemContract = none) (htruncates : e.addresses.Truncates)
    (hseparate : Separate e.addresses (parties ctx stx))
    (hrun : (vm.withRevm slots revm).executeAndCommit ctx stx txIndex cumulativeGas e = (.ok (), e')) :
    ∃ o, legacyOutcome slots revm ctx stx e = some o ∧ Isolated slots ctx stx (legacyDatabase slots ctx stx e) o e e' := by
  obtain ⟨o, ho, rfl⟩ := executeAndCommit_ok hlegacy hcontract hrun
  have htrunc : (registered ctx stx e).Truncates :=
    List.foldlRecOn _ _ htruncates fun _ hr a _ => hr.register a
  have hparty : ∀ a ∈ parties ctx stx, (registered ctx stx e).resolve a.toAlloy = a := fun a => hseparate.resolve_party
  -- what the registry makes of the outcome, at an account that is the resolution of its own end
  have hlookup : ∀ a, (registered ctx stx e).resolve a.toAlloy = a →
      (o.state.mapKeys (registered ctx stx e).resolve).lookup a = o.state.lookup a.toAlloy := by
    intro a ha
    have hinj : Injective (registered ctx stx e).resolve := fun x y hxy => by
      rw [← htrunc.toAlloy_resolve x, hxy, htrunc.toAlloy_resolve]
    have := AList.lookup_mapKeys hinj o.state a.toAlloy
    rwa [ha] at this
  refine ⟨o, ho, ?_, ?_, ?_⟩
  · intro a ha
    refine ⟨?_, fun slot => ?_⟩
    · change (e.state.world.accounts ((registered ctx stx e).resolve a.toAlloy)).map Account.info = _
      rw [hparty a ha]
    · change slots.getStorage e.state.world.contracts ((registered ctx stx e).resolve a.toAlloy) slot = _
      rw [hparty a ha]
  · intro a ha x hx
    have hstate := (hlookup a (hparty a ha)).trans hx
    constructor
    · simp only [legacyCommit, Executor.mapWorld, accounts_advanceNonce]
      by_cases hsender : a = stx.sender
      · subst hsender
        rw [if_pos rfl, if_pos rfl, WorldState.account, accounts_commitState, hstate]
        rfl
      · rw [if_neg hsender, if_neg hsender, accounts_commitState, hstate]
        rfl
    · simp only [legacyCommit, Executor.mapWorld, contracts_advanceNonce]
      rw [slots_commitState, hstate]
      rfl
  · intro b hb hkept
    have hsender : b ≠ stx.sender := by
      rintro rfl
      exact hb List.mem_cons_self
    have hnone : (o.state.mapKeys (registered ctx stx e).resolve).lookup b = none := by
      by_cases hout : (registered ctx stx e).resolve b.toAlloy = b
      · rw [hlookup b hout]
        by_cases hend : ∃ a ∈ parties ctx stx, a.toAlloy = b.toAlloy
        · obtain ⟨a, ha, hend⟩ := hend
          rw [← hend, hparty a ha] at hout
          exact absurd (hout ▸ ha) hb
        · rcases hkept with hfull | hend' | hkept
          · refine absurd ?_ hfull
            rw [Address.truncated, ← hseparate.resolve_other fun a ha h => hend ⟨a, ha, h⟩]
            exact hout
          · exact absurd hend' hend
          · exact hkept
      · refine AList.lookup_mapKeys_eq_none _ fun c hc => hout ?_
        rw [← hc, htrunc.toAlloy_resolve]
    constructor
    · simp only [legacyCommit, Executor.mapWorld, accounts_advanceNonce]
      rw [if_neg hsender, accounts_commitState, hnone]
      rfl
    · simp only [legacyCommit, Executor.mapWorld, contracts_advanceNonce]
      rw [slots_commitState, hnone]
      rfl

end Vm

/-! ## Two accounts that end alike -/

namespace SameEnd

/-- The storage of contracts as a function. -/
abbrev Slots := Address → ShellHash → ShellHash

/-- An executor whose contracts store what is written to them. -/
def vm : Vm Slots :=
  { nativeCtx with
    rules := plainRules
    customAccepts := fun _ _ _ _ _ => false
    paymasterAccepts := fun _ _ _ _ _ => false
    setStorage := fun contracts a slot value => Function.update contracts a (Function.update (contracts a) slot value)
    transact := fun _ _ _ _ => none }

/-- Reading the storage of contracts. -/
def slots : SlotReader vm where
  getStorage contracts := contracts
  get_set contracts a slot value b other := by
    change Function.update contracts a (Function.update (contracts a) slot value) b other = _
    by_cases h : b = a
    · subst h
      simp [Function.update_apply]
    · simp [h]

/-- revm for plain transfers: the caller needs the value, pays it and has its nonce advanced. Gas is free. -/
def revm (_ : EvmEnv) (tx : EvmTx) (db : Database) : Option RevmOutcome := do
  let recipient ← tx.recipient
  let caller ← db.basic tx.caller.toAlloy
  guard (tx.value ≤ caller.balance)
  let paid : HashMap EvmAddress EvmAccount := AList.insert tx.caller.toAlloy
    ⟨caller.balance, caller.balance - tx.value, caller.nonce + 1, none, []⟩ ∅
  let balance := (paid.lookup recipient.toAlloy).elim (((db.basic recipient.toAlloy).map AccountInfo.balance).getD 0)
    EvmAccount.balance
  let nonce := (paid.lookup recipient.toAlloy).elim (((db.basic recipient.toAlloy).map AccountInfo.nonce).getD 0)
    EvmAccount.nonce
  pure ⟨.success, 0, 0, [], none, paid.insert recipient.toAlloy ⟨balance, balance + tx.value, nonce, none, []⟩⟩

theorem length_full (first last : UInt8) : (first :: List.replicate 31 last).length = 32 :=
  rfl

def full (first last : UInt8) : Address :=
  ⟨first :: List.replicate 31 last, length_full first last⟩

/-- The sender owns 5, another account 100. -/
def state (sender other : Address) : NativeState Slots where
  world := ⟨fun a => if a = sender then some { Account.blank with balance := 5 }
    else if a = other then some { Account.blank with balance := 100 } else none,
    sampleRegistry [], fun _ => false, fun _ _ => .zero⟩
  pubkeys := .empty
  recovery := ⟨fun _ => none, fun _ => none⟩
  registry := .fromAllowlist

/-- A transfer from the sender to the other account. -/
def transfer (sender other : Address) (value : Nat) : SignedTransaction :=
  let stx := nativeTx sender other []
  { stx with tx := { stx.tx with value := value } }

/-- The sender and the other account after a transfer. -/
def after (sender other : Address) (value : Nat) : Option (AccountInfo × AccountInfo) :=
  let run := (vm.withRevm slots revm).executeAndCommit (nativeContext 0) (transfer sender other value) 0 0
    ⟨state sender other, .empty⟩
  match run.1 with
  | .error _ => none
  | .ok _ => some ((run.2.state.world.account sender).info, (run.2.state.world.account other).info)

/-- The sender, which owns 5, sends 50 to an account that ends as it does: revm reads the other account for the sender, so
the transfer succeeds, and the other account, which signed nothing, has its nonce advanced. -/
theorem sent_from_recipient :
    full 1 7 ≠ full 2 7 ∧ (full 1 7).toAlloy = (full 2 7).toAlloy ∧
      (Vm.legacyDatabase slots (nativeContext 0) (transfer (full 1 7) (full 2 7) 50)
        ⟨state (full 1 7) (full 2 7), .empty⟩).basic (full 1 7).toAlloy = some ⟨100, 0, none⟩ ∧
      after (full 1 7) (full 2 7) 50 = some (⟨5, 1, none⟩, ⟨100, 1, none⟩) := by
  decide +kernel

/-- Between accounts that end differently a transfer moves the value from one to the other. -/
theorem transfer_isolated :
    ∃ e' o, Vm.legacyOutcome slots revm (nativeContext 0) (transfer (full 1 7) (full 2 8) 3)
        ⟨state (full 1 7) (full 2 8), .empty⟩ = some o ∧
      Vm.Isolated slots (nativeContext 0) (transfer (full 1 7) (full 2 8) 3)
        (Vm.legacyDatabase slots (nativeContext 0) (transfer (full 1 7) (full 2 8) 3) ⟨state (full 1 7) (full 2 8), .empty⟩) o
        ⟨state (full 1 7) (full 2 8), .empty⟩ e' := by
  have hok : ((vm.withRevm slots revm).executeAndCommit (nativeContext 0) (transfer (full 1 7) (full 2 8) 3) 0 0
      ⟨state (full 1 7) (full 2 8), .empty⟩).1 = .ok () := by decide +kernel
  exact ⟨_, Vm.legacy_execution_isolated vm slots revm (nativeContext 0) (transfer (full 1 7) (full 2 8) 3) 0 0
    ⟨state (full 1 7) (full 2 8), .empty⟩ _ (by decide +kernel) (by decide +kernel) AddressRegistry.truncates_empty
    ⟨by decide +kernel, fun e b h => by cases h⟩ (Prod.ext hok rfl)⟩

example : after (full 1 7) (full 2 8) 3 = some (⟨2, 1, none⟩, ⟨103, 0, none⟩) := by
  decide +kernel

end SameEnd

end ShellChain
