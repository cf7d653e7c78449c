import ShellChain.Executor

/-!
# revm before the native address context

revm knows accounts by 20-byte addresses. Before the native address context these are the ends of full addresses:
`ShellStateDb` answers what revm reads through the registry of full addresses, and `commit_pqvm_state` writes what revm
changed through the same registry (`pqvm/src/state_db.rs`, `executor.rs`). Here revm is any function of its transaction and
of the answers of that database.
-/

namespace ShellChain

variable {κ : Type}

/-! ## The database -/

/-- What revm reads of an account (`AccountInfo`). -/
structure AccountInfo where
  balance : Nat
  nonce : Nat
  codeHash : Option ShellHash
  deriving DecidableEq

/-- `to_account_info`. -/
def Account.info (a : Account) : AccountInfo :=
  ⟨a.balance, a.nonce, a.codeHash⟩

/-- What `ShellStateDb` answers to revm. -/
structure Database where
  basic : EvmAddress → Option AccountInfo
  storage : EvmAddress → ShellHash → ShellHash

/-- The storage of contracts as revm reads it: a written slot holds what was written, and other slots what they held. -/
structure SlotReader (vm : Vm κ) where
  getStorage : κ → Address → ShellHash → ShellHash
  get_set : ∀ contracts a slot value b other, getStorage (vm.setStorage contracts a slot value) b other =
    if b = a ∧ other = slot then value else getStorage contracts b other

/-- `impl Database for ShellStateDb`, with the addresses registered so far. -/
def database {vm : Vm κ} (slots : SlotReader vm) (registry : AddressRegistry) (s : NativeState κ) : Database where
  basic e := (s.world.accounts (registry.resolve e)).map Account.info
  storage e slot := slots.getStorage s.world.contracts (registry.resolve e) slot

/-! ## Outcomes -/

/-- A log of revm. -/
structure RevmLog where
  address : EvmAddress
  topics : List ShellHash
  data : Bytes

/-- What revm returns, with the accounts under its own addresses. -/
structure RevmOutcome where
  status : EvmStatus
  gasSpent : Nat
  gasUsed : Nat
  logs : List RevmLog
  created : Option EvmAddress
  state : HashMap EvmAddress EvmAccount

/-- The outcome as the executor takes it: accounts and logs under the addresses that the registry has for them. -/
def RevmOutcome.resolved (o : RevmOutcome) (registry : AddressRegistry) : EvmOutcome where
  status := o.status
  gasSpent := o.gasSpent
  gasUsed := o.gasUsed
  logs := o.logs.map fun log => ⟨registry.resolve log.address, log.address, log.topics, log.data⟩
  created := o.created
  transfers := []
  state := o.state.mapKeys registry.resolve

/-! ## Transactions -/

/-- The address that revm sees for a full one. -/
def Address.truncated (a : Address) : Address :=
  .fromAlloy a.toAlloy

/-- The environment that revm sees. -/
def EvmEnv.truncated (env : EvmEnv) : EvmEnv :=
  { env with beneficiary := env.beneficiary.truncated }

/-- The transaction that revm sees. -/
def EvmTx.truncated (tx : EvmTx) : EvmTx :=
  { tx with
    caller := tx.caller.truncated
    recipient := tx.recipient.map Address.truncated
    accessList := tx.accessList.map fun item => { item with address := item.address.truncated } }

namespace Vm

/-- The executor whose revm works on truncated addresses wherever the native address context is not in force. -/
def withRevm (vm : Vm κ) (slots : SlotReader vm) (revm : EvmEnv → EvmTx → Database → Option RevmOutcome) : Vm κ :=
  { vm with
    transact := fun env tx identities s => match identities with
      | .native => vm.transact env tx .native s
      | .truncated registry =>
        (revm env.truncated tx.truncated (database slots registry s)).map fun o => o.resolved registry }

/-- The full addresses that a transaction names to revm: the sender, the proposer and the recipient. -/
def parties (ctx : ExecContext) (stx : SignedTransaction) : List Address :=
  stx.sender :: ctx.env.proposer :: stx.tx.recipient.toList

def executeAndCommit (vm : Vm κ) (ctx : ExecContext) (stx : SignedTransaction) (txIndex cumulativeGas : Nat) :
    ExecutorM κ Unit := do
  let result ← vm.executeTx ctx stx txIndex cumulativeGas
  vm.commitPqvmState stx.sender result

end Vm

end ShellChain
