import ShellChain.SystemContracts

/-!
# The boundary to revm

What the executor hands to revm and what it gets back (`pqvm/src/executor.rs`, `state_db.rs`, `bloom.rs`). revm itself is a
function outside the model. It knows accounts by 20-byte addresses; before the native address context they are truncated
ones, which the executor resolves through a registry of full addresses. The accounts of an outcome stand here under the
addresses they resolve to.
-/

namespace ShellChain

variable {κ : Type}

/-! ## Addresses -/

/-- An address of revm. -/
structure EvmAddress where
  bytes : Bytes
  length_eq : bytes.length = 20
  deriving DecidableEq

/-- `Address::to_alloy`: the last 20 bytes. -/
def Address.toAlloy (a : Address) : EvmAddress :=
  ⟨a.bytes.drop 12, by simp [a.length_eq]⟩

/-- `Address::from_alloy`: zeros in front. -/
def Address.fromAlloy (e : EvmAddress) : Address :=
  ⟨List.replicate 12 0 ++ e.bytes, by simp [e.length_eq]⟩

/-- `address_registry`: the full addresses that truncated ones stand for. -/
abbrev AddressRegistry := EvmAddress → Option Address

namespace AddressRegistry

def empty : AddressRegistry :=
  fun _ => none

/-- `register_pq_address`: an address that is not a padded one is entered, in the place of another with the same end. -/
def register (r : AddressRegistry) (a : Address) : AddressRegistry :=
  if Address.fromAlloy a.toAlloy ≠ a then Function.update r a.toAlloy (some a) else r

/-- `resolve_address`. -/
def resolve (r : AddressRegistry) (e : EvmAddress) : Address :=
  (r e).getD (.fromAlloy e)

end AddressRegistry

/-- How revm's addresses resolve: by handles that keep full addresses apart (`NativeAddressContext`), or by the
registry. -/
inductive Identities
  | native
  | truncated (registry : AddressRegistry)

/-! ## Transactions and outcomes -/

/-- The block, the configuration and the fee handler of an execution. -/
structure EvmEnv where
  chainId : Nat
  number : Nat
  timestamp : Nat
  gasLimit : Nat
  baseFee : Nat
  excessBlobGas : Nat
  beneficiary : Address
  /-- The fee of the beneficiary is left to the block (`SystemRewardHandler`). -/
  systemReward : Bool
  /-- `disable_balance_check`. -/
  unchecked : Bool

/-- The transaction of an execution (`TxEnv`), with full addresses. -/
structure EvmTx where
  caller : Address
  recipient : Option Address
  value : Nat
  data : Bytes
  nonce : Nat
  gasLimit : Nat
  maxFeePerGas : Nat
  maxPriorityFeePerGas : Nat
  accessList : List AccessListItem
  blobHashes : List ShellHash
  maxFeePerBlobGas : Nat

/-- A transfer of balance. -/
structure Transfer where
  source : Address
  target : Address
  amount : Nat

/-- An account of the outcome: its balance before and after, its nonce, the code it has and the slots that were written. -/
structure EvmAccount where
  originalBalance : Nat
  balance : Nat
  nonce : Nat
  codeHash : Option ShellHash
  storage : List (ShellHash × ShellHash)

/-- A log of the outcome, with the address as it resolves and as revm has it. -/
structure EvmLog where
  resolved : Address
  truncated : EvmAddress
  topics : List ShellHash
  data : Bytes

/-- How an execution ended. -/
inductive EvmStatus
  | success
  | revert
  | halt
  deriving DecidableEq

/-- What revm returns for a transaction that it accepts. -/
structure EvmOutcome where
  status : EvmStatus
  gasSpent : Nat
  gasUsed : Nat
  logs : List EvmLog
  created : Option EvmAddress
  /-- The transfers of the execution in their order; the executor does not read them. -/
  transfers : List Transfer
  state : HashMap Address EvmAccount

/-- The heights of rules that only the executor reads. -/
structure ExecutorRules extends NativeRules where
  bloomActivationHeight : Option Nat
  logAddressActivationHeight : Option Nat

/-- The functions outside the model that the executor calls, and the rules of the chain. -/
structure Vm (κ : Type) extends Ctx where
  rules : ExecutorRules
  /-- `validate_custom_contract`. -/
  customAccepts : ExecContext → NativeState κ → SignedTransaction → ShellHash → Bytes → Bool
  /-- `call_paymaster_validate`. -/
  paymasterAccepts : ExecContext → NativeState κ → SignedTransaction → Address → Bytes → Bool
  /-- A slot of a contract is written. -/
  setStorage : κ → Address → ShellHash → ShellHash → κ
  /-- revm; none when it refuses the transaction. -/
  transact : EvmEnv → EvmTx → Identities → NativeState κ → Option EvmOutcome

/-! ## Validation -/

/-- `get_validators` where it can be read. -/
def RegistryStorage.readableValidators (r : RegistryStorage) : List Address :=
  if r.validators.length ≤ RegistryStorage.maxValidators ∧ r.validators.Nodup then r.validators else []

/-- `approved_algorithm_matured`. -/
def RegistryStorage.algorithmMatured (r : RegistryStorage) (height : Nat) (algo : SignatureType) : Bool :=
  let a := r.algorithms algo
  a.status = some .pendingActivation ∧ a.quorumApproved ∧ 0 < a.activationHeight ∧ a.activationHeight ≤ height

/-- What an account says about its authentication. -/
def Account.policy (a : Account) : AccountPolicy :=
  ⟨a.pqPubkeyHash, a.validationCodeHash⟩

/-- What validation sees of a state. -/
def Vm.view (vm : Vm κ) (ctx : ExecContext) (s : NativeState κ) : ValidationView where
  config := ctx.config
  registry := s.registry
  blockNumber := ctx.env.number
  account a := (s.world.accounts a).map Account.policy
  pubkey := s.pubkeys
  validators := s.world.registry.readableValidators
  algorithmMatured := s.world.registry.algorithmMatured ctx.env.number
  customAccepts := vm.customAccepts ctx s
  paymasterAccepts := vm.paymasterAccepts ctx s

/-! ## Logs -/

def maxLogTopics : Nat :=
  4

/-- `BloomFormat::bit_location`: the byte and the bit of an index, in the legacy order or in the standard one. -/
def bloomLocation (standard : Bool) (index : Nat) : Nat × Nat :=
  if standard then (bloomSize - 1 - index / 8, index % 8) else (index / 8, 7 - index % 8)

def bloomInsert (Γ : Ctx) (standard : Bool) (bloom data : Bytes) : Bytes :=
  let digest := (Γ.keccak256 data).bytes
  (List.range 3).foldl (fun bloom i =>
    let index := ((digest.getD (2 * i) 0).toNat * 256 + (digest.getD (2 * i + 1) 0).toNat) % 2048
    let location := bloomLocation standard index
    bloom.modify location.1 fun byte => byte ||| UInt8.ofNat (2 ^ location.2)) bloom

def logsBloomWithFormat (Γ : Ctx) (standard : Bool) (logs : List Log) : Bytes :=
  logs.foldl (fun bloom log => log.topics.foldl (fun bloom topic => bloomInsert Γ standard bloom topic.bytes)
    (bloomInsert Γ standard bloom log.address.bytes)) (List.replicate bloomSize 0)

/-- The logs of an outcome; one with too many topics is dropped. -/
def EvmOutcome.shellLogs (o : EvmOutcome) (fullAddresses : Bool) : List Log :=
  (o.logs.filter fun log => log.topics.length ≤ maxLogTopics).map fun log =>
    ⟨if fullAddresses then log.resolved else .fromAlloy log.truncated, log.topics, log.data⟩

namespace Vm

def reconciledFees (vm : Vm κ) (number : Nat) : Bool :=
  activeAt vm.rules.feeAccountingActivationHeight number

/-- The bloom of logs at a height (`log_rules`). -/
def bloomOf (vm : Vm κ) (number : Nat) (logs : List Log) : Bytes :=
  logsBloomWithFormat vm.toCtx (activeAt vm.rules.bloomActivationHeight number) logs

/-- The native address context is in force at a height. -/
def nativeContext (vm : Vm κ) (number : Nat) : Bool :=
  activeAt vm.rules.nativeAddressContextHeight number

/-- Logs carry full addresses at a height. -/
def fullLogAddresses (vm : Vm κ) (number : Nat) : Bool :=
  vm.nativeContext number || activeAt vm.rules.logAddressActivationHeight number

/-! ## Committing an outcome -/

/-- The world state with one account of an outcome (`do_commit_state`). -/
def commitAccount (vm : Vm κ) (w : WorldState κ) (address : Address) (x : EvmAccount) : WorldState κ :=
  let account := w.account address
  let committed := { account with
    nonce := x.nonce
    balance := x.balance
    codeHash := x.codeHash.orElse fun _ => account.codeHash }
  let w := w.setAccount address committed
  { w with
    codes := fun hash => w.codes hash || decide (x.codeHash = some hash)
    contracts := x.storage.foldl (fun contracts slot => vm.setStorage contracts address slot.1 slot.2) w.contracts }

/-- The world state with the accounts of an outcome. -/
def commitState (vm : Vm κ) (w : WorldState κ) (state : HashMap Address EvmAccount) : WorldState κ :=
  state.entries.foldl (fun w entry => vm.commitAccount w entry.1 entry.2) w

/-- The nonce of the sender is at least the one after the transaction. -/
def advanceNonce (w : WorldState κ) (sender : Address) (nonceAfter : Nat) : WorldState κ :=
  if 0 < nonceAfter then
    w.setAccount sender { w.account sender with nonce := max (w.account sender).nonce nonceAfter }
  else w

end Vm

end ShellChain
