import ShellChain.Execution
import ShellChain.Penalties
import ShellChain.Lib.Effect

/-!
# The world state

The accounts and the storage of the validator registry (`storage/src/world_state.rs`, `prover_registry.rs`), with the
guardians and recoveries of the chain store. The source keeps the registry in storage slots whose keys are hashes of byte
strings; here a slot is named by what is hashed, so that distinct records are in distinct slots. What contracts store is
one value of any type.
-/

namespace ShellChain

/-! ## Accounts -/

/-- The record of an account. Its storage is kept apart. -/
structure Account where
  pqPubkeyHash : ShellHash
  nonce : Nat
  balance : Nat
  validationCodeHash : Option ShellHash
  codeHash : Option ShellHash
  deriving DecidableEq

/-- The record that an account without one is read as. -/
def Account.blank : Account :=
  ⟨.zero, 0, 0, none, none⟩

/-! ## The storage of the validator registry -/

/-- What validators vote on, with the value of a proposed weight or stake. -/
inductive ValidatorRegistryOp
  | registerProver
  | add
  | remove
  | setWeight (weight : Nat)
  | setStake (stake : Nat)
  deriving DecidableEq

/-- The kinds of votes on an algorithm. -/
inductive AlgorithmGovernanceOp
  | proposeActivation
  | proposeActivationMlDsa
  | proposeActivationSlh
  | deprecate
  | deprecateMlDsa
  | deprecateSlh
  deriving DecidableEq

/-- What `validator_vote_key` hashes: the operation, its target, the voter and the validators at the time. -/
structure ValidatorVoteKey where
  op : ValidatorRegistryOp
  target : Address
  voter : Address
  validators : List Address
  deriving DecidableEq

/-- What `algorithm_vote_key` hashes: the operation, the algorithm, the voter and the validators at the time. -/
structure AlgorithmVoteKey where
  op : AlgorithmGovernanceOp
  algo : SignatureType
  voter : Address
  validators : List Address
  deriving DecidableEq

/-- The words that the registry keeps about an algorithm; a height of zero and the zero hash mean that nothing is stored. -/
structure AlgorithmRecord where
  status : Option AlgorithmStatus
  activationHeight : Nat
  verifierHash : ShellHash
  quorumRequired : Bool
  quorumApproved : Bool
  /-- The staged proposal: its height, its verifier and the end of its voting window. -/
  proposalHeight : Nat
  proposalVerifier : ShellHash
  votingDeadline : Nat
  /-- The current proposal with an identity of its own. -/
  proposalId : ShellHash
  deriving DecidableEq

/-- The record of an algorithm without any word. -/
def AlgorithmRecord.blank : AlgorithmRecord :=
  ⟨none, 0, .zero, false, false, 0, .zero, 0, .zero⟩

/-- A proposal with an identity: its eight words, the end of its voting window and whether it is approved. -/
structure ProposalRecord where
  spec : List ShellHash
  deadline : Nat
  approved : Bool
  deriving DecidableEq

/-- A proof signing identity (`RegisteredProver`). -/
structure RegisteredProver where
  publicKey : Bytes
  algorithm : UInt8
  registeredAt : Nat
  proofsSubmitted : Nat
  lastProofBlock : Nat
  deriving DecidableEq

/-- The storage of the validator registry. A weight or a bound of zero means that nothing is stored. -/
structure RegistryStorage where
  validators : List Address
  weights : Address → Nat
  stakes : Address → Nat
  stakingEnabled : Bool
  totalStaked : Nat
  stakeUnit : Nat
  maxWeight : Nat
  provers : Address → Option RegisteredProver
  votes : ValidatorVoteKey → Bool
  algorithms : SignatureType → AlgorithmRecord
  algorithmVotes : AlgorithmVoteKey → Bool
  proposals : ShellHash → ProposalRecord
  /-- Votes on a proposal, by the algorithm they were authenticated with. -/
  proposalVotes : ShellHash → Address → Option SignatureType → Bool

namespace RegistryStorage

def maxValidators : Nat :=
  1000

def getValidatorWeight (r : RegistryStorage) (validator : Address) : Nat :=
  max (r.weights validator) 1

def getMaxValidatorWeight (r : RegistryStorage) : Nat :=
  if r.maxWeight = 0 then u64Max else r.maxWeight

end RegistryStorage

/-! ## World states -/

/-- The world state, with the storage of contracts as one value. -/
structure WorldState (κ : Type) where
  accounts : Address → Option Account
  registry : RegistryStorage
  /-- The chain store has code for a hash. -/
  codes : ShellHash → Bool
  contracts : κ

namespace WorldState

variable {κ : Type}

variable (w : WorldState κ) (a : Address)

/-- `get_or_default`. -/
def account : Account :=
  (w.accounts a).getD .blank

def setAccount (record : Account) : WorldState κ :=
  { w with accounts := Function.update w.accounts a (some record) }

/-- `get_balance`. -/
def balance : Nat :=
  (w.account a).balance

/-- `get_nonce`. -/
def nonce : Nat :=
  (w.account a).nonce

def setBalance (balance : Nat) : WorldState κ :=
  w.setAccount a { w.account a with balance := balance }

/-- `add_balance`; none on overflow. -/
def addBalance (amount : Nat) : Option (WorldState κ) :=
  if w.balance a + amount ≤ u256Max then some (w.setBalance a (w.balance a + amount)) else none

/-- `sub_balance`; none when the balance is too low. -/
def subBalance (amount : Nat) : Option (WorldState κ) :=
  if amount ≤ w.balance a then some (w.setBalance a (w.balance a - amount)) else none

/-- `increment_nonce`; none on overflow. -/
def incrementNonce : Option (WorldState κ) :=
  (checkedAdd (w.nonce a) 1).map fun nonce => w.setAccount a { w.account a with nonce := nonce }

/-- The world state with another storage of the registry. -/
def mapRegistry (f : RegistryStorage → RegistryStorage) : WorldState κ :=
  { w with registry := f w.registry }

end WorldState

/-! ## Guardians and recoveries -/

/-- The guardians of an account (`GuardianConfig`). -/
structure GuardianConfig where
  guardians : List Address
  threshold : Nat
  timelock : Nat
  deriving DecidableEq

/-- An active recovery of an account (`RecoveryProposal`). A maturity of zero means that the threshold is not reached. -/
structure RecoveryProposal where
  newPubkey : Bytes
  newAlgo : UInt8
  votes : List Address
  maturityBlock : Nat
  deriving DecidableEq

/-- The guardians and the recoveries of the chain store. -/
structure RecoveryStore where
  guardians : Address → Option GuardianConfig
  proposals : Address → Option RecoveryProposal

abbrev NativeState (κ : Type) := ExecState (WorldState κ) RecoveryStore

end ShellChain
