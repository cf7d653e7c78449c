import ShellChain.Production
import ShellChain.Sample

/-!
# A concrete machine

A machine with native transfers and one contract, in which concrete blocks are evaluated. A transfer costs 21000 gas, raises
the nonce of its sender and moves its value. The contract stores the hash of block 1 that `BLOCKHASH` returns. Nothing is
scheduled, so the rules of all heights are off.
-/

namespace ShellChain

open ByteCodec

/-! ## Hashes and keys -/

/-- A digest that depends on every byte. -/
def chainDigest (bs : Bytes) : ShellHash :=
  ⟨beBytes 32 (bs.foldl (fun h b => h * 257 + b.toNat + 1) 1), length_beBytes 32 _⟩

/-- The context of the concrete chains. -/
def chainCtx : Ctx where
  blake3 := chainDigest
  keccak256 := chainDigest
  verify pubkey message sig := some (decide (sig.data = sampleSign pubkey message))

/-- The address of a key under ML-DSA-65. -/
def chainAddress (pubkey : Bytes) : Address :=
  .fromPublicKey chainCtx pubkey SignatureType.mlDsa65.asU8

/-! ## The world state -/

/-- An account. -/
structure SampleAccount where
  address : Address
  nonce : Nat
  balance : Nat
  policy : AccountPolicy
  deriving DecidableEq

/-- An account without a key or a validator. -/
def SampleAccount.funded (address : Address) (balance : Nat) : SampleAccount :=
  ⟨address, 0, balance, ⟨.zero, none⟩⟩

/-- The accounts, and the slot of the contract. -/
structure SampleWorld where
  accounts : List SampleAccount
  slot : Option ShellHash
  deriving DecidableEq

namespace SampleWorld

/-- The account of an address. -/
def find (w : SampleWorld) (address : Address) : Option SampleAccount :=
  w.accounts.find? fun a => a.address = address

/-- The world with the account of an address changed. -/
def modify (w : SampleWorld) (address : Address) (f : SampleAccount → SampleAccount) : SampleWorld :=
  { w with accounts := w.accounts.map fun a => if a.address = address then f a else a }

/-- The world with a value added to an address. -/
def credit (w : SampleWorld) (address : Address) (value : Nat) : SampleWorld :=
  if (w.find address).isSome then w.modify address fun a => { a with balance := a.balance + value }
  else { w with accounts := w.accounts ++ [.funded address value] }

/-- The world after an account has paid for a transaction. -/
def debit (w : SampleWorld) (address : Address) (amount : Nat) : SampleWorld :=
  w.modify address fun a => { a with nonce := a.nonce + 1, balance := a.balance - amount }

/-- The nonce of an address; an unknown one has zero. -/
def nonce (w : SampleWorld) (a : Address) : Nat :=
  ((w.find a).map SampleAccount.nonce).getD 0

/-- The encoding that the root is taken of. -/
def encode (w : SampleWorld) : Bytes :=
  (w.accounts.flatMap fun a => a.address.bytes ++ beBytes 8 a.nonce ++ beBytes 32 a.balance) ++
    (w.slot.map ShellHash.bytes).getD []

end SampleWorld

/-- The address of the contract. -/
def recorder : Address :=
  .repeatByte 0xcc

/-- The gas of a transaction: a transfer, or a call of the contract, which loads a block hash and sets a slot. -/
def sampleGas (stx : SignedTransaction) : Nat :=
  if stx.tx.recipient = some recorder then 43126 else 21000

/-- The execution of a transaction whose sender can pay for it. -/
def sampleExecute (ctx : ExecContext) (s : ExecState SampleWorld Unit) (stx : SignedTransaction)
    (index cumulativeGas : Nat) : ExecState SampleWorld Unit × Option ExecResult :=
  let price := effectiveGasPrice stx.tx.maxFeePerGas stx.tx.maxPriorityFeePerGas ctx.env.baseFeePerGas
  let gasUsed := sampleGas stx
  match s.world.find stx.sender, stx.tx.recipient with
  | some account, some recipient =>
    if account.balance < stx.tx.value + stx.tx.gasLimit * stx.tx.maxFeePerGas then (s, none)
    else
      let debited := s.world.debit stx.sender (stx.tx.value + gasUsed * price)
      let world := if recipient = recorder then { debited with slot := ctx.blockHash 1 }
        else debited.credit recipient stx.tx.value
      let receipt := ⟨stx.hash chainCtx, ctx.env.number, index, 1, gasUsed, cumulativeGas + gasUsed, none,
        List.replicate bloomSize 0, []⟩
      ({ s with world := world }, some ⟨gasUsed, receipt, true⟩)
  | _, _ => (s, none)

/-! ### What an execution changes -/

variable {ctx : ExecContext} {s : ExecState SampleWorld Unit} {stx : SignedTransaction} {index gas : Nat}

/-- An execution changes only the world state. -/
theorem sampleExecute_frame {result : Option ExecResult} (h : sampleExecute ctx s stx index gas = (after, result)) :
    after.pubkeys = s.pubkeys ∧ after.recovery = s.recovery ∧ after.registry = s.registry := by
  unfold sampleExecute at h
  split at h
  · simp only at h
    split at h <;> obtain ⟨rfl, -⟩ := Prod.mk.inj h <;> exact ⟨rfl, rfl, rfl⟩
  · obtain ⟨rfl, -⟩ := Prod.mk.inj h
    exact ⟨rfl, rfl, rfl⟩

/-- An execution neither reads nor changes the keys. -/
theorem sampleExecute_registerNew (ctx : ExecContext) (s : ExecState SampleWorld Unit) (newPubkeys : KeyTable)
    (stx : SignedTransaction) (index gas : Nat) : sampleExecute ctx (s.registerNew newPubkeys) stx index gas =
      ((sampleExecute ctx s stx index gas).1.registerNew newPubkeys, (sampleExecute ctx s stx index gas).2) := by
  simp only [sampleExecute, ExecState.registerNew]
  split
  · split
    · rfl
    · rfl
  · rfl

/-- The machine of the concrete chains. -/
def sampleMachine : Machine SampleWorld Unit where
  toCtx := chainCtx
  nonce := SampleWorld.nonce
  account w a := (w.find a).map SampleAccount.policy
  validators _ := []
  algorithmMatured _ _ _ := false
  customAccepts _ _ _ _ _ := true
  paymasterAccepts _ _ _ _ _ := false
  execute := sampleExecute
  addBalance w a value := some (w.credit a value)
  proverRegistered _ _ := false
  recordProverSettlement w _ _ := w
  applyStarkMint w tx := some (w.credit tx.recipient tx.value)
  processPendingActivations _ w r := some (w, r)
  loadAlgorithmRegistry _ := some .fromAllowlist
  stateRoot w := chainDigest w.encode
  sigProofToJson _ := none
  sigProofFromJson _ := none
  verifySigBatch _ := false
  amendmentToJson _ := none
  amendmentFromJson _ := none
  proofSourceBinding _ _ := false
  systemExtraFromJson _ := none

/-! ## A chain with one validator -/

def validatorKey : Bytes :=
  [1]

def validatorAddress : Address :=
  chainAddress validatorKey

def validatorSign (message : Bytes) : PQSignature :=
  ⟨.mlDsa65, sampleSign validatorKey message⟩

def senderKey : Bytes :=
  [7]

def senderKeys : KeyTable :=
  fun a => if a = chainAddress senderKey then some senderKey else none

def senderWorld : SampleWorld :=
  ⟨[.funded (chainAddress senderKey) 1000000000], none⟩

/-- No rule is scheduled. -/
def sampleChainConfig : ChainConfig :=
  ⟨none, none, none, none, none, none, none, none, none, ∅⟩

def sampleConfig : NodeConfig :=
  ⟨1337, sampleChainConfig, 500, some validatorAddress, false⟩

/-- The engine: the validator proposes every block. -/
def sampleEngine : Engine where
  isActive a := a = validatorAddress
  proposerForBlock _ := validatorAddress
  baseProposerForBlock _ := validatorAddress
  firstViewForProposer _ a := if a = validatorAddress then some 0 else none
  validatorWeights := ⟨[⟨validatorAddress, 1⟩].toAList, by decide +kernel⟩
  blockTimeSecs := 1
  maxFutureSecs := 15

def genesisBlock (w : SampleWorld) : Block :=
  ⟨{ (default : BlockHeader) with
      stateRoot := sampleMachine.stateRoot w, gasLimit := 30000000, timestamp := 1000, baseFeePerGas := 1000 }, [], [],
    none⟩

def genesisNode (w : SampleWorld) (pubkeys : KeyTable) : ChainNode SampleWorld Unit :=
  let genesis := genesisBlock w
  let hash := genesis.hash chainCtx
  { config := sampleConfig
    engine := sampleEngine
    head := genesis
    blocks := fun h => if h = hash then some genesis else none
    canonical := fun n => if n = 0 then some hash else none
    receipts := fun _ => none
    state := ⟨w, pubkeys, (), .fromAllowlist⟩
    worldAt := fun root => if root = genesis.header.stateRoot then some w else none
    metadataUndo := fun _ => none
    certified := fun _ _ => false
    knownAuthorities := fun a => if a = validatorAddress then some validatorKey else none
    finality := .withFinalized 0 hash
    finalizedNumber := none
    forkChoice := ⟨hash, fun _ => none, fun _ _ => none, fun _ _ => []⟩
    settledSources := ∅
    settledFrontiers := fun _ => none
    storedArtifact := fun _ => false }

def sealSample (block : Block) : Block :=
  { block with proposerSeal := some ⟨.mlDsa65, sampleSign validatorKey (block.hash chainCtx).bytes⟩ }

def sampleTransfer (key : Bytes) (nonce : Nat) (recipient : Address) (value gasLimit maxFee : Nat) (mode : PubkeyMode) :
    SignedTransaction :=
  let tx : Transaction := ⟨1337, nonce, some recipient, value, [], gasLimit, maxFee, 0, none, 2, none, none⟩
  ⟨chainAddress key, tx,
    ⟨.mlDsa65, sampleSign key (tx.signingHash chainCtx SignatureType.mlDsa65.asU8).bytes⟩, mode, none⟩

/-- The block of the validator on the head of a node with the given gas limit and transactions, whatever they pay. No
transaction of the machine logs anything, so its bloom is left empty. -/
def forgeBlock (node : ChainNode SampleWorld Unit) (timestamp gasLimit : Nat) (transactions : List SignedTransaction) :
    Option Block :=
  let hdr := { preliminaryHeader chainCtx node.head (node.head.number + 1) timestamp validatorAddress with
    gasLimit := gasLimit }
  let ctx := node.execContext chainCtx hdr
  match executeTxs sampleMachine ctx (embeddedPubkeys transactions) 0 (.start node.state) transactions with
  | .error _ => none
  | .ok executed =>
    match rewardProposer sampleMachine ctx hdr.parentHash transactions.length executed with
    | .error _ => none
    | .ok rewarded =>
      some (sealSample ⟨{ hdr with
        gasUsed := executed.cumulativeGas
        stateRoot := sampleMachine.stateRoot rewarded.1.state.world }, transactions, rewarded.2, none⟩)

end ShellChain
