import ShellChain.Amendment
import ShellChain.Block
import ShellChain.Lib.Checks

/-!
# Transaction validation

The checks of a transaction before it is executed in a block: `pqvm/src/tx_validation.rs`, `aa_validation.rs` and
`key_binding.rs`, on the import path. Validation reads the state through a `ValidationView`; what a contract decides (a
custom validator, a contract paymaster) is a function of the view.
-/

namespace ShellChain

open Checks

/-! ## What validation reads -/

/-- The heights at which rules of the chain start, none for a rule that is not scheduled, and the fallback keys of the
genesis. -/
structure ChainConfig where
  emergencyGovernanceHeight : Option Nat
  algorithmActivationAdmissionHeight : Option Nat
  algorithmDeprecationHeight : Option Nat
  algorithmSessionDeprecationHeight : Option Nat
  sessionRegisteredRootHeight : Option Nat
  algorithmPaymasterDeprecationHeight : Option Nat
  paymasterRegisteredRootHeight : Option Nat
  registeredKeyAlgorithmHeight : Option Nat
  proverRegistryHeight : Option Nat
  governanceFallbackKeys : HashMap Address Bytes

/-- A rule scheduled at a height is in force at a block. -/
def activeAt (height : Option Nat) (blockNumber : Nat) : Bool :=
  height.any (· ≤ blockNumber)

/-- What an account says about its authentication. -/
structure AccountPolicy where
  pqPubkeyHash : ShellHash
  validationCodeHash : Option ShellHash
  deriving DecidableEq

/-- What validation reads at the height of a block. -/
structure ValidationView where
  config : ChainConfig
  registry : AlgorithmRegistry
  blockNumber : Nat
  account : Address → Option AccountPolicy
  pubkey : Address → Option Bytes
  validators : List Address
  /-- `approved_algorithm_matured` at the height. -/
  algorithmMatured : SignatureType → Bool
  /-- `validate_custom_contract` with the code hash and the key it is given. -/
  customAccepts : SignedTransaction → ShellHash → Bytes → Bool
  /-- `call_paymaster_validate` with the paymaster and the context. -/
  paymasterAccepts : SignedTransaction → Address → Bytes → Bool

/-- A signature verifier; none is an error. -/
abbrev Verifier := Bytes → Bytes → PQSignature → Option Bool

/-- `PreVerified`: every signature passes. -/
def preVerified : Verifier :=
  fun _ _ _ => some true

/-! ## Errors -/

/-- `TxValidationError`, with the values that the messages show. -/
inductive TxValidationError
  | pubkeyNotFound
  | addressMismatch (sender derived : Address)
  | signatureInvalid
  | nonceMismatch (expected got : Nat)
  | nonceOverflow
  | chainIdMismatch (expected got : Nat)
  | unsupportedTransactionType (txType : UInt8)
  | priorityFeeAboveMaxFee (priorityFee maxFee : Nat)
  | gasTooLow (gasLimit : Nat)
  | pubkeyConflict
  | disallowedAlgorithm (sigType : SignatureType)
  | invalidAccessList (message : String)
  | invalidBlobTx (message : String)
  | invalidAaBundle (message : String)
  | bundleTypeMismatch (txType : UInt8) (hasBundle : Bool)
  | paymasterIsSender
  | innerGasExceeds (innerSum surcharge gasLimit : Nat)
  | innerValueOverflow
  | innerValueExceeds (innerValueSum value : Nat)
  | crypto
  | aaValidation
  | paymasterPubkeyNotFound (paymaster : Address)
  | paymasterSignatureInvalid
  | paymasterRejected
  | sessionKeyExpired (expiryBlock currentBlock : Nat)
  | sessionValueCapExceeded
  | sessionTargetMismatch
  | sessionRootSignatureInvalid
  | sessionKeySignatureInvalid
  | sessionKeyDisallowedAlgorithm (algo : UInt8)
  deriving DecidableEq

/-! ## Structural checks -/

def maxAccessListEntries : Nat :=
  256

def maxAccessListStorageKeys : Nat :=
  512

def maxBlobHashesPerTx : Nat :=
  6

def Transaction.validateAccessList (tx : Transaction) : Except String Unit :=
  match tx.accessList with
  | none => .ok ()
  | some items => do
    ensure (items.length ≤ maxAccessListEntries) "access list exceeds maximum entry count"
    ensure (items.all fun item => item.storageKeys.length ≤ maxAccessListStorageKeys)
      "access list entry exceeds maximum storage key count"

def Transaction.validateBlobTx (tx : Transaction) : Except String Unit :=
  if tx.txType ≠ 3 then do
    ensure tx.maxFeePerBlobGas.isNone "non-blob tx cannot have max_fee_per_blob_gas"
    ensure tx.blobVersionedHashes.isNone "non-blob tx cannot have blob_versioned_hashes"
  else
    match tx.blobVersionedHashes with
    | none => .error "blob tx (type 3) must have blob_versioned_hashes"
    | some hashes => do
      ensure (0 < hashes.length) "blob tx must have at least 1 blob hash"
      ensure (hashes.length ≤ maxBlobHashesPerTx) "blob tx exceeds maximum blob hash count (6)"
      ensure tx.maxFeePerBlobGas.isSome "blob tx must have max_fee_per_blob_gas"
      ensure tx.recipient.isSome "blob tx cannot be a contract creation"
      ensure (hashes.all fun h => h.bytes.head? = some 1) "blob tx has unsupported versioned hash version"

def maxInnerCalls : Nat :=
  16

def maxInnerCalldata : Nat :=
  128 * 1024

def maxPaymasterContext : Nat :=
  4 * 1024

def maxSessionPubkey : Nat :=
  4 * 1024

namespace AaBundle

/-- The pairing of paymaster, signature and context: none, a signature or a context. -/
def validatePaymasterFields (bundle : AaBundle) : Except String Unit :=
  match bundle.paymaster, bundle.paymasterSignature, bundle.paymasterContext with
  | none, none, none => .ok ()
  | some _, some sig, none =>
    ensure (0 < sig.length) "aa bundle: paymaster set but signature missing/empty"
  | some _, none, some context =>
    if context.length = 0 then .error "aa bundle: invalid paymaster field combination"
    else ensure (context.length ≤ maxPaymasterContext) "aa bundle: paymaster_context exceeds MAX_PAYMASTER_CONTEXT"
  | some _, none, none => .error "aa bundle: paymaster set but signature missing/empty"
  | some _, some _, some _ =>
    .error "aa bundle: paymaster_signature and paymaster_context are mutually exclusive"
  | none, some _, _ => .error "aa bundle: paymaster_signature set but paymaster missing"
  | none, none, some _ => .error "aa bundle: paymaster_context set but paymaster missing"

/-- The bounds of a session authorisation. -/
def validateSessionFields (sa : SessionAuth) : Except String Unit := do
  ensure (0 < sa.sessionPubkey.length) "aa bundle: session_auth.session_pubkey is empty"
  ensure (sa.sessionPubkey.length ≤ maxSessionPubkey) "aa bundle: session_auth.session_pubkey exceeds size limit"
  ensure (0 < sa.expiryBlock) "aa bundle: session_auth.expiry_block must be > 0"
  ensure (0 < sa.rootSignature.length) "aa bundle: session_auth.root_signature is empty"
  ensure (sa.rootSignature.length ≤ maxSignatureBytes) "aa bundle: session_auth.root_signature exceeds size limit"
  ensure (0 < sa.sessionSignature.length) "aa bundle: session_auth.session_signature is empty"
  ensure (sa.sessionSignature.length ≤ maxSignatureBytes) "aa bundle: session_auth.session_signature exceeds size limit"

def validateStructure (bundle : AaBundle) : Except String Unit := do
  ensure (0 < bundle.innerCalls.length) "aa bundle: inner_calls must be non-empty"
  ensure (bundle.innerCalls.length ≤ maxInnerCalls) "aa bundle: inner_calls exceeds MAX_INNER_CALLS"
  ensure (bundle.innerCalls.all fun call => call.data.length ≤ maxInnerCalldata)
    "aa bundle: inner call data exceeds MAX_INNER_CALLDATA"
  bundle.validatePaymasterFields
  match bundle.sessionAuth with
  | some sa => validateSessionFields sa
  | none => .ok ()

def innerGasSum (bundle : AaBundle) : Nat :=
  (bundle.innerCalls.map InnerCall.gasLimit).sum

/-- `AaBundle::checked_inner_value_sum`, none when the sum leaves `U256`. -/
def checkedInnerValueSum (bundle : AaBundle) : Option Nat :=
  let sum := (bundle.innerCalls.map InnerCall.value).sum
  if sum < 2 ^ 256 then some sum else none

def intrinsicGasSurcharge (bundle : AaBundle) : Nat :=
  (bundle.innerCalls.length - 1) * 4000 + if bundle.sessionAuth.isSome then 20000 else 0

end AaBundle

/-- `validate_aa_bundle_structure`: the gas of the inner calls with the surcharge, zero without a bundle. -/
def validateAaBundleStructure (stx : SignedTransaction) : Except TxValidationError Nat := do
  ensure (decide (stx.tx.txType = aaBundleTxType) == stx.aaBundle.isSome)
    (.bundleTypeMismatch stx.tx.txType stx.aaBundle.isSome)
  match stx.aaBundle with
  | none => pure 0
  | some bundle =>
    (bundle.validateStructure).mapError .invalidAaBundle
    ensure (bundle.paymaster ≠ some stx.sender) .paymasterIsSender
    ensure (bundle.innerGasSum + bundle.intrinsicGasSurcharge ≤ stx.tx.gasLimit)
      (.innerGasExceeds bundle.innerGasSum bundle.intrinsicGasSurcharge stx.tx.gasLimit)
    match bundle.checkedInnerValueSum with
    | none => throw .innerValueOverflow
    | some sum =>
      ensure (sum ≤ stx.tx.value) (.innerValueExceeds sum stx.tx.value)
      pure (bundle.innerGasSum + bundle.intrinsicGasSurcharge)

/-- The gas of the data: four for a zero byte, sixteen for another. -/
def calldataGas (data : Bytes) : Nat :=
  (data.map fun b => if b = 0 then 4 else 16).sum

def computeIntrinsicGas (data : Bytes) (isCreate : Bool) (accessList : Option (List AccessListItem)) : Nat :=
  min (21000 + (if isCreate then 32000 else 0) + calldataGas data +
    ((accessList.getD []).map fun item => 2400 + 1900 * item.storageKeys.length).sum) u64Max

/-- `total_intrinsic_gas`: the envelope of a bundle does not create a contract. -/
def totalIntrinsicGas (stx : SignedTransaction) (aaExtraGas : Nat) : Option Nat :=
  checkedAdd (computeIntrinsicGas stx.tx.data (stx.tx.recipient.isNone && !stx.isAaBundle) stx.tx.accessList) aaExtraGas

/-! ## Keys -/

def algorithmHash (Γ : Ctx) (pubkey : Bytes) (algorithm : SignatureType) : ShellHash :=
  Γ.blake3 (algorithm.asU8 :: pubkey)

/-- The key derives the address under an algorithm. -/
def addressBound (Γ : Ctx) (pubkey : Bytes) (address : Address) : Bool :=
  allowedAlgorithms.any fun algorithm => Address.fromPublicKey Γ pubkey algorithm.asU8 = address

namespace ValidationView

/-- `bound_algorithm`: the algorithm the account binds its registered key to. -/
def boundAlgorithm (Γ : Ctx) (v : ValidationView) (address : Address) (pubkey : Bytes) : Option SignatureType :=
  if ¬ activeAt v.config.registeredKeyAlgorithmHeight v.blockNumber ∨ v.pubkey address ≠ some pubkey then none
  else (v.account address).bind fun account =>
    allowedAlgorithms.find? fun algorithm => account.pqPubkeyHash = algorithmHash Γ pubkey algorithm

def keyMatches (Γ : Ctx) (v : ValidationView) (address : Address) (pubkey : Bytes) : Bool :=
  match v.account address with
  | none => false
  | some account => account.pqPubkeyHash = Γ.blake3 pubkey ∨ (v.boundAlgorithm Γ address pubkey).isSome

/-- `registered_session_root_deprecation_enabled`. -/
def sessionRootDeprecationEnabled (v : ValidationView) (sender : Address) (rootPubkey : Bytes) : Bool :=
  activeAt v.config.algorithmSessionDeprecationHeight v.blockNumber ∧ v.pubkey sender = some rootPubkey

/-- The selector of a contract function. -/
def selector (Γ : Ctx) (signature : String) : Bytes :=
  (Γ.keccak256 (ascii signature)).bytes.take 4

def validatorRegistryAddr : Address :=
  ⟨List.replicate 31 0 ++ [1], by simp⟩

/-- The calls a governance fallback key may make: mutations of the algorithm registry without value. -/
def allowedGovernanceCall (Γ : Ctx) (recipient : Option Address) (value : Nat) (data : Bytes) : Bool :=
  recipient = some validatorRegistryAddr ∧ value = 0 ∧
    ((data.length = 260 ∧ data.take 4 = selector Γ
        "submitAlgorithmProposal(uint8,bytes32,uint32,uint32,uint64,uint64,bytes32,uint64)") ∨
      (data.length = 68 ∧ data.take 4 = selector Γ "voteAlgorithmProposal(uint8,bytes32)") ∨
      (data.length = 36 ∧ data.take 4 = selector Γ "deprecateAlgorithm(uint8)") ∨
      (data.length = 100 ∧ data.take 4 = selector Γ "proposeAlgorithmActivation(uint8,uint64,bytes32)"))

/-- The calls of a transaction are all governance calls, and it delegates no session key. -/
def governanceScoped (Γ : Ctx) (stx : SignedTransaction) : Bool :=
  match stx.aaBundle with
  | some bundle => bundle.sessionAuth.isNone && !bundle.innerCalls.isEmpty &&
      bundle.innerCalls.all fun call => allowedGovernanceCall Γ call.recipient call.value call.data
  | none => allowedGovernanceCall Γ stx.tx.recipient stx.tx.value stx.tx.data

/-- `governance_fallback_pubkey`: the fallback key of a validator that the transaction embeds for a governance call. -/
def governanceFallbackPubkey (Γ : Ctx) (v : ValidationView) (stx : SignedTransaction) : Option Bytes :=
  if ¬ activeAt v.config.emergencyGovernanceHeight v.blockNumber ∨ v.config.governanceFallbackKeys.keys = [] then none
  else if stx.signature.sigType ≠ .sphincsSha2256f ∨ stx.tx.value ≠ 0 then none
  else if ¬ governanceScoped Γ stx ∨ stx.sender ∉ v.validators then none
  else (v.config.governanceFallbackKeys.lookup stx.sender).filter fun key => stx.pubkeyMode.pubkeyBytes = some key

end ValidationView

/-! ## Sessions and paymasters -/

/-- The root signature of a session verifies under one of the algorithms that are allowed for it. -/
def verifySessionRootSignature (verify : Verifier) (rootPubkey : Bytes) (authHash : ShellHash) (rootSignature : Bytes)
    (algorithmAllowed : SignatureType → Bool) : Bool :=
  (allowedAlgorithms.filter algorithmAllowed).any fun algorithm =>
    verify rootPubkey authHash.bytes ⟨algorithm, rootSignature⟩ = some true

namespace ValidationView

variable (Γ : Ctx) (v : ValidationView) (verify : Verifier) (stx : SignedTransaction)

/-- `verify_session_root_authorization`: a bound algorithm decides alone, else an address-bound root may be deprecated,
and a root without a known algorithm is tried under every allowed one. -/
def verifySessionRootAuthorization (auth : SessionAuth) (rootPubkey : Bytes) : Bool :=
  let authHash := auth.authHash Γ stx.tx.chainId
  match v.boundAlgorithm Γ stx.sender rootPubkey with
  | some algorithm =>
    (v.registry.isAlgorithmAllowed algorithm || (v.sessionRootDeprecationEnabled stx.sender rootPubkey &&
      decide (v.registry.algorithmStatus algorithm = some .deprecated))) &&
      decide (verify rootPubkey authHash.bytes ⟨algorithm, auth.rootSignature⟩ = some true)
  | none =>
    let bound := if v.sessionRootDeprecationEnabled stx.sender rootPubkey then
        allowedAlgorithms.find? fun algorithm => Address.fromPublicKey Γ rootPubkey algorithm.asU8 = stx.sender
      else none
    verifySessionRootSignature verify rootPubkey authHash auth.rootSignature fun algorithm =>
      match bound with
      | some b => decide (algorithm = b) && decide (v.registry.algorithmStatus algorithm = some .active ∨
          v.registry.algorithmStatus algorithm = some .deprecated)
      | none => v.registry.isAlgorithmAllowed algorithm

def validateSessionAuth (innerCalls : List InnerCall) (auth : SessionAuth) (rootPubkey : Bytes) : Except TxValidationError Unit := do
  ensure (v.blockNumber < auth.expiryBlock) (.sessionKeyExpired auth.expiryBlock v.blockNumber)
  let valueSum := (innerCalls.map InnerCall.value).sum
  ensure (valueSum < 2 ^ 256 ∧ valueSum ≤ auth.valueCap) .sessionValueCapExceeded
  ensure (innerCalls.all fun call => auth.target.all fun target => call.recipient = some target) .sessionTargetMismatch
  ensure (v.verifySessionRootAuthorization Γ verify stx auth rootPubkey) .sessionRootSignatureInvalid
  match SignatureType.fromU8 auth.sessionAlgo with
  | none => throw (.sessionKeyDisallowedAlgorithm auth.sessionAlgo)
  | some sessionAlgo =>
    ensure (v.registry.isAlgorithmAllowed sessionAlgo) (.sessionKeyDisallowedAlgorithm auth.sessionAlgo)
    ensure (stx.signature = ⟨sessionAlgo, auth.sessionSignature⟩) .sessionKeySignatureInvalid
    ensure (verify auth.sessionPubkey (stx.senderSigningHash Γ).bytes stx.signature = some true)
      .sessionKeySignatureInvalid

/-- `verify_paymaster_signature` with the registered key of the paymaster. -/
def verifyPaymasterSignature (paymaster : Address) (signature pubkey : Bytes) : Except TxValidationError Unit :=
  match stx.paymasterSigningHash Γ with
  | none => .error (.invalidAaBundle "no paymaster_signing_hash")
  | some digest =>
    let allowDeprecated := activeAt v.config.algorithmPaymasterDeprecationHeight v.blockNumber
    let registeredRootEnabled := activeAt v.config.paymasterRegisteredRootHeight v.blockNumber
    let verifies := fun algorithm => decide (verify pubkey digest.bytes ⟨algorithm, signature⟩ = some true)
    match v.boundAlgorithm Γ paymaster pubkey with
    | some algorithm => do
      ensure (registeredRootEnabled || decide (Address.fromPublicKey Γ pubkey algorithm.asU8 = paymaster))
        .paymasterSignatureInvalid
      ensure ((v.registry.isAlgorithmAllowed algorithm ||
        (allowDeprecated && decide (v.registry.algorithmStatus algorithm = some .deprecated))) && verifies algorithm)
        .paymasterSignatureInvalid
    | none =>
      if registeredRootEnabled && !addressBound Γ pubkey paymaster then do
        ensure ((v.account paymaster).any fun account =>
          account.pqPubkeyHash ≠ .zero ∧ account.pqPubkeyHash = Γ.blake3 pubkey) .paymasterSignatureInvalid
        ensure ((allowedAlgorithms.filter v.registry.isAlgorithmAllowed).any verifies) .paymasterSignatureInvalid
      else
        let sigType := if allowDeprecated then
            [SignatureType.mlDsa65, .dilithium3, .sphincsSha2256f].find? fun algorithm =>
              decide (Address.fromPublicKey Γ pubkey algorithm.asU8 = paymaster) &&
                decide (v.registry.algorithmStatus algorithm = some .active ∨
                  v.registry.algorithmStatus algorithm = some .deprecated)
          else inferSignatureTypeFromAddress Γ v.registry pubkey paymaster
        match sigType with
        | none => .error (.invalidAaBundle
            "paymaster pubkey does not match the paymaster address under any allowed algorithm")
        | some algorithm => ensure (verifies algorithm) .paymasterSignatureInvalid

def validatePaymasterAuthorization : Except TxValidationError Unit :=
  match stx.aaBundle with
  | none => .ok ()
  | some bundle =>
    match bundle.paymaster with
    | none => .ok ()
    | some paymaster =>
      if paymaster = stx.sender then .ok ()
      else
        match bundle.paymasterContext with
        | some context => ensure (v.paymasterAccepts stx paymaster context) .paymasterRejected
        | none =>
          match bundle.paymasterSignature, v.pubkey paymaster with
          | none, _ => .error .paymasterSignatureInvalid
          | some _, none => .error (.paymasterPubkeyNotFound paymaster)
          | some signature, some pubkey => v.verifyPaymasterSignature Γ verify stx paymaster signature pubkey

/-! ## The sender -/

/-- The session authorisation a transaction carries. -/
def sessionOf : Option (List InnerCall × SessionAuth) :=
  stx.aaBundle.bind fun bundle => bundle.sessionAuth.map fun auth => (bundle.innerCalls, auth)

/-- The algorithm of the signature may be used: it is allowed, or approved and matured for a direct account, or deprecated
with a registered root after the deprecation height. -/
def algorithmAdmitted : Bool :=
  let sigType := stx.signature.sigType
  let direct := (sessionOf stx).isNone
  v.registry.isAlgorithmAllowed sigType ||
    (direct && activeAt v.config.algorithmActivationAdmissionHeight v.blockNumber && v.algorithmMatured sigType) ||
    ((v.pubkey stx.sender).isSome && direct && decide (v.registry.algorithmStatus sigType = some .deprecated) &&
      activeAt v.config.algorithmDeprecationHeight v.blockNumber)

/-- The binding of the key to the sender: a first key must derive the address, a registered one must match the account. -/
def checkSenderBinding (pubkey : Bytes) : Except TxValidationError Unit := do
  match v.pubkey stx.sender with
  | none =>
    let derived := Address.fromPublicKey Γ pubkey stx.signature.sigType.asU8
    ensure (if (sessionOf stx).isSome then (inferSignatureTypeFromAddress Γ v.registry pubkey stx.sender).isSome
      else decide (stx.sender = derived)) (.addressMismatch stx.sender derived)
  | some registered =>
    ensure (stx.pubkeyMode = .reference ∨ registered = pubkey) .pubkeyConflict
    ensure ((v.account stx.sender).all fun account =>
      account.pqPubkeyHash = .zero ∨ v.keyMatches Γ stx.sender pubkey) .pubkeyConflict
  ensure ((sessionOf stx).isSome || (v.boundAlgorithm Γ stx.sender pubkey).all (· = stx.signature.sigType))
    .pubkeyConflict

/-- The built-in path of `validate_aa_tx_inner`: the algorithm, the key, its binding, the signature or the session, and the
paymaster. -/
def validateBuiltIn : Except TxValidationError Unit := do
  ensure (v.algorithmAdmitted stx) (.disallowedAlgorithm stx.signature.sigType)
  match stx.pubkeyMode.pubkeyBytes.orElse fun _ => v.pubkey stx.sender with
  | none => throw .pubkeyNotFound
  | some pubkey =>
    v.checkSenderBinding Γ stx pubkey
    match sessionOf stx with
    | some (innerCalls, auth) => v.validateSessionAuth Γ verify stx innerCalls auth pubkey
    | none => ensure (verify pubkey (stx.senderSigningHash Γ).bytes stx.signature = some true) .signatureInvalid
    v.validatePaymasterAuthorization Γ verify stx

/-- `validate_aa_tx_inner`: a custom validator, a governance fallback key, or the built-in path. -/
def validateAaTx : Except TxValidationError Unit :=
  match (v.account stx.sender).bind AccountPolicy.validationCodeHash with
  | some codeHash => do
    let pubkey := (stx.pubkeyMode.pubkeyBytes.orElse fun _ => v.pubkey stx.sender).getD []
    ensure (v.customAccepts stx codeHash pubkey) .aaValidation
    v.validatePaymasterAuthorization Γ verify stx
  | none =>
    match v.governanceFallbackPubkey Γ stx with
    | some fallback => do
      ensure (v.registry.isAlgorithmAllowed stx.signature.sigType) (.disallowedAlgorithm stx.signature.sigType)
      ensure (verify fallback (stx.senderSigningHash Γ).bytes stx.signature = some true) .signatureInvalid
      v.validatePaymasterAuthorization Γ verify stx
      ensure (v.pubkey stx.sender).isSome .pubkeyNotFound
    | none => v.validateBuiltIn Γ verify stx

/-! ## The import path -/

/-- The checks of `validate_tx_for_import_inner` except the nonce. -/
def validateRules (Γ : Ctx) (chainId : Nat) (v : ValidationView) (verify : Verifier) (stx : SignedTransaction) :
    Except TxValidationError Unit := do
  ensure (stx.tx.chainId = chainId) (.chainIdMismatch chainId stx.tx.chainId)
  ensure (stx.tx.txType ≤ 3 ∨ stx.tx.txType = aaBundleTxType) (.unsupportedTransactionType stx.tx.txType)
  ensure (stx.tx.maxPriorityFeePerGas ≤ stx.tx.maxFeePerGas)
    (.priorityFeeAboveMaxFee stx.tx.maxPriorityFeePerGas stx.tx.maxFeePerGas)
  stx.tx.validateAccessList.mapError .invalidAccessList
  stx.tx.validateBlobTx.mapError .invalidBlobTx
  let aaExtraGas ← validateAaBundleStructure stx
  ensure (checkedAdd stx.tx.nonce 1).isSome .nonceOverflow
  ensure ((totalIntrinsicGas stx aaExtraGas).any (· ≤ stx.tx.gasLimit)) (.gasTooLow stx.tx.gasLimit)
  v.validateAaTx Γ verify stx

/-- `validate_tx_for_import_at_block`, with the nonce that is expected of the sender. -/
def validateTxForImport (Γ : Ctx) (chainId : Nat) (v : ValidationView) (verify : Verifier) (expectedNonce : Nat)
    (stx : SignedTransaction) : Except TxValidationError Unit := do
  v.validateRules Γ chainId verify stx
  ensure (stx.tx.nonce = expectedNonce) (.nonceMismatch expectedNonce stx.tx.nonce)

end ValidationView

end ShellChain
