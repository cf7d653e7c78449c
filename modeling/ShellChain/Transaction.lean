import ShellChain.Header
import ShellChain.Lib.Rlp

/-!
# Transactions

Transactions, account-abstraction bundles and session authorisations with the hashes their signers sign
(`core/src/transaction.rs`). Each hash is taken of a preimage that starts with a domain of 16 bytes.
-/

namespace ShellChain

open ByteCodec

/-! ## Domains -/

/-- `PQTX_SIGNING_DOMAIN`: the bytes of `PQTX_SIGNING_V2` and a zero byte. -/
def pqtxSigningDomain : Bytes :=
  [0x50, 0x51, 0x54, 0x58, 0x5f, 0x53, 0x49, 0x47, 0x4e, 0x49, 0x4e, 0x47, 0x5f, 0x56, 0x32, 0x00]

/-- `PQTX_BUNDLE_DOMAIN`: the bytes of `PQTX_BUNDLE_V1` and two zero bytes. -/
def pqtxBundleDomain : Bytes :=
  [0x50, 0x51, 0x54, 0x58, 0x5f, 0x42, 0x55, 0x4e, 0x44, 0x4c, 0x45, 0x5f, 0x56, 0x31, 0x00, 0x00]

/-- `PQTX_PAYMASTER_DOMAIN`: the bytes of `PQTX_PAYMASTER_V`. -/
def pqtxPaymasterDomain : Bytes :=
  [0x50, 0x51, 0x54, 0x58, 0x5f, 0x50, 0x41, 0x59, 0x4d, 0x41, 0x53, 0x54, 0x45, 0x52, 0x5f, 0x56]

/-- `PQTX_ID_DOMAIN`: the bytes of `PQTX_IDENTITY_V1`. -/
def pqtxIdDomain : Bytes :=
  [0x50, 0x51, 0x54, 0x58, 0x5f, 0x49, 0x44, 0x45, 0x4e, 0x54, 0x49, 0x54, 0x59, 0x5f, 0x56, 0x31]

/-- `PQTX_SESSION_DOMAIN`: the bytes of `PQTX_SESSION_V2` and a zero byte. -/
def pqtxSessionDomain : Bytes :=
  [0x50, 0x51, 0x54, 0x58, 0x5f, 0x53, 0x45, 0x53, 0x53, 0x49, 0x4f, 0x4e, 0x5f, 0x56, 0x32, 0x00]

/-! ## Unsigned transactions -/

/-- An entry of an access list. -/
structure AccessListItem where
  address : Address
  storageKeys : List ShellHash
  deriving DecidableEq

/-- An unsigned transaction. -/
structure Transaction where
  chainId : Nat
  nonce : Nat
  /-- The `to` field; none creates a contract. -/
  recipient : Option Address
  value : Nat
  data : Bytes
  gasLimit : Nat
  maxFeePerGas : Nat
  maxPriorityFeePerGas : Nat
  accessList : Option (List AccessListItem)
  txType : UInt8
  maxFeePerBlobGas : Option Nat
  blobVersionedHashes : Option (List ShellHash)
  deriving DecidableEq, Inhabited

/-- The encoding of an access list entry: the address and the list of its keys. -/
def AccessListItem.encode (item : AccessListItem) : Bytes :=
  Rlp.list [Rlp.string item.address.bytes, Rlp.list (item.storageKeys.map fun k => Rlp.string k.bytes)]

/-- The encoding of an optional address: none is the empty string. -/
def encodeOptionalAddress (address : Option Address) : Bytes :=
  match address with
  | some a => Rlp.string a.bytes
  | none => Rlp.string []

namespace Transaction

def blobGasPerBlob : Nat :=
  131072

def blobGas (tx : Transaction) : Nat :=
  match tx.blobVersionedHashes with
  | some hashes => min (hashes.length * blobGasPerBlob) u64Max
  | none => 0

/-- `Transaction::encode_access_list`: an absent list is encoded as an empty one. -/
def encodeAccessList (tx : Transaction) : Bytes :=
  match tx.accessList with
  | none => Rlp.list []
  | some items => Rlp.list (items.map AccessListItem.encode)

theorem encodeAccessList_eq (tx : Transaction) :
    tx.encodeAccessList = Rlp.list ((tx.accessList.getD []).map AccessListItem.encode) := by
  unfold encodeAccessList
  cases tx.accessList <;> rfl

/-- The blob fields at the end of the signing preimage of a blob transaction. -/
def blobSigningFields (tx : Transaction) : Bytes :=
  if tx.txType = 3 then
    beBytes 8 (tx.maxFeePerBlobGas.getD 0) ++ ((tx.blobVersionedHashes.getD []).map ShellHash.bytes).flatten
  else
    []

/-- The preimage of `Transaction::signing_hash`. -/
def signingPreimage (tx : Transaction) (sigType : UInt8) : Bytes :=
  pqtxSigningDomain ++ (beBytes 8 tx.chainId ++ (beBytes 8 tx.nonce ++ ((tx.recipient.getD .zero).bytes ++
    beBytes 32 tx.value ++ tx.data ++ beBytes 8 tx.gasLimit ++ beBytes 8 tx.maxFeePerGas ++
    beBytes 8 tx.maxPriorityFeePerGas ++ tx.encodeAccessList ++ [sigType, tx.txType] ++ tx.blobSigningFields)))

def signingHash (Γ : Ctx) (tx : Transaction) (sigType : UInt8) : ShellHash :=
  Γ.blake3 (tx.signingPreimage sigType)

end Transaction

/-! ## Session authorisations and bundles -/

/-- A session key authorised by the root key of an account. -/
structure SessionAuth where
  sessionPubkey : Bytes
  sessionAlgo : UInt8
  /-- The permitted call target; none permits any. -/
  target : Option Address
  valueCap : Nat
  expiryBlock : Nat
  rootSignature : Bytes
  sessionSignature : Bytes
  deriving DecidableEq

namespace SessionAuth

/-- The preimage of `SessionAuth::auth_hash`. -/
def authPreimage (auth : SessionAuth) (chainId : Nat) : Bytes :=
  pqtxSessionDomain ++ (auth.sessionPubkey ++ [auth.sessionAlgo] ++ [if auth.target.isSome then 1 else 0] ++
    (auth.target.getD .zero).bytes ++ beBytes 32 auth.valueCap ++ beBytes 8 auth.expiryBlock ++ beBytes 8 chainId)

def authHash (Γ : Ctx) (auth : SessionAuth) (chainId : Nat) : ShellHash :=
  Γ.blake3 (auth.authPreimage chainId)

/-- The value cap without leading zeros, where zero keeps one byte. -/
def trimmedValueCap (auth : SessionAuth) : Bytes :=
  if auth.valueCap = 0 then [0] else Rlp.trimmed 32 auth.valueCap

/-- `SessionAuth::encode_for_signing`: without the two signatures. -/
def encodeForSigning (auth : SessionAuth) : Bytes :=
  Rlp.list [Rlp.string auth.sessionPubkey, Rlp.uint 8 auth.sessionAlgo.toNat, encodeOptionalAddress auth.target,
    Rlp.string auth.trimmedValueCap, Rlp.uint 8 auth.expiryBlock]

end SessionAuth

/-- A call inside a bundle. -/
structure InnerCall where
  recipient : Option Address
  value : Nat
  data : Bytes
  gasLimit : Nat
  deriving DecidableEq

/-- The encoding of an inner call. -/
def InnerCall.encode (call : InnerCall) : Bytes :=
  Rlp.list [encodeOptionalAddress call.recipient, Rlp.uint 32 call.value, Rlp.string call.data, Rlp.uint 8 call.gasLimit]

/-- The account-abstraction payload of a transaction. -/
structure AaBundle where
  innerCalls : List InnerCall
  paymaster : Option Address
  paymasterSignature : Option Bytes
  paymasterContext : Option Bytes
  sessionAuth : Option SessionAuth
  deriving DecidableEq

/-- `AaBundle::encode_for_signing`: without the signatures. An absent context is encoded as an empty one. -/
def AaBundle.encodeForSigning (bundle : AaBundle) : Bytes :=
  Rlp.list ([Rlp.list (bundle.innerCalls.map InnerCall.encode), encodeOptionalAddress bundle.paymaster,
    Rlp.string (bundle.paymasterContext.getD [])] ++ (bundle.sessionAuth.map SessionAuth.encodeForSigning).toList)

/-! ## Signed transactions -/

/-- How the public key of the sender is given. -/
inductive PubkeyMode
  | embedded (pubkey : Bytes)
  | reference
  deriving DecidableEq

def aaBundleTxType : UInt8 :=
  0x7e

/-- A transaction with the signature of its sender. -/
structure SignedTransaction where
  sender : Address
  tx : Transaction
  signature : PQSignature
  pubkeyMode : PubkeyMode
  aaBundle : Option AaBundle
  deriving DecidableEq

namespace SignedTransaction

variable (Γ : Ctx) (stx : SignedTransaction)

def isAaBundle : Bool :=
  stx.tx.txType = aaBundleTxType ∧ stx.aaBundle.isSome

/-- `SignedTransaction::legacy_hash`: the signing hash of the transaction without the bundle. -/
def legacyHash : ShellHash :=
  stx.tx.signingHash Γ stx.signature.sigType.asU8

/-- The preimage of `SignedTransaction::batch_signing_hash`. -/
def batchPreimage (bundle : AaBundle) : Bytes :=
  pqtxBundleDomain ++ ((stx.legacyHash Γ).bytes ++ bundle.encodeForSigning)

def batchSigningHash : Option ShellHash :=
  match stx.aaBundle with
  | none => none
  | some bundle => if stx.tx.txType ≠ aaBundleTxType then none else some (Γ.blake3 (stx.batchPreimage Γ bundle))

def senderSigningHash : ShellHash :=
  (stx.batchSigningHash Γ).getD (stx.tx.signingHash Γ stx.signature.sigType.asU8)

/-- The preimage of `SignedTransaction::paymaster_signing_hash`. -/
def paymasterPreimage (batchHash : ShellHash) : Bytes :=
  pqtxPaymasterDomain ++ (stx.sender.bytes ++ batchHash.bytes)

def paymasterSigningHash : Option ShellHash :=
  match stx.aaBundle with
  | none => none
  | some bundle =>
    match bundle.paymaster with
    | none => none
    | some _ => (stx.batchSigningHash Γ).map fun batchHash => Γ.blake3 (stx.paymasterPreimage batchHash)

/-- `SignedTransaction::hash`: the canonical identifier, which binds the sender. -/
def hash : ShellHash :=
  Γ.blake3 (pqtxIdDomain ++ (stx.sender.bytes ++ (stx.senderSigningHash Γ).bytes))

end SignedTransaction

end ShellChain
