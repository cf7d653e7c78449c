import ShellChain.WorldState

/-!
# The calldata of native contracts

How the native contracts read their parameters (`pqvm/src/system_contracts.rs`): words of 32 bytes, addresses that fill a
word, and byte strings and arrays behind an offset.
-/

namespace ShellChain

open Checks

/-! ## Errors -/

/-- The errors of the world state that native contracts report, with the values that the messages show. -/
inductive StateError
  | validatorCount (count : Nat)
  | duplicateValidator
  | validatorSetSize (size : Nat)
  | weightOutOfRange
  | zeroStakeUnit
  | zeroMaxWeight
  | proverKeyLength
  | votingInterval
  | insufficientBalance
  | balanceOverflow
  deriving DecidableEq

/-- `SystemContractError`. -/
inductive SystemContractError
  | inputTooShort
  | unknownSelector (selector : Bytes)
  | unknownSystemContract (target : Address)
  | unauthorized
  | alreadyExists (address : Address)
  | notFound (address : Address)
  | lastValidator
  | emptyPubkey
  | publicKeyTooLarge (size limit : Nat)
  | validatorPubkeyMissing (address : Address)
  | invalidAlgorithm (algo : UInt8)
  | validationCodeMissing (codeHash : ShellHash)
  | abiDecode (message : String)
  | storage (error : StateError)
  | invalidGuardianCount (limit count : Nat)
  | invalidThreshold (count : Nat) (threshold : Nat)
  | timelockTooShort (minimum timelock : Nat)
  | votingWindowExpired (deadline : Nat)
  | invalidActivationHeight (height minimum : Nat)
  | duplicateVote
  | stakingDisabled
  | stakeDerivedWeightsActive
  | stakeTooLow
  | heightMismatch (height stored : Nat)
  | governanceConflict
  | guardianIsSelf
  | duplicateGuardian
  | notAGuardian
  | noGuardianConfig (account : Address)
  | noRecoveryProposal (account : Address)
  | recoveryNotMature (maturityBlock : Nat)
  | recoveryAlreadyActive
  deriving DecidableEq

/-- The result of reading calldata. -/
abbrev Decoded := Except SystemContractError

/-! ## Words -/

/-- `u64::from_be_bytes`, `U256::from_be_slice`. -/
def ofBeBytes (bytes : Bytes) : Nat :=
  bytes.foldl (fun n b => n * 256 + b.toNat) 0

def decodeSelector (input : Bytes) : Decoded Bytes :=
  if input.length < 4 then .error .inputTooShort else .ok (input.take 4)

/-- A 32-byte word of the input. -/
def decodeHash (input : Bytes) : Decoded ShellHash :=
  if h : input.length < 32 then .error (.abiDecode ("expected 32 bytes for bytes32, got " ++ toString input.length))
  else .ok ⟨input.take 32, by simp; omega⟩

/-- `ShellHash::from_slice` of a word. -/
def ShellHash.ofWord (word : Bytes) : ShellHash :=
  if h : word.length = 32 then ⟨word, h⟩ else .zero

/-- `decode_address`: the address fills the word. -/
def decodeAddress (input : Bytes) : Decoded Address :=
  if h : input.length < 32 then .error (.abiDecode ("expected 32 bytes for address, got " ++ toString input.length))
  else .ok ⟨input.take 32, by simp; omega⟩

/-- A word whose value has `width` bytes; the bytes before it are zero. -/
def decodeUint (width : Nat) (short long : String) (input : Bytes) : Decoded Nat := do
  ensure (32 ≤ input.length) (.abiDecode (short ++ toString input.length))
  ensure ((input.take (32 - width)).all (· = 0)) (.abiDecode long)
  pure (ofBeBytes ((input.take 32).drop (32 - width)))

def decodeWordUsize (input : Bytes) : Decoded Nat :=
  decodeUint 8 "expected 32 bytes for ABI word, got " "ABI word exceeds usize range" input

def decodeU64 (input : Bytes) : Decoded Nat :=
  decodeUint 8 "expected 32 bytes for uint64, got " "uint64 value exceeds u64 range" input

def decodeU8 (input : Bytes) : Decoded UInt8 :=
  (decodeUint 1 "expected 32 bytes for uint8, got " "uint8 must be right-aligned in ABI word" input).map UInt8.ofNat

def decodeSignatureType (input : Bytes) : Decoded SignatureType := do
  let algoId ← decodeU8 input
  match SignatureType.fromU8 algoId with
  | none => throw (.invalidAlgorithm algoId)
  | some algo => pure algo

/-- The parameters of `setValidatorWeight`. -/
def decodeAddressU64 (input : Bytes) : Decoded (Address × Nat) := do
  ensure (64 ≤ input.length) (.abiDecode ("expected 64 bytes for (address, uint64), got " ++ toString input.length))
  let address ← decodeAddress (input.take 32)
  let value ← decodeU64 ((input.drop 32).take 32)
  pure (address, value)

/-- The parameters of the stake operations. -/
def decodeAddressU256 (input : Bytes) : Decoded (Address × Nat) := do
  ensure (64 ≤ input.length) (.abiDecode ("expected 64 bytes for (address, uint256), got " ++ toString input.length))
  let address ← decodeAddress (input.take 32)
  pure (address, ofBeBytes ((input.drop 32).take 32))

/-- The parameters of `proposeAlgorithmActivation`. -/
def decodeAlgoActivationParams (input : Bytes) : Decoded (SignatureType × Nat × ShellHash) := do
  ensure (96 ≤ input.length) (.abiDecode ("expected 96 bytes for (uint8, uint64, bytes32), got " ++ toString input.length))
  let algo ← decodeSignatureType (input.take 32)
  let activationHeight ← decodeU64 ((input.drop 32).take 32)
  let verifierHash ← decodeHash ((input.drop 64).take 32)
  pure (algo, activationHeight, verifierHash)

/-! ## Byte strings and arrays -/

def maxAccountPublicKeyBytes : Nat :=
  4096

def validatePublicKeySize (size : Nat) : Decoded Unit := do
  ensure (size ≠ 0) .emptyPubkey
  ensure (size ≤ maxAccountPublicKeyBytes) (.publicKeyTooLarge size maxAccountPublicKeyBytes)

def validateDynamicOffset (offset headLen inputLen : Nat) (field : String) : Decoded Unit := do
  ensure (headLen ≤ offset) (.abiDecode (field ++ " offset points into the static head"))
  ensure (offset % 32 = 0) (.abiDecode (field ++ " offset is not 32-byte aligned"))
  ensure (offset + 32 ≤ inputLen) (.abiDecode (field ++ " offset points beyond calldata"))

def decodeRotateKeyParams (input : Bytes) : Decoded (Bytes × UInt8) := do
  ensure (64 ≤ input.length)
    (.abiDecode ("expected at least 64 bytes for rotateKey head, got " ++ toString input.length))
  let offset ← decodeWordUsize (input.take 32)
  let algoId ← decodeU8 ((input.drop 32).take 32)
  validateDynamicOffset offset 64 input.length "rotateKey bytes"
  let size ← decodeWordUsize ((input.drop offset).take 32)
  validatePublicKeySize size
  ensure (offset + 32 + size ≤ input.length) (.abiDecode "bytes payload truncated")
  pure ((input.drop (offset + 32)).take size, algoId)

def maxGuardians : Nat :=
  5

def minRecoveryTimelock : Nat :=
  100

/-- The loop of `set_guardians` over the addresses of the array. -/
def decodeGuardians (caller : Address) (input : Bytes) : Nat → Nat → List Address → Decoded (List Address)
  | 0, _, guardians => .ok guardians
  | count + 1, start, guardians => do
    let address ← decodeAddress ((input.drop start).take 32)
    ensure (address ≠ caller) .guardianIsSelf
    ensure (address ∉ guardians) .duplicateGuardian
    decodeGuardians caller input count (start + 32) (guardians ++ [address])

/-- The parameters of `setGuardians`, with the checks of their bounds. -/
def decodeSetGuardians (caller : Address) (params : Bytes) : Decoded GuardianConfig := do
  ensure (96 ≤ params.length) (.abiDecode "setGuardians: params too short")
  let offset ← decodeWordUsize (params.take 32)
  let threshold ← decodeU8 ((params.drop 32).take 32)
  let timelock ← decodeU64 ((params.drop 64).take 32)
  validateDynamicOffset offset 96 params.length "setGuardians array"
  let count ← decodeWordUsize ((params.drop offset).take 32)
  ensure (offset + 32 + count * 32 ≤ params.length) (.abiDecode "setGuardians: address array truncated")
  ensure (count ≠ 0 ∧ count ≤ maxGuardians) (.invalidGuardianCount maxGuardians count)
  ensure (threshold.toNat ≠ 0 ∧ threshold.toNat ≤ count) (.invalidThreshold count threshold.toNat)
  ensure (minRecoveryTimelock ≤ timelock) (.timelockTooShort minRecoveryTimelock timelock)
  let guardians ← decodeGuardians caller params count (offset + 32) []
  pure ⟨guardians, threshold.toNat, timelock⟩

/-- The parameters of `submitRecovery`: the account, the new key and its algorithm. -/
def decodeSubmitRecovery (params : Bytes) : Decoded (Address × Bytes × UInt8) := do
  ensure (96 ≤ params.length) (.abiDecode "submitRecovery: params too short")
  let account ← decodeAddress (params.take 32)
  let offset ← decodeWordUsize ((params.drop 32).take 32)
  let newAlgo ← decodeU8 ((params.drop 64).take 32)
  ensure (SignatureType.fromU8 newAlgo).isSome (.invalidAlgorithm newAlgo)
  validateDynamicOffset offset 96 params.length "submitRecovery bytes"
  let size ← decodeWordUsize ((params.drop offset).take 32)
  ensure (checkedAdd (offset + 32) size).isSome (.abiDecode "bytes len overflow")
  ensure (offset + 32 + size ≤ params.length) (.abiDecode "submitRecovery: pubkey truncated")
  validatePublicKeySize size
  pure (account, (params.drop (offset + 32)).take size, newAlgo)

/-! ## Results -/

def encodeBool (value : Bool) : Bytes :=
  List.replicate 31 0 ++ [if value then 1 else 0]

def encodeAddressArray (addresses : List Address) : Bytes :=
  List.replicate 31 0 ++ [0x20] ++ ByteCodec.beBytes 32 addresses.length ++ addresses.flatMap Address.bytes

end ShellChain
