import ShellChain.SystemContracts
import ShellChain.SampleChain

/-!
# Concrete native calls

A context in which the functions of the native contracts have distinct selectors, a state without any record, and the
calldata of the functions that the concrete runs call.
-/

namespace ShellChain

open ByteCodec

/-- The context of the concrete calls: the low bytes of a digest come first, so that they make the selector. -/
def nativeCtx : Ctx :=
  { chainCtx with keccak256 := fun bs => ⟨(chainDigest bs).bytes.reverse, by simp [(chainDigest bs).length_eq]⟩ }

/-- The address with a number in its last byte. -/
def nativeAddress (n : UInt8) : Address :=
  ⟨List.replicate 31 0 ++ [n], by simp⟩

/-- A registry with some validators, all of weight one, and staking off. -/
def sampleRegistry (validators : List Address) : RegistryStorage where
  validators := validators
  weights _ := 0
  stakes _ := 0
  stakingEnabled := false
  totalStaked := 0
  stakeUnit := 0
  maxWeight := 0
  provers _ := none
  votes _ := false
  algorithms _ := .blank
  algorithmVotes _ := false
  proposals _ := ⟨[], 0, false⟩
  proposalVotes _ _ _ := false

/-- The state with some validators and nothing else. -/
def nativeGenesis (validators : List Address) : NativeState Unit where
  world := ⟨fun _ => none, sampleRegistry validators, fun _ => false, ()⟩
  pubkeys := .empty
  recovery := ⟨fun _ => none, fun _ => none⟩
  registry := .fromAllowlist

/-- The rules without any scheduled height. -/
def nativeConfig : ChainConfig :=
  ⟨none, none, none, none, none, none, none, none, none, ∅⟩

/-- The context of a block on a head. -/
def nativeContext (headNumber : Nat) : ExecContext :=
  ⟨1, nativeConfig, ⟨headNumber + 1, 0, 30000000, 0, 0, nativeAddress 9⟩, headNumber, fun _ => none⟩

/-- Calldata: the selector of a function and its words. -/
def calldata (signature : String) (words : List Bytes) : Bytes :=
  ValidationView.selector nativeCtx signature ++ words.flatten

def word (n : Nat) : Bytes :=
  beBytes 32 n

/-- The rules of native contracts without any scheduled height. -/
def nativeRules : NativeRules :=
  ⟨none, none, none, none, none, none, none, none, none, none⟩

/-- The calldata of a function of one address. -/
def addressInput (signature : String) (address : Address) : Bytes :=
  calldata signature [address.bytes]

/-- The calldata of `setGuardians`. -/
def setGuardiansInput (guardians : List Address) (threshold timelock : Nat) : Bytes :=
  calldata "setGuardians(address[],uint8,uint64)"
    ([word 96, word threshold, word timelock, word guardians.length] ++ guardians.map Address.bytes)

/-- The calldata of `submitRecovery` with ML-DSA-65. -/
def submitRecoveryInput (account : Address) (pubkey : Bytes) : Bytes :=
  calldata "submitRecovery(address,bytes,uint8)"
    [account.bytes, word 96, word SignatureType.mlDsa65.asU8.toNat, word pubkey.length, pubkey]

end ShellChain
