import ShellChain.Evm

/-!
# Native address handles

In the native address context revm knows a full address by a handle of 20 bytes that is allocated for one transaction
(`pqvm/src/native_context.rs`). An address that embeds 20 bytes is offered these first. Every other handle is the end of a
hash of the address and a counter, which counts up until the handle is neither reserved nor taken.
-/

namespace ShellChain

open ByteCodec

/-! ## Reserved keys -/

/-- The address of revm that ends in a number. -/
def EvmAddress.ofNat (n : Nat) : EvmAddress :=
  ⟨beBytes 20 n, length_beBytes 20 n⟩

def pqPrecompileAddrs : List EvmAddress :=
  [.ofNat 1, .ofNat 2, .ofNat 3, .ofNat 4, .ofNat 5, .ofNat 6]

def nativeRegistryViewAddr : EvmAddress :=
  .ofNat 0x100000001

/-- A precompile of `ShellPrecompiles::new`, or the registry view. -/
def isReservedKey (key : EvmAddress) : Bool :=
  key ∈ pqPrecompileAddrs ∨ key = nativeRegistryViewAddr

/-! ## Handles -/

/-- `AddressKeys`. -/
structure AddressKeys where
  byKey : HashMap EvmAddress Address
  byNative : HashMap Address EvmAddress

/-- The domain of a handle: the bytes of `shell-pqvm-address-handle-v1`. -/
def addressHandleDomain : Bytes :=
  [0x73, 0x68, 0x65, 0x6c, 0x6c, 0x2d, 0x70, 0x71, 0x76, 0x6d, 0x2d, 0x61, 0x64, 0x64, 0x72, 0x65, 0x73, 0x73, 0x2d, 0x68,
    0x61, 0x6e, 0x64, 0x6c, 0x65, 0x2d, 0x76, 0x31]

/-- The end of the hash of an address and a counter. -/
def derivedKey (Γ : Ctx) (address : Address) (counter : Nat) : EvmAddress :=
  let digest := Γ.blake3 (addressHandleDomain ++ address.bytes ++ beBytes 8 counter)
  ⟨digest.bytes.drop 12, by simp [digest.length_eq]⟩

/-- An address that embeds 20 bytes. -/
def Address.canonical (address : Address) : Bool :=
  Address.fromAlloy address.toAlloy = address

/-- The key that a counter stands for. -/
def keyAt (Γ : Ctx) (address : Address) (counter : Nat) : EvmAddress :=
  if address.canonical ∧ counter = 0 then address.toAlloy else derivedKey Γ address counter

namespace AddressKeys

/-- The empty maps of `NativeAddressContext::default`. -/
def empty : AddressKeys :=
  ⟨∅, ∅⟩

/-- One round of the loop of `register`: none if the key is reserved or taken. -/
def offer (Γ : Ctx) (keys : AddressKeys) (address : Address) (counter : Nat) : Option EvmAddress :=
  let key := keyAt Γ address counter
  if (¬ address.canonical ∨ 0 < counter) ∧ isReservedKey key then none
  else if (keys.byKey.lookup key).isSome then none
  else some key

/-- The loop of `register` from a counter that can still grow by `remaining`; none when the handle space is exhausted. -/
def freeKey (Γ : Ctx) (keys : AddressKeys) (address : Address) : (remaining counter : Nat) → Option EvmAddress
  | 0, counter => keys.offer Γ address counter
  | remaining + 1, counter => keys.offer Γ address counter <|> freeKey Γ keys address remaining (counter + 1)

def register (Γ : Ctx) (keys : AddressKeys) (address : Address) : Except String EvmAddress × AddressKeys :=
  match keys.byNative.lookup address with
  | some key => (.ok key, keys)
  | none =>
    match keys.freeKey Γ address u64Max 0 with
    | none => (.error "native handle space exhausted", keys)
    | some key => (.ok key, ⟨keys.byKey.insert key address, keys.byNative.insert address key⟩)

def resolve (keys : AddressKeys) (key : EvmAddress) : Address :=
  (keys.byKey.lookup key).getD (.fromAlloy key)

end AddressKeys

/-- The maps as registrations come in. -/
def handleSystem (Γ : Ctx) : TransitionSystem AddressKeys Address where
  step keys address := (keys.register Γ address).2

end ShellChain
