import ShellChain.Lib.AssocMap
import Mathlib.Algebra.Group.Nat.Defs

/-!
# Primitive types

Byte strings, the two 32-byte newtypes of the node (`ShellHash` and `Address`), the `u64` operations that do not wrap, and
the hash maps of the source. An unsigned integer of the source is a natural number: each operation that could leave the
range of its type is written out with what the source does there (saturate, fail or wrap).
-/

namespace ShellChain

/-- A byte string (`Vec<u8>`, `&[u8]`). -/
abbrev Bytes := List UInt8

/-- A block, transaction or state hash: 32 bytes. -/
@[ext] structure ShellHash where
  /-- The bytes (`as_bytes`). -/
  bytes : Bytes
  length_eq : bytes.length = 32
  deriving DecidableEq

/-- An account address: the 32 bytes of a BLAKE3 digest. -/
@[ext] structure Address where
  /-- The bytes (`as_bytes`). -/
  bytes : Bytes
  length_eq : bytes.length = 32
  deriving DecidableEq

/-- The hash with all bytes equal. -/
def ShellHash.repeatByte (b : UInt8) : ShellHash :=
  ⟨List.replicate 32 b, List.length_replicate⟩

/-- The address with all bytes equal. -/
def Address.repeatByte (b : UInt8) : Address :=
  ⟨List.replicate 32 b, List.length_replicate⟩

def ShellHash.zero : ShellHash :=
  .repeatByte 0

def Address.zero : Address :=
  .repeatByte 0

instance : Inhabited ShellHash := ⟨.zero⟩

instance : Inhabited Address := ⟨.zero⟩

/-- The largest `u64`. -/
def u64Max : Nat :=
  2 ^ 64 - 1

def saturatingAdd (a b : Nat) : Nat :=
  min (a + b) u64Max

def checkedAdd (a b : Nat) : Option Nat :=
  if a + b ≤ u64Max then some (a + b) else none

/-- A sum within the range of `u64` does not saturate. -/
theorem saturatingAdd_eq {a b : Nat} (h : a + b ≤ u64Max) : saturatingAdd a b = a + b :=
  Nat.min_eq_left h

theorem saturatingAdd_le (a b : Nat) : saturatingAdd a b ≤ a + b :=
  Nat.min_le_left _ _

/-- A `HashMap` of the source. -/
abbrev HashMap (α β : Type) := AList (fun _ : α => β)

end ShellChain
