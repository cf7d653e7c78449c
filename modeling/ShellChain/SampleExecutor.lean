import ShellChain.Executor
import ShellChain.SampleContracts

/-!
# A concrete executor

An executor for the concrete runs: revm refuses every transaction, contracts store nothing, and no height is scheduled.
-/

namespace ShellChain

/-- The rules without any scheduled height. -/
def plainRules : ExecutorRules :=
  { nativeRules with bloomActivationHeight := none, logAddressActivationHeight := none }

/-- The executor of the concrete native calls. -/
def nativeVm : Vm Unit :=
  { nativeCtx with
    rules := plainRules
    customAccepts := fun _ _ _ _ _ => false
    paymasterAccepts := fun _ _ _ _ _ => false
    setStorage := fun contracts _ _ _ => contracts
    transact := fun _ _ _ _ => none }

/-- A transaction for a native contract at the price of one. -/
def nativeTx (caller target : Address) (data : Bytes) : SignedTransaction where
  sender := caller
  tx := { (default : Transaction) with
    chainId := 1, recipient := some target, data := data, gasLimit := 100000, maxFeePerGas := 1 }
  signature := ⟨.mlDsa65, [1]⟩
  pubkeyMode := .reference
  aaBundle := none

/-- The executor in a state, without registered addresses. -/
def freshExecutor (s : NativeState Unit) : Executor Unit :=
  ⟨s, .empty⟩

/-- The state with a balance of an account. -/
def withBalance (s : NativeState Unit) (a : Address) (balance : Nat) : NativeState Unit :=
  { s with world := s.world.setBalance a balance }

end ShellChain
