import ShellChain.Transaction

/-!
# Gas and blob prices

The base fee, the blob price and the gas accounting of a block (`core/src/fee.rs`, `node/src/node/mod.rs`).
-/

namespace ShellChain

def initialBaseFee : Nat :=
  1000000000

def effectiveGasPrice (maxFee maxPriorityFee baseFee : Nat) : Nat :=
  min maxFee (saturatingAdd baseFee maxPriorityFee)

/-- `base_fee_delta`: at most an eighth of the fee for each full target of difference. -/
def baseFeeDelta (parentBaseFee gasDelta gasTarget : Nat) : Nat :=
  min (parentBaseFee * gasDelta / gasTarget / 8) u64Max

def calculateBaseFee (parentGasUsed parentGasLimit parentBaseFee : Nat) : Nat :=
  let gasTarget := parentGasLimit / 2
  if parentBaseFee = 0 then initialBaseFee
  else if gasTarget = 0 then parentBaseFee
  else if parentGasUsed = gasTarget then parentBaseFee
  else if gasTarget < parentGasUsed then
    saturatingAdd parentBaseFee (max (baseFeeDelta parentBaseFee (parentGasUsed - gasTarget) gasTarget) 1)
  else
    max (parentBaseFee - baseFeeDelta parentBaseFee (gasTarget - parentGasUsed) gasTarget) 1

def targetBlobGasPerBlock : Nat :=
  393216

def maxBlobGasPerBlock : Nat :=
  786432

def blobBaseFeeUpdateFraction : Nat :=
  3338477

def calcExcessBlobGas (parentExcess parentUsed : Nat) : Nat :=
  saturatingAdd parentExcess parentUsed - targetBlobGasPerBlock

/-- The loop of `fake_exponential`. The counter of the source is a `u64`, and the loop returns the largest `u64` when the
counter is exhausted, so the remaining counts are the fuel. -/
def fakeExponentialLoop (numerator denominator : Nat) : Nat → Nat → Nat → Nat → Nat
  | 0, _, _, _ => u64Max
  | fuel + 1, i, output, accum =>
    if accum = 0 then output / denominator
    else if u64Max * denominator - output ≤ accum then u64Max
    else fakeExponentialLoop numerator denominator fuel (i + 1) (output + accum) (accum * numerator / (denominator * i))

def fakeExponential (factor numerator denominator : Nat) : Nat :=
  if denominator = 0 then u64Max
  else fakeExponentialLoop numerator denominator u64Max 1 0 (factor * denominator)

def calcBlobGasPrice (excessBlobGas : Nat) : Nat :=
  fakeExponential 1 excessBlobGas blobBaseFeeUpdateFraction

def txFitsRemainingBlockGas (tx : SignedTransaction) (cumulativeGas blockGasLimit : Nat) : Bool :=
  cumulativeGas ≤ blockGasLimit ∧ tx.tx.gasLimit ≤ blockGasLimit - cumulativeGas

def checkedCumulativeBlockGas (cumulativeGas gasUsed blockGasLimit : Nat) : Option Nat :=
  (checkedAdd cumulativeGas gasUsed).filter (· ≤ blockGasLimit)

def checkedCumulativeBlobGas (cumulativeBlobGas txBlobGas : Nat) : Option Nat :=
  (checkedAdd cumulativeBlobGas txBlobGas).filter (· ≤ maxBlobGasPerBlock)

/-- A blob transaction pays at least the blob base fee; other transactions have none to pay. -/
def paysBlobBaseFee (tx : SignedTransaction) (blobBaseFee : Nat) : Bool :=
  ¬ (tx.tx.txType = 3 ∧ tx.tx.maxFeePerBlobGas.getD 0 < blobBaseFee)

end ShellChain
