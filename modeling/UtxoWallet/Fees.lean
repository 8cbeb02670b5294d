import UtxoWallet.Coin

/-!
# Fees

A transaction pays a fee for each of its inputs and outputs, in the native token. Sums of amounts
that do not fit 128 bits are refused; the error tells which calculation it was.
-/

namespace UtxoWallet

/-- A calculation with amounts that may overflow. -/
inductive Calculation where
  | inputFees
  | outputFees
  | totalFees
  | inputs
  | nativeNeed
  | nativeInputFees
  | nativeChangeFee
  | nativeInputs
  | signedDelta (value : Amount)
  | imbalance (token : TokenType)
  deriving DecidableEq

def Calculation.text : Calculation → String
  | .inputFees => "pricing inputs"
  | .outputFees => "pricing outputs"
  | .totalFees => "adding input and output fees"
  | .inputs => "accumulating inputs"
  | .nativeNeed => "computing the native deficit"
  | .nativeInputFees => "pricing native inputs"
  | .nativeChangeFee => "pricing the native change output"
  | .nativeInputs => "accumulating native inputs"
  | .signedDelta value => "converting " ++ value.write ++ " to a signed delta"
  | .imbalance token => "aggregating imbalance for " ++ token.hex

/-- Why a transaction cannot be balanced. -/
inductive BalanceError where
  | insufficientFunds (token : TokenType) (missing : Amount)
  | overflow (calculation : Calculation)
  deriving DecidableEq

def BalanceError.message : BalanceError → String
  | .insufficientFunds token missing =>
    "insufficient funds for token type " ++ token.hex ++ ": missing " ++ missing.write
  | .overflow calculation => "amount overflow while " ++ calculation.text

/-- The result of a calculation, or the error that it overflows. -/
def checked (calculation : Calculation) : Option α → Except BalanceError α
  | some a => .ok a
  | none => .error (.overflow calculation)

/-- The fee of one input and of one output. -/
structure Fees where
  input : Amount
  output : Amount
  deriving DecidableEq, Inhabited

namespace Fees

def free : Fees :=
  ⟨Amount.zero, Amount.zero⟩

/-- The fee of some inputs and outputs. -/
def total (fees : Fees) (inputs outputs : Nat) : Except BalanceError Amount := do
  let forInputs ← checked .inputFees (fees.input.times? inputs)
  let forOutputs ← checked .outputFees (fees.output.times? outputs)
  checked .totalFees (forInputs.add? forOutputs)

def toJson (fees : Fees) : Json :=
  .record [
    ("input_fee_overhead", .natural fees.input.toNat),
    ("output_fee_overhead", .natural fees.output.toNat)]

def ofJson? (json : Json) : Option Fees := do
  let [input, output] ← json.fields? ["input_fee_overhead", "output_fee_overhead"] 2 | none
  let amount? (field : Option Json) : Option Amount :=
    (Json.required Json.natural? field).bind Amount.ofNat?
  return ⟨← amount? input, ← amount? output⟩

end Fees

end UtxoWallet
