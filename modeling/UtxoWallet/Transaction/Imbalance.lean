import UtxoWallet.Fees
import UtxoWallet.Transaction

/-!
# Imbalances

The imbalance of a token is what a transaction spends of it less what it creates. It is summed up
item by item, inputs before outputs, and no sum may leave the range of a delta.
-/

namespace UtxoWallet

/-- The imbalance of each token that a transaction touches. -/
abbrev Imbalances := OrderedMap TokenType Delta

namespace Imbalances

/-- The imbalance of a token, zero if it is not touched. -/
def of (imbalances : Imbalances) (token : TokenType) : Delta :=
  (imbalances.get? token).getD Delta.zero

/-- Replaces the imbalance of a token by `change` of it and a value. -/
def adjust (change : Int → Int → Int) (imbalances : Imbalances) (token : TokenType)
    (value : Amount) : Except BalanceError Imbalances := do
  let delta ← checked (.signedDelta value) (Delta.ofInt? value.toNat)
  let sum ← checked (.imbalance token) (Delta.ofInt? (change (imbalances.of token).toInt delta.toInt))
  return imbalances.insert token sum

/-- Adds what an output is worth. -/
def gain (imbalances : Imbalances) (output : Output) : Except BalanceError Imbalances :=
  imbalances.adjust (· + ·) output.token output.value

def lose (imbalances : Imbalances) (output : Output) : Except BalanceError Imbalances :=
  imbalances.adjust (· - ·) output.token output.value

end Imbalances

namespace Transaction

/-- Inputs less outputs, token by token. -/
def imbalances (tx : Transaction) : Except BalanceError Imbalances := do
  let spent ← (tx.inputs.map (·.toOutput)).foldlM Imbalances.gain OrderedMap.empty
  tx.outputs.foldlM Imbalances.lose spent

/-- Inputs less outputs, and less the fees of them in the native token. -/
def imbalancesAfterFees (tx : Transaction) (fees : Fees) (native : TokenType) :
    Except BalanceError Imbalances := do
  let imbalances ← tx.imbalances
  let fee ← fees.total tx.inputs.length tx.outputs.length
  imbalances.adjust (· - ·) native fee

end Transaction

end UtxoWallet
