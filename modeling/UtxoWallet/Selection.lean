import UtxoWallet.Fees
import UtxoWallet.OrderedMap

/-!
# Coin selection

A transaction is balanced token by token. A surplus becomes a change output. A deficit is covered by
the token's coins, the smallest first and those of one value in the order given, until their sum
reaches it; what they are worth beyond it becomes a change output.

The native token comes last, because the inputs and outputs chosen for the other tokens are paid
for in it. Each of its own coins raises the fee by that of an input, and a change output by that of
an output. The selection ends when the sum meets the need exactly or pays for a change output too;
a remainder up to the fee of that output is left to the network.
-/

namespace UtxoWallet

/-- What can be spent: it has a token and a value. -/
class Spendable (γ : Type) where
  token : γ → TokenType
  value : γ → Amount

instance : Spendable Coin := ⟨(·.token), (·.value)⟩

/-- A change output. -/
structure Change where
  token : TokenType
  value : Amount
  deriving DecidableEq

/-- The change that is left over, if it is worth anything. -/
def Change.ofRest (token : TokenType) (rest : Amount) : List Change :=
  if rest.toNat = 0 then [] else [⟨token, rest⟩]

/-- The inputs and change outputs that balance a transaction. -/
structure Selection (γ : Type) where
  inputs : List γ
  outputs : List Change
  deriving DecidableEq

namespace Selection

variable {γ : Type}

def empty : Selection γ :=
  ⟨[], []⟩

def isEmpty (s : Selection γ) : Bool :=
  s.inputs.isEmpty && s.outputs.isEmpty

/-- One selection after another. -/
def append (s t : Selection γ) : Selection γ :=
  ⟨s.inputs ++ t.inputs, s.outputs ++ t.outputs⟩

variable [Spendable γ]

/-- The coins of a token, the smallest first. -/
def candidates (coins : List γ) (token : TokenType) : List γ :=
  (coins.filter fun coin => Spendable.token coin = token).mergeSort fun a b =>
    (Spendable.value a).toNat ≤ (Spendable.value b).toNat

/-- Takes coins until their sum with `sum` reaches the target, or there are no more. -/
def gather (target : Amount) : (sum : Amount) → List γ → Except BalanceError (List γ × Amount)
  | sum, [] => .ok ([], sum)
  | sum, coin :: rest =>
    if target.toNat ≤ sum.toNat then .ok ([], sum)
    else do
      let sum ← checked .inputs (sum.add? (Spendable.value coin))
      let (taken, total) ← gather target sum rest
      return (coin :: taken, total)

/-- Balances a token that fees are not paid in. -/
def ofToken (coins : List γ) (token : TokenType) (imbalance : Delta) :
    Except BalanceError (Selection γ) := do
  let deficit := imbalance.deficit
  let (inputs, total) ← gather deficit imbalance.surplus (candidates coins token)
  if total.toNat < deficit.toNat then
    throw (.insufficientFunds token (deficit.minus total))
  return ⟨inputs, Change.ofRest token (total.minus deficit)⟩

/-- What the native coins have to reach once `count` of them are taken: the need itself, and the
need with the fee of a change output. -/
def nativeTarget (fees : Fees) (base : Amount) (count : Nat) :
    Except BalanceError (Amount × Amount) := do
  let inputFees ← checked .nativeInputFees (fees.input.times? count)
  let need ← checked .nativeNeed (base.add? inputFees)
  let withChange ← checked .nativeChangeFee (need.add? fees.output)
  return (need, withChange)

/-- Takes native coins until they meet the need, which is `base` and the fees of the coins; `count`
of them are taken already, and `sum` is what they are worth. -/
def gatherNative (fees : Fees) (native : TokenType) (base : Amount) (count : Nat) (sum : Amount)
    (coins : List γ) : Except BalanceError (Selection γ) := do
  let (need, withChange) ← nativeTarget fees base count
  if sum = need then return empty
  if withChange.toNat ≤ sum.toNat then
    return ⟨[], Change.ofRest native (sum.minus withChange)⟩
  -- Short of the need, or with a rest that cannot pay for its own output, one more coin is taken.
  match coins with
  | [] =>
    let target := if sum.toNat < need.toNat then need else withChange
    throw (.insufficientFunds native (target.minus sum))
  | coin :: rest => do
    let sum ← checked .nativeInputs (sum.add? (Spendable.value coin))
    let more ← gatherNative fees native base (count + 1) sum rest
    return { more with inputs := coin :: more.inputs }

/-- Balances the native token, and pays the fees of what is chosen already. -/
def ofNative (coins : List γ) (native : TokenType) (imbalance : Delta) (fees : Fees)
    (chosen : Selection γ) : Except BalanceError (Selection γ) := do
  let owed ← fees.total chosen.inputs.length chosen.outputs.length
  let base ← checked .nativeNeed (imbalance.deficit.add? owed)
  gatherNative fees native base 0 imbalance.surplus (candidates coins native)

/-- Selects inputs and change outputs that close every imbalance and pay the fees. -/
def ofImbalances (coins : List γ) (imbalances : OrderedMap TokenType Delta) (fees : Fees)
    (native : TokenType) : Except BalanceError (Selection γ) := do
  let others := imbalances.entries.filter fun entry => entry.1 ≠ native
  let parts ← others.mapM fun entry => ofToken coins entry.1 entry.2
  let chosen := parts.foldl append empty
  let more ← ofNative coins native ((imbalances.get? native).getD Delta.zero) fees chosen
  return chosen.append more

end Selection

end UtxoWallet
