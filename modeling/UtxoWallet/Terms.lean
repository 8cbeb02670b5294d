import UtxoWallet.Fees
import UtxoWallet.Stage

/-!
# Terms of payment

What a payment costs, what counts as its success, and how long it may take.
-/

namespace UtxoWallet

/-- The terms of payment. -/
structure Terms where
  /-- The token that fees are paid in. -/
  native : TokenType
  fees : Fees
  /-- The least stage that counts as success. -/
  requiredStage : Stage
  /-- How long a submission may take, in milliseconds. -/
  submissionTimeout : Nat
  /-- How long a transaction without a time to live of its own may wait, in seconds. -/
  lifetime : Nat
  deriving DecidableEq, Inhabited

/-- A duration in milliseconds as text: in seconds from one second on, without zeros at the end of
the fraction. -/
def durationText (milliseconds : Nat) : String :=
  let seconds := milliseconds / 1000
  let rest := milliseconds % 1000
  if milliseconds = 0 then "0ns"
  else if seconds = 0 then rest.repr ++ "ms"
  else if rest = 0 then seconds.repr ++ "s"
  else
    let fraction := ((Text.Decimal.pad 3 rest).reverse.dropWhile (· = '0')).reverse
    seconds.repr ++ "." ++ String.ofList fraction ++ "s"

end UtxoWallet
