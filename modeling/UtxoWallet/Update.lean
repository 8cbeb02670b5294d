import UtxoWallet.Coin
import UtxoWallet.OrderedSet

/-!
# Reports of the indexer

The indexer reports every transaction that touches the wallet, once the network has settled it, and
now and then how far the chain has come. A transaction succeeds, fails, or succeeds in some of its
segments only.
-/

namespace UtxoWallet

/-- How the network settled a transaction. -/
inductive Status where
  | success
  | failure
  | partialSuccess
  deriving DecidableEq, Inhabited

namespace Status

/-- All the ways to settle a transaction. -/
def all : List Status :=
  [.success, .failure, .partialSuccess]

def text : Status → String
  | .success => "SUCCESS"
  | .failure => "FAILURE"
  | .partialSuccess => "PARTIAL_SUCCESS"

/-- Did the transaction take effect, at least in part? -/
def isApplied : Status → Bool
  | .failure => false
  | .success | .partialSuccess => true

end Status

/-- The outcome of one segment. -/
structure SegmentResult where
  segment : UInt16
  success : Bool
  deriving DecidableEq

/-- The outcome of a transaction. -/
structure Verdict where
  status : Status
  segments : List SegmentResult
  deriving DecidableEq

/-- A settled transaction as the indexer reports it. -/
structure Update where
  id : UInt64
  /-- The hashes of the intents of the transaction, in hexadecimal. -/
  identifiers : OrderedSet String
  created : List Coin
  spent : List Coin
  status : Status
  segments : List SegmentResult
  deriving DecidableEq

def Update.verdict (update : Update) : Verdict :=
  ⟨update.status, update.segments⟩

/-- An element of the indexer's stream. -/
inductive Notice where
  | progress (highest : UInt64)
  | transaction (update : Update)
  deriving DecidableEq

end UtxoWallet
