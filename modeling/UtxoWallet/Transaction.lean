import UtxoWallet.Coin
import UtxoWallet.OrderedMap

/-!
# Transactions

A transaction is made of intents, each in a segment of its own. An intent spends inputs and creates
outputs, and may be included until its time to live has passed. A random binding keeps apart two
intents that are equal otherwise.
-/

namespace UtxoWallet

/-! ### Intents -/

/-- The random bytes of an intent. -/
structure Binding where
  bytes : List UInt8
  length_eq : bytes.length = 16
  deriving DecidableEq

/-- The binding of zeros. -/
def Binding.zero : Binding :=
  ⟨List.replicate 16 0, rfl⟩

instance : Inhabited Binding := ⟨Binding.zero⟩

/-- What an intent spends and creates. -/
structure Offer where
  inputs : List Utxo
  outputs : List Output
  deriving DecidableEq, Inhabited

/-- A part of a transaction that stands for itself. -/
structure Intent where
  /-- The last second, from 1970-01-01T00:00:00Z, in which the intent may be included. -/
  ttl : Int64
  offer : Option Offer
  binding : Binding
  deriving DecidableEq, Inhabited

namespace Intent

/-- An intent with the given offer, to be included by some instant. -/
def make (ttl : Instant) (offer : Offer) (binding : Binding) : Intent :=
  ⟨Int64.ofInt ttl.seconds, some offer, binding⟩

/-- The time to live as an instant, if there is such an instant. -/
def expiry? (intent : Intent) : Option Instant :=
  Instant.ofSeconds? intent.ttl.toInt

def inputs (intent : Intent) : List Utxo :=
  intent.offer.elim [] Offer.inputs

def outputs (intent : Intent) : List Output :=
  intent.offer.elim [] Offer.outputs

end Intent

/-! ### Transactions -/

/-- A set of intents for one network, proven or not. -/
structure Transaction where
  network : String
  intents : OrderedMap UInt16 Intent
  proven : Bool
  deriving DecidableEq

instance : Inhabited Transaction := ⟨⟨"", ∅, false⟩⟩

/-- Why two transactions cannot become one, or an intent finds no place. -/
inductive TransactionError where
  | networkMismatch (left right : String)
  | segmentConflict (segment : UInt16)
  | segmentsExhausted
  deriving DecidableEq

def TransactionError.message : TransactionError → String
  | .networkMismatch left right =>
    "cannot merge transactions from networks '" ++ left ++ "' and '" ++ right ++ "'"
  | .segmentConflict segment =>
    "segment " ++ segment.toNat.repr ++ " is used by two different intents"
  | .segmentsExhausted => "no free segment id left for the balancing intent"

namespace Transaction

/-- The segment of the first intent; segment 0 is not for intents. -/
def firstSegment : UInt16 := 1

/-- An unproven transaction of one intent. -/
def ofIntent (network : String) (intent : Intent) : Transaction :=
  { network, intents := OrderedMap.empty.insert firstSegment intent, proven := false }

def inputs (tx : Transaction) : List Utxo :=
  tx.intents.values.flatMap Intent.inputs

def outputs (tx : Transaction) : List Output :=
  tx.intents.values.flatMap Intent.outputs

/-- The earliest time to live among the intents whose time to live is an instant. -/
def expiry? (tx : Transaction) : Option Instant :=
  (tx.intents.values.filterMap Intent.expiry?).foldl
    (fun earliest t => some ((earliest.map (Instant.earlier · t)).getD t)) none

def isExpired (tx : Transaction) (now : Instant) : Bool :=
  tx.expiry?.any (·.isBefore now)

/-- Does the transaction have another intent in the segment? -/
def conflictsAt (tx : Transaction) (segment : UInt16) (intent : Intent) : Bool :=
  (tx.intents.get? segment).any (· ≠ intent)

/-- The transaction of both sides' intents. An intent that both sides have is kept once; the lowest
segment with two different intents is a conflict. -/
def merge (a b : Transaction) : Except TransactionError Transaction :=
  if a.network ≠ b.network then .error (.networkMismatch a.network b.network)
  else match b.intents.entries.find? fun entry => a.conflictsAt entry.1 entry.2 with
    | some (segment, _) => .error (.segmentConflict segment)
    | none => .ok {
        network := a.network
        intents := a.intents.insertAll b.intents.entries
        proven := a.proven && b.proven }

/-- The segment after the last one in use. -/
def nextSegment? (tx : Transaction) : Option UInt16 :=
  match tx.intents.keys.getLast? with
  | none => some firstSegment
  | some last => if last.toNat + 1 < UInt16.size then some (last + 1) else none

/-- The unproven transaction with one more intent, in the next segment. -/
def withIntent (tx : Transaction) (intent : Intent) : Except TransactionError Transaction :=
  match tx.nextSegment? with
  | none => .error .segmentsExhausted
  | some segment => .ok { tx with intents := tx.intents.insert segment intent, proven := false }

end Transaction

end UtxoWallet
