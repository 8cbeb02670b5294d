import UtxoWallet.Json.Record
import UtxoWallet.Tracker

/-!
# Persisted lists of tracked transactions

The list is kept as the record `version, transactions` with the messages of the transactions in
hexadecimal. Outcomes are not kept.
-/

namespace UtxoWallet.Tracker

open UtxoWallet.Text

/-- The version of the persisted form. -/
def currentVersion : String := "v1"

/-- Why a persisted list cannot be taken up. -/
inductive SnapshotError where
  | unreadable
  | unsupportedVersion (version : String)
  | hex (index : Nat) (error : Hex.Error)
  | decode (index : Nat) (error : Wire.Error)
  deriving DecidableEq

/-- The wording of an error, if it has one of its own. -/
def SnapshotError.message? : SnapshotError → Option String
  | .unreadable => none
  | .unsupportedVersion version =>
    some ("unsupported pending transactions version '" ++ version ++ "'")
  | .hex index error =>
    some ("pending transaction " ++ index.repr ++ " is not valid hex: " ++ error.message)
  | .decode _ _ => none

variable {τ : Type} [Trackable τ]

def toJson (tracker : Tracker τ) : Json :=
  .record [
    ("version", .text currentVersion),
    ("transactions",
      Json.list (fun item => .text (Hex.encode (Trackable.toBytes item.tx))) tracker.items)]

def serialize (tracker : Tracker τ) : String :=
  tracker.toJson.write

def wireOfJson? (json : Json) : Option (String × List String) := do
  let [version, transactions] ← json.fields? ["version", "transactions"] 2 | none
  return (← Json.required Json.text? version,
    ← Json.required (Json.list? Json.text?) transactions)

def decodeAt (text : String) (index : Nat) : Except SnapshotError (Tracked τ) := do
  let bytes ← (Hex.decode text).mapError (.hex index)
  let tx ← (Trackable.ofBytes bytes).mapError (.decode index)
  return ⟨tx, none⟩

/-- Takes up a persisted list. -/
def deserialize (text : String) : Except SnapshotError (Tracker τ) :=
  match (Json.read? text).bind wireOfJson? with
  | none => .error .unreadable
  | some (version, transactions) =>
    if version ≠ currentVersion then .error (.unsupportedVersion version)
    else (transactions.zipIdx.mapM fun (text, index) => decodeAt text index).map Tracker.mk

end UtxoWallet.Tracker
