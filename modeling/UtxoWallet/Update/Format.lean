import UtxoWallet.Coin.Format
import UtxoWallet.Update

/-!
# Reports in JSON

A status is its name. An update is the record `transactionId, identifiers, createdUtxos, spentUtxos,
status, segments` in which the lists may be absent. A notice is the record of what it reports with
its `type` before it; written as an array, the type is the first element.
-/

namespace UtxoWallet

namespace Status

def toJson (status : Status) : Json :=
  .text status.text

/-- The status with a name. -/
def ofText? (name : String) : Option Status :=
  all.find? fun status => status.text = name

def ofJson? (leniency : Json.Leniency) (json : Json) : Option Status :=
  (json.name? leniency).bind ofText?

end Status

namespace SegmentResult

def toJson (result : SegmentResult) : Json :=
  .record [("segmentId", .natural result.segment.toNat), ("success", .bool result.success)]

def ofJson? (json : Json) : Option SegmentResult := do
  let [segment, success] ← json.fields? ["segmentId", "success"] 2 | none
  return ⟨← Json.required Json.uint16? segment, ← Json.required Json.bool? success⟩

end SegmentResult

namespace Verdict

def toJson (verdict : Verdict) : Json :=
  .record [
    ("status", verdict.status.toJson),
    ("segments", Json.list SegmentResult.toJson verdict.segments)]

def ofJson? (leniency : Json.Leniency) (json : Json) : Option Verdict := do
  let [status, segments] ← json.fields? ["status", "segments"] 1 | none
  return {
    status := ← Json.required (Status.ofJson? leniency) status
    segments := ← Json.orElse [] (Json.list? SegmentResult.ofJson?) segments }

end Verdict

namespace Update

/-- The members of the record of an update. -/
def members (update : Update) : List (String × Json) := [
  ("transactionId", .natural update.id.toNat),
  ("identifiers", Json.list Json.text (OrderedSet.toList update.identifiers)),
  ("createdUtxos", Json.list Coin.toJson update.created),
  ("spentUtxos", Json.list Coin.toJson update.spent),
  ("status", update.status.toJson),
  ("segments", Json.list SegmentResult.toJson update.segments)]

def toJson (update : Update) : Json :=
  .record update.members

def ofJson? (leniency : Json.Leniency) (json : Json) : Option Update := do
  let [id, identifiers, created, spent, status, segments] ←
    json.fields?
      ["transactionId", "identifiers", "createdUtxos", "spentUtxos", "status", "segments"] 5 | none
  return {
    id := ← Json.required Json.uint64? id
    identifiers := OrderedSet.ofList (← Json.orElse [] (Json.list? Json.text?) identifiers)
    created := ← Json.orElse [] (Json.list? Coin.ofJson?) created
    spent := ← Json.orElse [] (Json.list? Coin.ofJson?) spent
    status := ← Json.required (Status.ofJson? leniency) status
    segments := ← Json.orElse [] (Json.list? SegmentResult.ofJson?) segments }

end Update

namespace Notice

/-- The names of the types of notices, in order. -/
def typeNames : List String :=
  ["Progress", "TransactionUpdate"]

def toJson : Notice → Json
  | .progress highest =>
    .record [("type", .text "Progress"), ("highestTransactionId", .natural highest.toNat)]
  | .transaction update => .record (("type", .text "TransactionUpdate") :: update.members)

def typeName? (leniency : Json.Leniency) : Json → Option String
  | .string name => name
  | .number (.natural index) => if leniency = .indexed then typeNames[index]? else none
  | _ => none

/-- Splits a tagged value into its tag and the rest. -/
def untag? : Json → Option (Json × Json)
  | .array (tag :: rest) => some (tag, .array rest)
  | .object members => do
    let [tag] ← (Json.object members).fields? ["type"] 1 | none
    return (← tag, .object members)
  | _ => none

def ofJson? (leniency : Json.Leniency) (json : Json) : Option Notice := do
  let (tag, rest) ← untag? json
  match ← typeName? leniency tag with
  | "Progress" =>
    let [highest] ← rest.fields? ["highestTransactionId"] 1 | none
    return .progress (← Json.required Json.uint64? highest)
  | "TransactionUpdate" => return .transaction (← Update.ofJson? leniency rest)
  | _ => none

/-- Reads the text of a notice. As the type may come last, all members are collected before any is
read, so all of them must be sound. -/
def read? (text : String) : Option Notice := do
  let json ← Json.read? text
  if json.isSound Json.maxDepth then ofJson? .collected json else none

end Notice

end UtxoWallet
