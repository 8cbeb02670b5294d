import UtxoWallet.Json.Reader

/-!
# Reading records

A record is an object or, more tersely, an array of its fields in order. In an object the order is
free, unknown members are skipped whatever they hold, and a field may stand once only. In an array
nothing may follow the last field, and the fields that may be missing are those at its end.

`Json.fields?` gives the value of each field, or `none` where a field is absent; what absence means
is for the field to say (`required`, `optional`, `orElse`).
-/

namespace UtxoWallet.Json

/-! ### Fields -/

/-- How often a key occurs. -/
def occurrences (name : String) (members : List (Option String × Json)) : Nat :=
  members.countP fun member => member.1 == some name

/-- The value of the first member with the given key. -/
def member? (name : String) (members : List (Option String × Json)) : Option Json :=
  (members.find? fun member => member.1 == some name).map (·.2)

/-- The fields of a record, by their names in order; at least `least` of them stand in an array. -/
def fields? (names : List String) (least : Nat) : Json → Option (List (Option Json))
  | .array items =>
    if least ≤ items.length ∧ items.length ≤ names.length then
      some (items.map some ++ List.replicate (names.length - items.length) none)
    else none
  | .object members =>
    if members.all (·.1.isSome) ∧ names.all (occurrences · members ≤ 1) then
      some (names.map (member? · members))
    else none
  | _ => none

/-- A field that must be present. -/
def required (read : Json → Option α) (field : Option Json) : Option α :=
  field.bind read

/-- A field that may be absent or null. -/
def optional (read : Json → Option α) : Option Json → Option (Option α)
  | none | some .null => some none
  | some value => (read value).map some

/-- A field that may be absent, but not null. -/
def orElse (default : α) (read : Json → Option α) : Option Json → Option α
  | none => some default
  | some value => read value

/-! ### Values -/

def text? : Json → Option String
  | .string s => s
  | _ => none

def bool? : Json → Option Bool
  | .bool b => some b
  | _ => none

def natural? : Json → Option Nat
  | .number (.natural n) => some n
  | _ => none

/-- Reads a natural number below `bound`. -/
def below? (bound : Nat) (value : Json) : Option Nat :=
  value.natural?.filter (· < bound)

def uint16? (value : Json) : Option UInt16 :=
  (value.below? UInt16.size).map UInt16.ofNat

def uint32? (value : Json) : Option UInt32 :=
  (value.below? UInt32.size).map UInt32.ofNat

def uint64? (value : Json) : Option UInt64 :=
  (value.below? UInt64.size).map UInt64.ofNat

def list? (read : Json → Option α) : Json → Option (List α)
  | .array items => items.mapM read
  | _ => none

/-! ### Names

A choice among names without payload is written as the name. -/

/-- How leniently a name is read. A reader that works on text as it comes takes a name as a text, or
as the only key of an object with the value null. A reader that first collects what it reads also
lets an empty object stand for that null; and one that reads collected values from the beginning
lets the index of a type stand for its name. -/
inductive Leniency where
  | text
  | collected
  | indexed
  deriving DecidableEq

/-- Does the value stand for no payload? -/
def isUnit (leniency : Leniency) : Json → Bool
  | .null => true
  | .object [] => leniency ≠ .text
  | _ => false

def name? (leniency : Leniency) : Json → Option String
  | .string name => name
  | .object [(name, payload)] => if isUnit leniency payload then name else none
  | _ => none

/-! ### Writing -/

/-- A value that may be null. -/
def nullable (write : α → Json) : Option α → Json
  | none => .null
  | some a => write a

/-- A list of values. -/
def list (write : α → Json) (items : List α) : Json :=
  .array (items.map write)

end UtxoWallet.Json
