import UtxoWallet.Json.Number
import UtxoWallet.Json.Quoted

/-!
# JSON values

A value keeps what its text says: members in their order and repeated ones too, and a string
literal that stands for no text as `none`. The written form has no blanks; it is the concatenation
of the texts of the value's tokens.
-/

namespace UtxoWallet

/-- A JSON value. A string or key is `none` if its literal holds an unpaired surrogate. -/
inductive Json where
  | null
  | bool (b : Bool)
  | number (n : Json.Number)
  | string (s : Option String)
  | array (items : List Json)
  | object (members : List (Option String × Json))

namespace Json

/-! ### Tokens -/

/-- A lexical element of JSON text. -/
inductive Token where
  | openArray
  | closeArray
  | openObject
  | closeObject
  | comma
  | colon
  | null
  | bool (b : Bool)
  | number (n : Number)
  | string (s : Option String)
  deriving DecidableEq

def Token.text : Token → List Char
  | .openArray => ['[']
  | .closeArray => [']']
  | .openObject => ['\x7b']
  | .closeObject => ['\x7d']
  | .comma => [',']
  | .colon => [':']
  | .null => ['n', 'u', 'l', 'l']
  | .bool true => ['t', 'r', 'u', 'e']
  | .bool false => ['f', 'a', 'l', 's', 'e']
  | .number n => n.write
  | .string none => ['"', '\\', 'u', 'd', '8', '0', '0', '"']
  | .string (some s) => '"' :: (Quoted.encode s.toList ++ ['"'])

mutual

/-- The tokens of a value. -/
def tokens : Json → List Token
  | .null => [.null]
  | .bool b => [.bool b]
  | .number n => [.number n]
  | .string s => [.string s]
  | .array items => .openArray :: elementTokens items
  | .object members => .openObject :: memberTokens members

/-- The tokens after an opening bracket. -/
def elementTokens : List Json → List Token
  | [] => [.closeArray]
  | item :: rest => tokens item ++ moreElementTokens rest

/-- The tokens after an element. -/
def moreElementTokens : List Json → List Token
  | [] => [.closeArray]
  | item :: rest => .comma :: (tokens item ++ moreElementTokens rest)

/-- The tokens after an opening brace. -/
def memberTokens : List (Option String × Json) → List Token
  | [] => [.closeObject]
  | (key, value) :: rest => .string key :: .colon :: (tokens value ++ moreMemberTokens rest)

/-- The tokens after a member. -/
def moreMemberTokens : List (Option String × Json) → List Token
  | [] => [.closeObject]
  | (key, value) :: rest =>
    .comma :: .string key :: .colon :: (tokens value ++ moreMemberTokens rest)

end

/-- The text of a value, without blanks. -/
def write (value : Json) : String :=
  String.ofList (value.tokens.flatMap Token.text)

/-! ### Building values -/

/-- A string value. -/
def text (s : String) : Json :=
  .string (some s)

/-- A natural number. -/
def natural (n : Nat) : Json :=
  .number (.natural n)

/-- An object with the given members. -/
def record (members : List (String × Json)) : Json :=
  .object (members.map fun (key, value) => (some key, value))

/-! ### Repeated members -/

/-- The members without those that a later one replaces. -/
def lastMembers : List (Option String × Json) → List (Option String × Json)
  | [] => []
  | (key, value) :: rest =>
    if rest.any (·.1 == key) then lastMembers rest else (key, value) :: lastMembers rest

mutual

/-- The value in which, of two members with one key, the later counts. -/
def withLastMembers : Json → Json
  | .array items => .array (withLastMembersAll items)
  | .object members => .object (lastMembers (withLastMembersIn members))
  | value => value

/-- `withLastMembers` of every element. -/
def withLastMembersAll : List Json → List Json
  | [] => []
  | item :: rest => withLastMembers item :: withLastMembersAll rest

/-- `withLastMembers` of every member. -/
def withLastMembersIn : List (Option String × Json) → List (Option String × Json)
  | [] => []
  | (key, value) :: rest => (key, withLastMembers value) :: withLastMembersIn rest

end

/-! ### Well-formedness beyond the grammar -/

/-- The deepest nesting of arrays and objects that a value may have. -/
def maxDepth : Nat := 127

mutual

/-- Does the value hold readable strings and finite numbers only, nested at most `depth` deep? -/
def isSound (depth : Nat) : Json → Bool
  | .null | .bool _ => true
  | .number n => n.isFinite
  | .string s => s.isSome
  | .array items =>
    match depth with
    | 0 => false
    | depth + 1 => areSound depth items
  | .object members =>
    match depth with
    | 0 => false
    | depth + 1 => membersAreSound depth members

/-- Is every element sound? -/
def areSound (depth : Nat) : List Json → Bool
  | [] => true
  | item :: rest => isSound depth item && areSound depth rest

/-- Is every key a text and every member sound? -/
def membersAreSound (depth : Nat) : List (Option String × Json) → Bool
  | [] => true
  | (key, value) :: rest => key.isSome && isSound depth value && membersAreSound depth rest

end

end Json

end UtxoWallet
