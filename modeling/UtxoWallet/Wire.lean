import UtxoWallet.Text.Hex

/-!
# The binary format

Values are laid out one after the other, without names or padding. A natural number below 251 takes
one byte; a greater one takes a marker that tells its width, and then 2, 4, 8 or 16 bytes, least
significant first. Integers are folded into naturals, 0, -1, 1, -2, and so on. A text, a list of
bytes or any other list is its length and its items; an absent value is the byte 0, a present one
the byte 1 before the value.

A decoder takes its value off the front of the bytes. It accepts longer forms of a number than the
encoder writes, up to the width of its type. A whole message has nothing after its value.
-/

namespace UtxoWallet.Wire

open UtxoWallet.Text

/-! ### Errors -/

/-- Why bytes do not begin with a value. -/
inductive Malformation where
  | unexpectedEnd
  | invalidIntegerType
  | invalidBooleanValue
  | unexpectedVariant
  | utf8
  deriving DecidableEq

/-- Why a message cannot be read. -/
inductive Error where
  | malformed (reason : Malformation)
  | hex (error : Hex.Error)
  | trailingBytes (consumed total : Nat)
  deriving DecidableEq

/-- The wording of an error; what is wrong inside a value has none. -/
def Error.message? : Error → Option String
  | .malformed _ => none
  | .hex error => some ("Failed to decode hex string: " ++ error.message)
  | .trailingBytes consumed total =>
    some ("Decoded " ++ consumed.repr ++ " of " ++ total.repr ++
      " bytes; trailing bytes are not allowed")

/-! ### Decoders -/

/-- Takes a value off the front of some bytes. -/
abbrev Decoder (α : Type) := StateT (List UInt8) (Except Malformation) α

def byte : Decoder UInt8
  | b :: rest => .ok (b, rest)
  | [] => .error .unexpectedEnd

/-- Takes `count` bytes. -/
def raw (count : Nat) : Decoder (List UInt8) := fun bytes =>
  if count ≤ bytes.length then .ok (bytes.take count, bytes.drop count)
  else .error .unexpectedEnd

/-- Gives up. -/
def fail (reason : Malformation) : Decoder α := fun _ => .error reason

/-! ### Natural numbers -/

/-- The `width` bytes of a number, least significant first. -/
def littleEndian : (width n : Nat) → List UInt8
  | 0, _ => []
  | width + 1, n => UInt8.ofNat n :: littleEndian width (n / 256)

/-- The number with the given bytes, least significant first. -/
def ofLittleEndian : List UInt8 → Nat
  | [] => 0
  | b :: rest => b.toNat + 256 * ofLittleEndian rest

/-- Lays out a natural number below `2 ^ 128`. -/
def encodeNat (n : Nat) : List UInt8 :=
  if n < 251 then [UInt8.ofNat n]
  else if n < UInt16.size then 251 :: littleEndian 2 n
  else if n < UInt32.size then 252 :: littleEndian 4 n
  else if n < UInt64.size then 253 :: littleEndian 8 n
  else 254 :: littleEndian 16 n

/-- The number of bytes that a marker announces. -/
def markedWidth? (marker : UInt8) : Option Nat :=
  if marker = 251 then some 2
  else if marker = 252 then some 4
  else if marker = 253 then some 8
  else if marker = 254 then some 16
  else none

/-- Takes a natural number of a type that is `width` bytes wide. -/
def decodeNat (width : Nat) : Decoder Nat := do
  let first ← byte
  if first < 251 then return first.toNat
  -- A marker for more bytes than the type has is refused, whatever number would follow.
  match markedWidth? first with
  | some marked => if marked ≤ width then ofLittleEndian <$> raw marked else fail .invalidIntegerType
  | none => fail .invalidIntegerType

/-! ### Integers -/

/-- Folds an integer into a natural number. -/
def zigzag : Int → Nat
  | .ofNat n => 2 * n
  | .negSucc n => 2 * n + 1

/-- Unfolds an integer. -/
def unzigzag (n : Nat) : Int :=
  if n % 2 = 0 then .ofNat (n / 2) else .negSucc (n / 2)

theorem unzigzag_zigzag (n : Int) : unzigzag (zigzag n) = n := by
  cases n with
  | ofNat n => simp [zigzag, unzigzag]
  | negSucc n =>
    have : (2 * n + 1) % 2 = 1 := by omega
    have : (2 * n + 1) / 2 = n := by omega
    simp [zigzag, unzigzag, *]

def encodeInt64 (n : Int64) : List UInt8 :=
  encodeNat (zigzag n.toInt)

def decodeInt64 : Decoder Int64 := do
  return Int64.ofInt (unzigzag (← decodeNat 8))

/-! ### Truth values, texts and bytes -/

def encodeBool (b : Bool) : List UInt8 :=
  [if b then 1 else 0]

def decodeBool : Decoder Bool := do
  match ← byte with
  | 0 => return false
  | 1 => return true
  | _ => fail .invalidBooleanValue

def encodeBytes (bytes : List UInt8) : List UInt8 :=
  encodeNat bytes.length ++ bytes

def decodeBytes : Decoder (List UInt8) := do
  raw (← decodeNat 8)

def encodeText (text : String) : List UInt8 :=
  encodeBytes (utf8 text)

def decodeText : Decoder String := do
  match ofUtf8? (← decodeBytes) with
  | some text => return text
  | none => fail .utf8

/-! ### Lists and options -/

def encodeList (encode : α → List UInt8) (items : List α) : List UInt8 :=
  encodeNat items.length ++ items.flatMap encode

/-- Takes `count` items. -/
def decodeItems (item : Decoder α) : Nat → Decoder (List α)
  | 0 => pure []
  | count + 1 => do
    let first ← item
    let rest ← decodeItems item count
    return first :: rest

def decodeList (item : Decoder α) : Decoder (List α) := do
  decodeItems item (← decodeNat 8)

def encodeOption (encode : α → List UInt8) : Option α → List UInt8
  | none => [0]
  | some a => 1 :: encode a

def decodeOption (decode : Decoder α) : Decoder (Option α) := do
  match ← byte with
  | 0 => return none
  | 1 => some <$> decode
  | _ => fail .unexpectedVariant

/-! ### Messages -/

/-- Reads a message that holds one value and nothing else. -/
def decodeMessage (decode : Decoder α) (bytes : List UInt8) : Except Error α :=
  match decode bytes with
  | .error reason => .error (.malformed reason)
  | .ok (a, []) => .ok a
  | .ok (_, rest) => .error (.trailingBytes (bytes.length - rest.length) bytes.length)

def decodeHexMessage (decode : Decoder α) (text : String) : Except Error α :=
  match Hex.decode text with
  | .error error => .error (.hex error)
  | .ok bytes => decodeMessage decode bytes

end UtxoWallet.Wire
