import UtxoWallet.Text.Utf8

/-!
# Bytes in hexadecimal

Two digits a byte, written in lower case and read in either. A text that cannot be read is refused
for its odd length first, then for its first byte that is no digit. Written bytes read back
(`Hex.decode_encode`).
-/

namespace UtxoWallet.Text

/-! ### Digits -/

/-- The digit of a number below 16. -/
def hexDigit (n : Nat) : Char :=
  n.digitChar

/-- The number that a digit stands for. -/
def hexValue? (c : Char) : Option Nat :=
  if '0' ≤ c ∧ c ≤ '9' then some (c.toNat - '0'.toNat)
  else if 'a' ≤ c ∧ c ≤ 'f' then some (c.toNat - 'a'.toNat + 10)
  else if 'A' ≤ c ∧ c ≤ 'F' then some (c.toNat - 'A'.toNat + 10)
  else none

theorem hexValue?_hexDigit : ∀ n < 16, hexValue? (hexDigit n) = some n := by decide

theorem toNat_hexDigit_lt : ∀ n < 16, (hexDigit n).toNat < 128 := by decide

namespace Hex

/-- Why a text is not hexadecimal. -/
inductive Error where
  | oddLength
  | invalidDigit (byte : UInt8) (position : Nat)
  deriving DecidableEq

/-- A byte as the Latin-1 character it stands for, quoted; a character without a shape of its own
is escaped. -/
def shown (byte : UInt8) : String :=
  let n := byte.toNat
  let body : List Char :=
    if n = 0x00 then ['\\', '0']
    else if n = 0x09 then ['\\', 't']
    else if n = 0x0A then ['\\', 'n']
    else if n = 0x0D then ['\\', 'r']
    else if n = 0x27 then ['\\', '\'']
    else if n = 0x5C then ['\\', '\\']
    else if n < 0x20 ∨ (0x7F ≤ n ∧ n ≤ 0xA0) ∨ n = 0xAD then
      ['\\', 'u', '\x7b'] ++ Nat.toDigits 16 n ++ ['\x7d']
    else [Char.ofNat n]
  String.ofList (['\''] ++ body ++ ['\''])

def Error.message : Error → String
  | .oddLength => "Odd number of digits"
  | .invalidDigit byte position =>
    "Invalid character " ++ shown byte ++ " at position " ++ position.repr

/-- The two digits of a byte. -/
def encodeByte (byte : UInt8) : List Char :=
  [hexDigit (byte.toNat / 16), hexDigit (byte.toNat % 16)]

/-- Writes bytes, two digits each. -/
def encode (bytes : List UInt8) : String :=
  String.ofList (bytes.flatMap encodeByte)

/-- The number of the digit that stands at `position`. -/
def digitAt (byte : UInt8) (position : Nat) : Except Error Nat :=
  match hexValue? (Char.ofNat byte.toNat) with
  | some n => .ok n
  | none => .error (.invalidDigit byte position)

/-- Reads digits two by two, the first of them at `position`. -/
def decodePairs (position : Nat) : List UInt8 → Except Error (List UInt8)
  | high :: low :: rest => do
    let h ← digitAt high position
    let l ← digitAt low (position + 1)
    let bytes ← decodePairs (position + 2) rest
    return UInt8.ofNat (16 * h + l) :: bytes
  | _ => .ok []

/-- Reads bytes, two digits each. -/
def decode (text : String) : Except Error (List UInt8) :=
  let bytes := utf8 text
  if bytes.length % 2 = 1 then .error .oddLength else decodePairs 0 bytes

/-! ### Reading what is written -/

/-- The byte that writes a digit. -/
def digitByte (n : Nat) : UInt8 :=
  UInt8.ofNat (hexDigit n).toNat

theorem digitAt_digitByte {n : Nat} (h : n < 16) (position : Nat) :
    digitAt (digitByte n) position = .ok n := by
  have ascii := toNat_hexDigit_lt n h
  have same : Char.ofNat (digitByte n).toNat = hexDigit n := by
    rw [digitByte, UInt8.toNat_ofNat', Nat.mod_eq_of_lt (by omega), Char.ofNat_toNat]
  simp only [digitAt, same, hexValue?_hexDigit n h]

theorem utf8_encode (bytes : List UInt8) :
    utf8 (encode bytes) =
      bytes.flatMap fun byte => [digitByte (byte.toNat / 16), digitByte (byte.toNat % 16)] := by
  have ascii : ∀ c ∈ bytes.flatMap encodeByte, c.toNat < 128 := by
    intro c mem
    obtain ⟨byte, -, mem⟩ := List.mem_flatMap.1 mem
    have := byte.toNat_lt
    simp only [encodeByte, List.mem_cons, List.not_mem_nil, or_false] at mem
    rcases mem with rfl | rfl <;> exact toNat_hexDigit_lt _ (by omega)
  rw [encode, utf8_ofList_of_lt ascii, List.map_flatMap]
  rfl

theorem decodePairs_utf8_encode (position : Nat) (bytes : List UInt8) :
    decodePairs position (utf8 (encode bytes)) = .ok bytes := by
  rw [utf8_encode]
  induction bytes generalizing position with
  | nil => rfl
  | cons byte bytes ih =>
    have bound := byte.toNat_lt
    have whole : 16 * (byte.toNat / 16) + byte.toNat % 16 = byte.toNat := by omega
    rw [List.flatMap_cons, List.cons_append, List.cons_append, List.nil_append, decodePairs,
      digitAt_digitByte (by omega), digitAt_digitByte (by omega), ih]
    simp [bind, Except.bind, pure, Except.pure, whole]

/-- Written bytes read back. -/
theorem decode_encode (bytes : List UInt8) : decode (encode bytes) = .ok bytes := by
  have even : (utf8 (encode bytes)).length % 2 ≠ 1 := by
    rw [utf8_encode]
    induction bytes with
    | nil => decide
    | cons byte bytes ih => simp at ih ⊢; omega
  simp only [decode, even, if_false, decodePairs_utf8_encode]

end Hex

end UtxoWallet.Text
