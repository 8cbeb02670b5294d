import UtxoWallet.Text.Hex

/-!
# The inside of a string literal

Between its quotes a literal holds characters and escapes. An escape `\u` with four digits stands
for a UTF-16 code unit; two of them may form a surrogate pair. A unit that pairs with nothing
stands for no character, yet the literal around it is well formed: `decode?` then gives
`some none`, and gives `none` only where the grammar is violated.

Written text escapes no more than it must. Main statement: `decode? (encode s) = some (some s)`.
-/

namespace UtxoWallet.Json.Quoted

open UtxoWallet.Text

/-- What one character or one escape of a literal stands for. -/
inductive Piece where
  | char (c : Char)
  | unit (code : Nat)

/-- The character of a two-character escape. -/
def shortEscape? : Char → Option Char
  | '"' => some '"'
  | '\\' => some '\\'
  | '/' => some '/'
  | 'b' => some '\x08'
  | 'f' => some '\x0c'
  | 'n' => some '\n'
  | 'r' => some '\r'
  | 't' => some '\t'
  | _ => none

/-- The number that four digits stand for. -/
def fourDigits? (a b c d : Char) : Option Nat := do
  let a ← hexValue? a
  let b ← hexValue? b
  let c ← hexValue? c
  let d ← hexValue? d
  return 4096 * a + 256 * b + 16 * c + d

/-- Takes the literal apart; `none` where an escape is malformed or a control character stands
unescaped. -/
def pieces? : List Char → Option (List Piece)
  | [] => some []
  | '\\' :: 'u' :: a :: b :: c :: d :: rest => do
    let code ← fourDigits? a b c d
    let tail ← pieces? rest
    return .unit code :: tail
  | '\\' :: e :: rest => do
    let c ← shortEscape? e
    let tail ← pieces? rest
    return .char c :: tail
  | c :: rest =>
    if c = '\\' ∨ c.toNat < 0x20 then none
    else (pieces? rest).map (.char c :: ·)

/-- Is the code unit the first half of a surrogate pair? -/
def isHighSurrogate (code : Nat) : Bool :=
  0xD800 ≤ code && code < 0xDC00

/-- Is the code unit the second half of a surrogate pair? -/
def isLowSurrogate (code : Nat) : Bool :=
  0xDC00 ≤ code && code < 0xE000

/-- The text of the pieces, if every surrogate is paired. -/
def join? : List Piece → Option (List Char)
  | [] => some []
  | .char c :: rest => (join? rest).map (c :: ·)
  | .unit high :: .unit low :: rest =>
    if isHighSurrogate high then
      if isLowSurrogate low then
        (join? rest).map (Char.ofNat (0x10000 + 0x400 * (high - 0xD800) + (low - 0xDC00)) :: ·)
      else none
    else if isLowSurrogate high then none
    else (join? (.unit low :: rest)).map (Char.ofNat high :: ·)
  | .unit code :: rest =>
    if isHighSurrogate code || isLowSurrogate code then none
    else (join? rest).map (Char.ofNat code :: ·)

/-- Reads the inside of a literal: `none` if it is malformed, `some none` if it holds an unpaired
surrogate. -/
def decode? (s : List Char) : Option (Option (List Char)) :=
  (pieces? s).map join?

/-! ### Writing -/

/-- The name under which a character is escaped, if it has to be and has one. -/
def shortName? : Char → Option Char
  | '"' => some '"'
  | '\\' => some '\\'
  | '\x08' => some 'b'
  | '\x0c' => some 'f'
  | '\n' => some 'n'
  | '\r' => some 'r'
  | '\t' => some 't'
  | _ => none

/-- A character as it is written inside a literal. -/
def escape (c : Char) : List Char :=
  match shortName? c with
  | some name => ['\\', name]
  | none =>
    if c.toNat < 0x20 then
      ['\\', 'u', '0', '0', hexDigit (c.toNat / 16), hexDigit (c.toNat % 16)]
    else [c]

/-- A text as it is written inside a literal. -/
def encode (s : List Char) : List Char :=
  s.flatMap escape

/-! ### Reading what is written -/

/-- What a written character is read as. -/
def pieceOf (c : Char) : Piece :=
  if shortName? c = none ∧ c.toNat < 0x20 then .unit c.toNat else .char c

theorem shortEscape?_shortName {c name : Char} (h : shortName? c = some name) :
    shortEscape? name = some c ∧ name ≠ 'u' := by
  unfold shortName? at h
  split at h <;> cases h <;> decide

theorem fourDigits?_hexDigit : ∀ n < 0x20,
    fourDigits? '0' '0' (hexDigit (n / 16)) (hexDigit (n % 16)) = some n := by decide

theorem pieces?_escape (c : Char) (rest : List Char) :
    pieces? (escape c ++ rest) = (pieces? rest).map (pieceOf c :: ·) := by
  unfold escape pieceOf
  cases h : shortName? c with
  | some name =>
    obtain ⟨read, notUnicode⟩ := shortEscape?_shortName h
    cases tail : pieces? rest <;> simp [pieces?, read, notUnicode, tail]
  | none =>
    have notBackslash : c ≠ '\\' := by rintro rfl; cases h
    by_cases control : c.toNat < 0x20
    · have read := fourDigits?_hexDigit c.toNat control
      cases tail : pieces? rest <;> simp [pieces?, control, read, tail]
    · simp [pieces?, control, notBackslash]

theorem pieces?_encode (s : List Char) : pieces? (encode s) = some (s.map pieceOf) := by
  induction s with
  | nil => rfl
  | cons c s ih =>
    rw [encode, List.flatMap_cons, pieces?_escape, ← encode, ih]
    rfl

theorem join?_control {code : Nat} (h : code < 0x20) (rest : List Piece) :
    join? (.unit code :: rest) = (join? rest).map (Char.ofNat code :: ·) := by
  have notHigh : isHighSurrogate code = false := by simp [isHighSurrogate]; omega
  have notLow : isLowSurrogate code = false := by simp [isLowSurrogate]; omega
  rcases rest with _ | ⟨_ | low, rest⟩ <;> simp [join?, notHigh, notLow]

theorem join?_map_pieceOf (s : List Char) : join? (s.map pieceOf) = some s := by
  induction s with
  | nil => rfl
  | cons c s ih =>
    rw [List.map_cons, pieceOf]
    split
    · next control =>
      rw [join?_control control.2, ih, Option.map_some, Char.ofNat_toNat]
    · rw [join?, ih]
      rfl

/-- A written text reads back. -/
theorem decode?_encode (s : List Char) : decode? (encode s) = some (some s) := by
  rw [decode?, pieces?_encode, Option.map_some, join?_map_pieceOf]

end UtxoWallet.Json.Quoted
