import UtxoWallet.Json.Double
import UtxoWallet.Text.Decimal

/-!
# Number literals

The formats of this library hold natural numbers only, written in plain digits. Any other literal
is well formed all the same where nobody reads it; of such a one the size `mantissa · 10 ^ exponent`
is kept, since some readers refuse a number that overflows a double.
-/

namespace UtxoWallet.Json

open UtxoWallet.Text

/-- What is kept of a number literal: its value, or the size of a value that is written with a
sign, a fraction or an exponent. -/
inductive Number where
  | natural (n : Nat)
  | scaled (mantissa : Nat) (exponent : Int)
  deriving DecidableEq

namespace Number

/-- The digits after a point, if there is a point, and what follows them; `none` if a point stands
without digits. -/
def fraction? : List Char → Option (Option (List Char) × List Char)
  | '.' :: s =>
    let digits := s.takeWhile Char.isDigit
    if digits.isEmpty then none else some (some digits, s.dropWhile Char.isDigit)
  | s => some (none, s)

/-- The value of the exponent, if there is one; `none` if anything else stands there. -/
def exponent? : List Char → Option (Option Int)
  | [] => some none
  | 'e' :: s | 'E' :: s =>
    match s with
    | '-' :: s => (Decimal.readDigits? s).map fun n => some (-(n : Int))
    | s => (Decimal.read? s).map fun n => some (n : Int)
  | _ => none

def readUnsigned? (negative : Bool) (s : List Char) : Option Number := do
  let whole := s.takeWhile Char.isDigit
  if whole.isEmpty || (whole.length > 1 && whole.head? == some '0') then none else
  let (fraction, s) ← fraction? (s.dropWhile Char.isDigit)
  let exponent ← exponent? s
  match negative, fraction, exponent with
  | false, none, none => return .natural (Decimal.ofDigits whole)
  | _, _, _ =>
    let decimals := fraction.getD []
    return .scaled (Decimal.ofDigits (whole ++ decimals)) (exponent.getD 0 - decimals.length)

def read? : List Char → Option Number
  | '-' :: s => readUnsigned? true s
  | s => readUnsigned? false s

def write : Number → List Char
  | .natural n => Decimal.digits n
  | .scaled mantissa exponent =>
    Decimal.digits mantissa ++ 'e' :: (Decimal.writeInt exponent).toList

/-- Is the value finite as a double? -/
def isFinite : Number → Bool
  | .natural n => Double.isFinite n 0
  | .scaled mantissa exponent => Double.isFinite mantissa exponent

/-- A number that fits into 64 bits is finite. -/
theorem isFinite_natural {n : Nat} (h : n < UInt64.size) : (natural n).isFinite :=
  Double.isFinite_of_lt h

/-! ### Reading what is written -/

theorem readUnsigned?_digits_append (n : Nat) {rest : List Char}
    (h : rest.head?.all (!·.isDigit)) (negative : Bool) :
    readUnsigned? negative (Decimal.digits n ++ rest) = (do
      let (fraction, s) ← fraction? rest
      let exponent ← exponent? s
      match negative, fraction, exponent with
      | false, none, none => return .natural n
      | _, _, _ =>
        let decimals := fraction.getD []
        return .scaled (Decimal.ofDigits (Decimal.digits n ++ decimals))
          (exponent.getD 0 - decimals.length)) := by
  have noLeadingZero : ¬(1 < (Decimal.digits n).length ∧ (Decimal.digits n).head? = some '0') := by
    rintro ⟨long, zero⟩
    cases Decimal.head?_digits zero
    exact absurd long (by decide)
  unfold readUnsigned?
  rw [Decimal.takeWhile_digits_append n h, Decimal.dropWhile_digits_append n h]
  simp [Decimal.digits_ne_nil, noLeadingZero, Decimal.ofDigits_digits]

theorem read?_digits_append (n : Nat) (rest : List Char) :
    read? (Decimal.digits n ++ rest) = readUnsigned? false (Decimal.digits n ++ rest) := by
  obtain ⟨c, s, parts⟩ := List.exists_cons_of_ne_nil (Decimal.digits_ne_nil n)
  have isDigit : c.isDigit := Decimal.isDigit_of_mem_digits (parts ▸ List.mem_cons_self)
  rw [parts, List.cons_append, read?]
  intro _ h
  cases (List.cons.inj h).1
  exact absurd isDigit (by decide)

theorem exponent?_writeInt (n : Int) :
    exponent? ('e' :: (Decimal.writeInt n).toList) = some (some n) := by
  cases n with
  | ofNat n =>
    obtain ⟨c, s, parts⟩ := List.exists_cons_of_ne_nil (Decimal.digits_ne_nil n)
    have notMinus : c ≠ '-' := by
      rintro rfl
      exact absurd (Decimal.isDigit_of_mem_digits (parts ▸ List.mem_cons_self)) (by decide)
    have reads := Decimal.read?_digits n
    simp_all [exponent?, Decimal.writeInt, Decimal.write]
  | negSucc n =>
    simp [exponent?, Decimal.writeInt, Decimal.readDigits?_digits, Int.negSucc_eq]

/-- A written number reads back. -/
theorem read?_write (n : Number) : read? n.write = some n := by
  cases n with
  | natural n =>
    rw [write, ← List.append_nil (Decimal.digits n), read?_digits_append,
      readUnsigned?_digits_append n rfl]
    rfl
  | scaled mantissa exponent =>
    rw [write, read?_digits_append, readUnsigned?_digits_append mantissa rfl]
    have point : fraction? ('e' :: (Decimal.writeInt exponent).toList) =
        some (none, 'e' :: (Decimal.writeInt exponent).toList) := rfl
    simp [point, exponent?_writeInt, Decimal.ofDigits_digits]

end Number

end UtxoWallet.Json
