import UtxoWallet.Json.Record
import UtxoWallet.Text.Blank
import UtxoWallet.Time.Instant

/-!
# Timestamps

An instant is written as `YYYY-MM-DDThh:mm:ss[.fraction]Z` with 0, 3, 6 or 9 digits of fraction, the
fewest that are exact. A year outside 0 to 9999 has a sign. A leap second is written with the number
after that of the second it is counted with: as second 60 if it ends a minute, and else as the second
that follows it.

Reading is more lenient: blanks may stand before each part of the date, of the time and of the
offset, months to seconds may have one digit, the fraction any number of them, and the offset may
be any that is shorter than a day.
-/

namespace UtxoWallet.Timestamp

open UtxoWallet.Text

/-! ### Writing -/

/-- A year, with four digits at least. -/
def writeYear (year : Int) : List Char :=
  if year < 0 then '-' :: Decimal.pad 4 (-year).toNat
  else if 9999 < year then '+' :: Decimal.pad 4 year.toNat
  else Decimal.pad 4 year.toNat

/-- The digits of a fraction. -/
def writeFraction (nanos : Nat) : List Char :=
  if nanos = 0 then []
  else if nanos % 1000000 = 0 then '.' :: Decimal.pad 3 (nanos / 1000000)
  else if nanos % 1000 = 0 then '.' :: Decimal.pad 6 (nanos / 1000)
  else '.' :: Decimal.pad 9 nanos

/-- The text of an instant. -/
def writeChars (t : Instant) : List Char :=
  let date := Date.ofDayNumber (t.seconds / 86400)
  let time := (t.seconds % 86400).toNat
  let second := time % 60 + t.nanos / nanosPerSecond
  writeYear date.year ++ '-' :: Decimal.pad 2 date.month ++ '-' :: Decimal.pad 2 date.day ++
    'T' :: Decimal.pad 2 (time / 3600) ++ ':' :: Decimal.pad 2 (time / 60 % 60) ++
    ':' :: Decimal.pad 2 second ++ writeFraction (t.nanos % nanosPerSecond) ++ ['Z']

/-- The text of an instant. -/
def write (t : Instant) : String :=
  String.ofList (writeChars t)

/-! ### Reading

Each reader takes its part off the front of the text and gives what follows. -/

/-- The leading digits, `most` of them at most. -/
def leadingDigits (most : Nat) (s : List Char) : List Char :=
  (s.take most).takeWhile Char.isDigit

/-- Takes a number of at most `most` digits. -/
def number? (most : Nat) (s : List Char) : Option (Nat × List Char) :=
  let digits := leadingDigits most s
  if digits.isEmpty then none else some (Decimal.ofDigits digits, s.drop digits.length)

/-- Takes a year: four digits at most, or a sign and any number of digits. -/
def year? : List Char → Option (Int × List Char)
  | '-' :: s => (number? s.length s).map fun (n, s) => (-(n : Int), s)
  | '+' :: s => (number? s.length s).map fun (n, s) => ((n : Int), s)
  | s => (number? 4 s).map fun (n, s) => ((n : Int), s)

/-- Takes a mark, and the number of one or two digits that follows it. -/
def marked? (mark : Char) (s : List Char) : Option (Nat × List Char) :=
  match skipBlanks s with
  | c :: s => if c = mark then number? 2 (skipBlanks s) else none
  | [] => none

/-- Takes the separator of date and time: a letter, or a space; no other blank serves. -/
def separator? : List Char → Option (List Char)
  | 'T' :: s | 't' :: s | ' ' :: s => some s
  | _ => none

/-- Takes a fraction, if there is one; the digits after the ninth do not count. -/
def fraction? : List Char → Option (Nat × List Char)
  | '.' :: s =>
    let digits := leadingDigits 9 s
    if digits.isEmpty then none
    else some (Decimal.ofDigits digits * Nat.pow 10 (9 - digits.length), s.dropWhile Char.isDigit)
  | s => some (0, s)

/-- Takes two digits. -/
def twoDigits? : List Char → Option (Nat × List Char)
  | a :: b :: s =>
    if a.isDigit ∧ b.isDigit then some (Decimal.ofDigits [a, b], s) else none
  | _ => none

/-- Takes hours and minutes, with any colons and blanks between them; their sum in minutes. -/
def hoursAndMinutes? (s : List Char) : Option (Nat × List Char) := do
  let (hours, s) ← twoDigits? s
  let (minutes, s) ← twoDigits? (s.dropWhile fun c => c = ':' || isBlank c)
  if hours < 24 ∧ minutes < 60 then some (60 * hours + minutes, s) else none

/-- Takes the offset of the local time, in minutes. -/
def offset? : List Char → Option (Int × List Char)
  | '+' :: s => (hoursAndMinutes? s).map fun (n, s) => ((n : Int), s)
  | '-' :: s | '\u2212' :: s => (hoursAndMinutes? s).map fun (n, s) => (-(n : Int), s)
  | 'Z' :: s | 'z' :: s => some (0, s)
  | u :: t :: c :: s =>
    if u.toLower = 'u' ∧ t.toLower = 't' ∧ c.toLower = 'c' then some (0, s) else none
  | _ => none

/-- The instant that a clock shows as the given date and time, ahead by `offset` minutes. -/
def ofLocal? (date : Date) (hour minute second nanos : Nat) (offset : Int) : Option Instant :=
  if date.Exists ∧ -262143 ≤ date.year ∧ date.year ≤ 262142 ∧
      hour < 24 ∧ minute < 60 ∧ second ≤ 60 then
    -- A clock shows second 60 within a leap second, which is counted with the second before.
    let minutes := 1440 * date.dayNumber + 60 * hour + minute - offset
    if second = 60 then Instant.ofParts? (60 * minutes + 59) (nanos + nanosPerSecond)
    else Instant.ofParts? (60 * minutes + second) nanos
  else none

def readChars? (s : List Char) : Option Instant := do
  let (year, s) ← year? (skipBlanks s)
  let (month, s) ← marked? '-' s
  let (day, s) ← marked? '-' s
  let s ← separator? s
  let (hour, s) ← number? 2 (skipBlanks s)
  let (minute, s) ← marked? ':' s
  let (second, s) ← marked? ':' s
  let (nanos, s) ← fraction? s
  let (offset, s) ← offset? (skipBlanks s)
  if (skipBlanks s).isEmpty then ofLocal? ⟨year, month, day⟩ hour minute second nanos offset
  else none

def read? (text : String) : Option Instant :=
  readChars? text.toList

def ofJson? (value : Json) : Option Instant :=
  value.text?.bind read?

def toJson (t : Instant) : Json :=
  .text (write t)

end UtxoWallet.Timestamp
