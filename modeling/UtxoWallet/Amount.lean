import UtxoWallet.Text.Decimal
import UtxoWallet.Json.Record

/-!
# Amounts

An amount is a natural number of at most 128 bits, a delta an integer that fits 128 bits in two's
complement. Their arithmetic is exact: an operation whose result does not fit has none.

Amounts travel as decimal texts, since JSON numbers do not hold them safely.
-/

namespace UtxoWallet

open UtxoWallet.Text

/-! ### Amounts -/

/-- The number of amounts: as many as 128 bits can tell apart. -/
def Amount.size : Nat := 0x100000000000000000000000000000000

/-- A quantity of some token. -/
structure Amount where
  toNat : Nat
  isLt : toNat < Amount.size
  deriving DecidableEq

namespace Amount

theorem toNat_injective {a b : Amount} (h : a.toNat = b.toNat) : a = b := by
  cases a; cases b; cases h; rfl

/-- The amount of a number, if it fits. -/
def ofNat? (n : Nat) : Option Amount :=
  if h : n < size then some ⟨n, h⟩ else none

theorem ofNat?_toNat (a : Amount) : ofNat? a.toNat = some a :=
  dif_pos a.isLt

theorem ofNat?_eq_some_iff {n : Nat} {a : Amount} : ofNat? n = some a ↔ n = a.toNat := by
  constructor
  · intro h
    unfold ofNat? at h
    split at h
    · cases h; rfl
    · cases h
  · rintro rfl
    exact ofNat?_toNat a

def zero : Amount :=
  ⟨0, by decide⟩

instance : Inhabited Amount := ⟨zero⟩

def greatest : Amount :=
  ⟨size - 1, by decide⟩

def add? (a b : Amount) : Option Amount :=
  ofNat? (a.toNat + b.toNat)

def times? (a : Amount) (count : Nat) : Option Amount :=
  ofNat? (a.toNat * count)

/-- The sum, or the greatest amount if that is less. -/
def addSaturating (a b : Amount) : Amount :=
  (a.add? b).getD greatest

/-- What is left of `a` after taking `b`, nothing if `b` is more. -/
def minus (a b : Amount) : Amount :=
  ⟨a.toNat - b.toNat, Nat.lt_of_le_of_lt (Nat.sub_le _ _) a.isLt⟩

def read? (text : String) : Option Amount :=
  (Decimal.read? text.toList).bind ofNat?

def write (a : Amount) : String :=
  Decimal.write a.toNat

theorem read?_write (a : Amount) : read? a.write = some a := by
  simp [read?, write, Decimal.write, Decimal.read?_digits, ofNat?_toNat]

def ofJson? (value : Json) : Option Amount :=
  value.text?.bind read?

def toJson (a : Amount) : Json :=
  .text a.write

theorem ofJson?_toJson (a : Amount) : ofJson? a.toJson = some a :=
  read?_write a

end Amount

/-! ### Deltas -/

/-- What no delta reaches; the least delta is its negation. -/
def Delta.bound : Int := 0x80000000000000000000000000000000

/-- A signed difference of amounts. -/
structure Delta where
  toInt : Int
  lower : -Delta.bound ≤ toInt
  upper : toInt < Delta.bound
  deriving DecidableEq

namespace Delta

/-- The delta of an integer, if it fits. -/
def ofInt? (n : Int) : Option Delta :=
  if h : -bound ≤ n ∧ n < bound then some ⟨n, h.1, h.2⟩ else none

def zero : Delta :=
  ⟨0, by decide, by decide⟩

instance : Inhabited Delta := ⟨zero⟩

/-- By how much the delta exceeds zero. -/
def surplus (d : Delta) : Amount :=
  ⟨d.toInt.toNat, by have := d.upper; unfold bound at this; unfold Amount.size; omega⟩

/-- By how much the delta falls short of zero. -/
def deficit (d : Delta) : Amount :=
  ⟨(-d.toInt).toNat, by have := d.lower; unfold bound at this; unfold Amount.size; omega⟩

def write (d : Delta) : String :=
  Decimal.writeInt d.toInt

end Delta

end UtxoWallet
