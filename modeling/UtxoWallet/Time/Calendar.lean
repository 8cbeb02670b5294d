/-!
# The Gregorian calendar

Days are numbered from 1970-01-01. The calendar repeats after 400 years, which have 146097 days.
Inside such a cycle years and months are counted from March, so that a leap day ends its year and
the months before a given one have the same length in every year.

`Date.ofDayNumber` gives a date that exists, and it is the date with that number
(`Date.dayNumber_ofDayNumber`).
-/

namespace UtxoWallet

/-- A day of the calendar. -/
structure Date where
  year : Int
  month : Nat
  day : Nat
  deriving DecidableEq

namespace Date

/-- Has the year a 29th of February? -/
def isLeapYear (year : Int) : Bool :=
  year % 4 = 0 && (year % 100 ≠ 0 || year % 400 = 0)

/-- The number of days of a month. -/
def daysInMonth (year : Int) (month : Nat) : Nat :=
  if month = 2 then if isLeapYear year then 29 else 28
  else if month = 4 ∨ month = 6 ∨ month = 9 ∨ month = 11 then 30
  else 31

/-- Does the date exist? -/
def Exists (date : Date) : Prop :=
  (1 ≤ date.month ∧ date.month ≤ 12) ∧
    1 ≤ date.day ∧ date.day ≤ daysInMonth date.year date.month

instance (date : Date) : Decidable date.Exists :=
  inferInstanceAs (Decidable (_ ∧ _))

/-! ### Inside a cycle of 400 years, counted from March -/

/-- The days of a cycle. -/
def daysInCycle : Nat := 146097

/-- The days of a cycle before a year of it. -/
def daysBeforeYear (year : Nat) : Nat :=
  365 * year + year / 4 - year / 100

/-- The days of a year before a month of it. -/
def daysBeforeMonth (month : Nat) : Nat :=
  (153 * month + 2) / 5

/-- The year that a day of a cycle falls into. A century has 36524 days but for the last, which has
one more; inside it four years have 1461, the last of them again one more than the others. -/
def yearOfDay (day : Nat) : Nat :=
  let century := min (day / 36524) 3
  let dayOfCentury := day - 36524 * century
  100 * century + 4 * (dayOfCentury / 1461) + min (dayOfCentury % 1461 / 365) 3

/-- The month that a day of a year falls into. -/
def monthOfDay (day : Nat) : Nat :=
  (5 * day + 2) / 153

/-! ### Day numbers -/

/-- The days from the start of the cycle of the year 0 to 1970-01-01. -/
def daysBeforeEpoch : Int := 719468

/-- The number of a date. -/
def dayNumber (date : Date) : Int :=
  let year := if date.month ≤ 2 then date.year - 1 else date.year
  let month := (date.month + 9) % 12
  let day := daysBeforeYear (year % 400).toNat + daysBeforeMonth month + (date.day - 1)
  year / 400 * daysInCycle + day - daysBeforeEpoch

/-- The date with a number. -/
def ofDayNumber (n : Int) : Date :=
  let cycle := (n + daysBeforeEpoch) / daysInCycle
  let dayOfCycle := ((n + daysBeforeEpoch) % daysInCycle).toNat
  let yearOfCycle := yearOfDay dayOfCycle
  let dayOfYear := dayOfCycle - daysBeforeYear yearOfCycle
  let monthOfYear := monthOfDay dayOfYear
  let month := if monthOfYear < 10 then monthOfYear + 3 else monthOfYear - 9
  let year := 400 * cycle + yearOfCycle
  { year := if month ≤ 2 then year + 1 else year
    month
    day := dayOfYear - daysBeforeMonth monthOfYear + 1 }

/-! ### Dates and numbers agree -/

/-- The year that a day falls into begins on it or before, less than 366 days; only a leap year, in
the count of its February, has a day 365. -/
theorem yearOfDay_bounds {day : Nat} (h : day < daysInCycle) :
    yearOfDay day < 400 ∧ daysBeforeYear (yearOfDay day) ≤ day ∧
      day < daysBeforeYear (yearOfDay day) + 366 ∧
      (day = daysBeforeYear (yearOfDay day) + 365 →
        (yearOfDay day + 1) % 4 = 0 ∧ ((yearOfDay day + 1) % 100 = 0 → yearOfDay day = 399)) := by
  unfold daysInCycle at h
  unfold daysBeforeYear yearOfDay
  dsimp only
  -- Century, four years and year are named one after the other, so that each step is linear.
  generalize hc : min (day / 36524) 3 = c
  generalize hr : day - 36524 * c = r
  have hc3 : c ≤ 3 := by omega
  have hday : day = 36524 * c + r := by omega
  have hr1 : r ≤ 36524 := by omega
  have hr2 : c < 3 → r < 36524 := by omega
  clear hr hc
  generalize hq : r / 1461 = q
  generalize ht : r % 1461 = t
  have hrq : r = 1461 * q + t := by omega
  have htl : t ≤ 1460 := by omega
  have hq24 : q ≤ 24 := by omega
  generalize hy : min (t / 365) 3 = y
  have hy3 : y ≤ 3 := by omega
  have hty : 365 * y ≤ t ∧ t < 365 * y + 366 := by omega
  have hlast : t = 365 * y + 365 → y = 3 := by omega
  have h4 : (100 * c + 4 * q + y) / 4 = 25 * c + q := by omega
  have h100 : (100 * c + 4 * q + y) / 100 = c := by omega
  rw [h4, h100]
  omega

theorem monthOfDay_bounds {day : Nat} (h : day < 366) :
    monthOfDay day < 12 ∧ daysBeforeMonth (monthOfDay day) ≤ day := by
  unfold monthOfDay daysBeforeMonth
  omega

/-- The date with a number has that number. -/
theorem dayNumber_ofDayNumber (n : Int) : (ofDayNumber n).dayNumber = n := by
  unfold ofDayNumber
  dsimp only
  generalize hk : n + daysBeforeEpoch = k
  have hcycle : k = k / daysInCycle * daysInCycle + ((k % daysInCycle).toNat : Int) := by
    unfold daysInCycle; omega
  have hlt : (k % daysInCycle).toNat < daysInCycle := by unfold daysInCycle; omega
  generalize (k % daysInCycle).toNat = day at *
  generalize k / daysInCycle = cycle at *
  obtain ⟨hy, hle, hlt', -⟩ := yearOfDay_bounds hlt
  generalize yearOfDay day = year at *
  have hday : day - daysBeforeYear year < 366 := by omega
  obtain ⟨hm, hmle⟩ := monthOfDay_bounds hday
  generalize monthOfDay (day - daysBeforeYear year) = month at *
  unfold dayNumber
  dsimp only
  have hmonth : ((if month < 10 then month + 3 else month - 9) + 9) % 12 = month := by
    split <;> omega
  have hyear : ∀ b : Prop, [Decidable b] →
      (if b then (if b then 400 * cycle + (year : Int) + 1 else 400 * cycle + year) - 1
        else (if b then 400 * cycle + (year : Int) + 1 else 400 * cycle + year)) =
      400 * cycle + year := by
    intro b _; split <;> omega
  rw [hmonth, hyear]
  have h1 : ((400 * cycle + (year : Int)) % 400).toNat = year := by omega
  have h2 : (400 * cycle + (year : Int)) / 400 = cycle := by omega
  rw [h1, h2]
  generalize daysBeforeYear year = a at *
  generalize daysBeforeMonth month = b at *
  generalize (daysInCycle : Int) = p at *
  generalize cycle * p = q at *
  omega

/-- Every number has a date that exists. -/
theorem exists_ofDayNumber (n : Int) : (ofDayNumber n).Exists := by
  unfold ofDayNumber Exists
  dsimp only
  generalize hk : n + daysBeforeEpoch = k
  have hlt : (k % daysInCycle).toNat < daysInCycle := by unfold daysInCycle; omega
  generalize (k % daysInCycle).toNat = day at *
  generalize k / daysInCycle = cycle at *
  obtain ⟨hy, hle, hlt', hleap⟩ := yearOfDay_bounds hlt
  generalize yearOfDay day = year at *
  have hday : day - daysBeforeYear year < 366 := by omega
  have hday' : day - daysBeforeYear year = 365 → (year + 1) % 4 = 0 ∧
      ((year + 1) % 100 = 0 → year = 399) := fun h => hleap (by omega)
  generalize day - daysBeforeYear year = d at *
  obtain ⟨hm, hmle⟩ := monthOfDay_bounds hday
  have hm' : monthOfDay d = (5 * d + 2) / 153 := rfl
  generalize monthOfDay d = month at *
  unfold daysBeforeMonth at *
  unfold daysInMonth isLeapYear
  refine ⟨by split <;> omega, by omega, ?_⟩
  have leap : d = 365 → ((400 * cycle + (year : Int) + 1) % 4 = 0 ∧
      ((400 * cycle + (year : Int) + 1) % 100 ≠ 0 ∨ (400 * cycle + (year : Int) + 1) % 400 = 0)) := by
    intro h
    obtain ⟨a, b⟩ := hday' h
    omega
  have cases : month = 0 ∨ month = 1 ∨ month = 2 ∨ month = 3 ∨ month = 4 ∨ month = 5 ∨ month = 6 ∨
      month = 7 ∨ month = 8 ∨ month = 9 ∨ month = 10 ∨ month = 11 := by omega
  rcases cases with h | h | h | h | h | h | h | h | h | h | h | h <;> subst h <;> simp <;> try omega
  split
  · omega
  · next h =>
    have : d ≠ 365 := fun e => by
      obtain ⟨a, b⟩ := leap e
      omega
    omega
end Date

end UtxoWallet
