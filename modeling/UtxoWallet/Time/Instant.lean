import UtxoWallet.Time.Calendar

/-!
# Instants

An instant counts seconds from 1970-01-01T00:00:00Z, with a fraction in nanoseconds. A leap second
has no number of its own: it is the second before it with a fraction of one second and more. It may
follow any second; that it ends a minute, as on a clock, is not asked. The years go from -262143 to
262142.
-/

namespace UtxoWallet

/-- The nanoseconds of a second. -/
def nanosPerSecond : Nat := 1000000000

/-- A point in time. -/
structure Instant where
  seconds : Int
  nanos : Nat
  lower : -8334601228800 ≤ seconds
  upper : seconds ≤ 8210266876799
  nanos_lt : nanos < 2 * nanosPerSecond
  deriving DecidableEq

namespace Instant

/-- The instant with the given parts, if they are in range. -/
def ofParts? (seconds : Int) (nanos : Nat) : Option Instant :=
  if h : -8334601228800 ≤ seconds ∧ seconds ≤ 8210266876799 ∧ nanos < 2 * nanosPerSecond then
    some ⟨seconds, nanos, h.1, h.2.1, h.2.2⟩
  else none

theorem ofParts?_parts (t : Instant) : ofParts? t.seconds t.nanos = some t := by
  have h := And.intro t.lower (And.intro t.upper t.nanos_lt)
  rw [ofParts?, dif_pos h]

theorem parts_of_ofParts? {seconds : Int} {nanos : Nat} {t : Instant}
    (h : ofParts? seconds nanos = some t) : t.seconds = seconds ∧ t.nanos = nanos := by
  rw [ofParts?] at h
  split at h
  · cases h
    exact ⟨rfl, rfl⟩
  · cases h

/-- The start of a second, if it is in range. -/
def ofSeconds? (seconds : Int) : Option Instant :=
  ofParts? seconds 0

/-- The last instant. -/
def latest : Instant :=
  ⟨8210266876799, 999999999, by decide, by decide, by decide⟩

/-- Is `s` before `t`? -/
def isBefore (s t : Instant) : Bool :=
  s.seconds < t.seconds || (s.seconds = t.seconds && s.nanos < t.nanos)

/-- The earlier of two instants. -/
def earlier (s t : Instant) : Instant :=
  if t.isBefore s then t else s

/-- The instant some seconds later, or the last one if there is none. From within a leap second the
count goes on at the end of it. -/
def later (t : Instant) (seconds : Nat) : Instant :=
  if seconds = 0 then t
  else (ofParts? (t.seconds + seconds) (t.nanos % nanosPerSecond)).getD latest

end Instant

end UtxoWallet
