import UtxoWallet.Time.Instant
import UtxoWallet.Update
import UtxoWallet.Wire

/-!
# Tracked transactions

A transaction is tracked from its submission until the indexer reports it. It is known by its set of
identifiers only, one for each intent. A transaction covers another if it has all of the other's
identifiers; it takes the other's place, and is not tracked beside one that covers it.
-/

namespace UtxoWallet

/-- What can be tracked. -/
class Trackable (τ : Type) where
  /-- The identifiers. -/
  ids : τ → OrderedSet String
  /-- The identifier to show for the whole. -/
  firstId? : τ → Option String
  /-- Has the time to live passed? -/
  isExpired : τ → Instant → Bool
  /-- The message of a transaction. -/
  toBytes : τ → List UInt8
  /-- Reads a message. -/
  ofBytes : List UInt8 → Except Wire.Error τ

/-- A tracked transaction, with its outcome once it is known. -/
structure Tracked (τ : Type) where
  tx : τ
  verdict : Option Verdict
  deriving DecidableEq

/-- The tracked transactions, the oldest first. -/
structure Tracker (τ : Type) where
  items : List (Tracked τ)
  deriving DecidableEq

namespace Tracker

variable {τ : Type}

def empty : Tracker τ :=
  ⟨[]⟩

instance : Inhabited (Tracker τ) := ⟨empty⟩

variable [Trackable τ]

/-- Are all identifiers of `tx` among `ids`? -/
def isWithin (tx : τ) (ids : OrderedSet String) : Bool :=
  (Trackable.ids tx).isSubset ids

/-- Has `a` all identifiers of `b`? -/
def covers (a b : τ) : Bool :=
  isWithin b (Trackable.ids a)

/-- Does a tracked transaction cover `tx`? -/
def has (tracker : Tracker τ) (tx : τ) : Bool :=
  tracker.items.any fun item => covers item.tx tx

/-- Tracks a transaction, in the place of those that it covers, unless it is covered itself. -/
def add (tracker : Tracker τ) (tx : τ) : Tracker τ :=
  if tracker.has tx then tracker
  else
    -- What covers `tx` has been ruled out, so only what it covers itself goes.
    let others := tracker.items.filter fun item => !(covers tx item.tx || covers item.tx tx)
    ⟨others ++ [⟨tx, none⟩]⟩

/-- Drops the transactions all of whose identifiers are among `ids`; no identifiers drop nothing. -/
def clearIds (tracker : Tracker τ) (ids : OrderedSet String) : Tracker τ :=
  if ids.entries.isEmpty then tracker
  else ⟨tracker.items.filter fun item => !isWithin item.tx ids⟩

/-- Drops the transactions that `tx` covers. -/
def clear (tracker : Tracker τ) (tx : τ) : Tracker τ :=
  tracker.clearIds (Trackable.ids tx)

/-- Gives an outcome to the first transaction that covers `tx`. -/
def saveVerdict (tracker : Tracker τ) (tx : τ) (verdict : Verdict) : Tracker τ :=
  let (before, rest) := tracker.items.span fun item => !covers item.tx tx
  match rest with
  | [] => tracker
  | item :: after => ⟨before ++ { item with verdict := some verdict } :: after⟩

/-- Gives an outcome to the transactions all of whose identifiers are among `ids`; no identifiers
change nothing. -/
def saveVerdictIds (tracker : Tracker τ) (ids : OrderedSet String) (verdict : Verdict) :
    Tracker τ :=
  if ids.entries.isEmpty then tracker
  else ⟨tracker.items.map fun item =>
    if isWithin item.tx ids then { item with verdict := some verdict } else item⟩

omit [Trackable τ] in
def failed (tracker : Tracker τ) : List τ :=
  (tracker.items.filter fun item => item.verdict.any (·.status = .failure)).map (·.tx)

omit [Trackable τ] in
/-- The transactions whose outcome is not known. -/
def unsettled (tracker : Tracker τ) : List τ :=
  (tracker.items.filter (·.verdict.isNone)).map (·.tx)

/-- The transactions whose outcome is not known though their time to live has passed. -/
def expired (tracker : Tracker τ) (now : Instant) : List τ :=
  tracker.unsettled.filter (Trackable.isExpired · now)

/-- Settles what an update reports: a failure is noted, any other outcome ends the tracking. -/
def settle (tracker : Tracker τ) (update : Update) : Tracker τ :=
  if update.status = .failure then tracker.saveVerdictIds update.identifiers update.verdict
  else tracker.clearIds update.identifiers

end Tracker

end UtxoWallet
