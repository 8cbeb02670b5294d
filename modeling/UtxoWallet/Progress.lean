import UtxoWallet.Update

/-!
# The progress of synchronisation

The wallet remembers the last transaction it has taken in, the last one that it knows to exist, and
whether the stream of the indexer is up.
-/

namespace UtxoWallet

/-- How far the wallet follows the chain. -/
structure Progress where
  /-- The greatest id that has been taken in, none before the first. -/
  applied : Option UInt64
  /-- The greatest id that is known. -/
  highest : UInt64
  connected : Bool
  deriving DecidableEq

namespace Progress

/-- The progress of a wallet that is taken up again. -/
def restored (applied : Option UInt64) : Progress :=
  ⟨applied, applied.getD 0, false⟩

/-- Nothing taken in and nothing known. -/
def initial : Progress :=
  restored none

instance : Inhabited Progress := ⟨initial⟩

/-- Is the stream up, and are at most `gap` ids outstanding? -/
def isSynced (progress : Progress) (gap : UInt64) : Bool :=
  progress.connected && progress.highest.toNat - (progress.applied.getD 0).toNat ≤ gap.toNat

/-- The first id that a new subscription should deliver. -/
def resumeFrom (progress : Progress) : Option UInt64 :=
  progress.applied.map fun id => if id.toNat + 1 < UInt64.size then id + 1 else id

/-- Takes a sign of life of the indexer in. -/
def advance (progress : Progress) (highest : UInt64) : Progress :=
  { progress with highest := max progress.highest highest, connected := true }

/-- Takes the id of a settled transaction in. -/
def record (progress : Progress) (id : UInt64) : Progress :=
  let applied := (progress.applied.map (max · id)).getD id
  { progress with applied := some applied, highest := max progress.highest applied }

/-- The stream is down. -/
def disconnect (progress : Progress) : Progress :=
  { progress with connected := false }

end Progress

end UtxoWallet
