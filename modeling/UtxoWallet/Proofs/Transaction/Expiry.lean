import Mathlib.Data.List.Induction
import UtxoWallet.Transaction

/-! # When a transaction expires

A transaction expires with the first of its intents. An intent whose time to live is out of the range
of instants does not count.

* `Instant.earliest?_eq_some_iff`: the earliest of some instants is one of them that none is before.
* `Transaction.isExpired_iff`: so a transaction has expired iff that instant is in the past.
-/

namespace UtxoWallet

namespace Instant

variable {s t u : Instant}

theorem isBefore_iff :
    s.isBefore t ↔ s.seconds < t.seconds ∨ s.seconds = t.seconds ∧ s.nanos < t.nanos := by
  simp [isBefore]

theorem not_isBefore_self (t : Instant) : ¬ t.isBefore t := by
  rw [isBefore_iff]
  omega

theorem isBefore_trans (hst : s.isBefore t) (htu : t.isBefore u) : s.isBefore u := by
  rw [isBefore_iff] at *
  omega

/-- Of two instants, one is before the other unless they are the same. -/
theorem eq_of_not_isBefore (hst : ¬ s.isBefore t) (hts : ¬ t.isBefore s) : s = t := by
  rw [isBefore_iff] at hst hts
  have hseconds : s.seconds = t.seconds := by omega
  have hnanos : s.nanos = t.nanos := by omega
  cases s
  cases t
  simp_all

/-! ## The earliest of some instants -/

/-- The instant is one of those given, and none of them is before it. -/
def IsEarliest (instants : List Instant) (t : Instant) : Prop :=
  t ∈ instants ∧ ∀ other ∈ instants, ¬ other.isBefore t

/-- There is one earliest instant at most. -/
theorem IsEarliest.unique {instants : List Instant} (hs : IsEarliest instants s)
    (ht : IsEarliest instants t) : s = t :=
  eq_of_not_isBefore (ht.2 s hs.1) (hs.2 t ht.1)

/-- The earliest of some instants, if there are any. -/
def earliest? (instants : List Instant) : Option Instant :=
  instants.foldl (fun earliest t => some ((earliest.map (earlier · t)).getD t)) none

theorem earliest?_concat (instants : List Instant) (last : Instant) :
    earliest? (instants ++ [last]) =
      some (((earliest? instants).map (earlier · last)).getD last) := by
  rw [earliest?, List.foldl_append]
  rfl

/-- Some instants have an earliest, and the fold finds it. -/
theorem exists_earliest? {instants : List Instant} (some : instants ≠ []) :
    ∃ t, earliest? instants = .some t ∧ IsEarliest instants t := by
  induction instants using List.reverseRecOn with
  | nil => exact absurd rfl some
  | append_singleton instants last ih =>
      rw [earliest?_concat]
      by_cases first : instants = []
      · rw [first]
        exact ⟨last, rfl, List.mem_singleton_self _, by simpa using not_isBefore_self last⟩
      · obtain ⟨best, hbest, hmem, hleast⟩ := ih first
        rw [hbest]
        refine ⟨best.earlier last, rfl, ?_⟩
        simp only [IsEarliest, List.mem_append, List.mem_singleton]
        rw [earlier]
        split
        · -- The last instant is before the best so far, so it is before all the others.
          next hlast =>
            refine ⟨.inr rfl, fun other hother hbefore => ?_⟩
            rcases hother with hother | rfl
            · exact hleast other hother (isBefore_trans hbefore hlast)
            · exact not_isBefore_self _ hbefore
        · next hlast =>
            refine ⟨.inl hmem, fun other hother => ?_⟩
            rcases hother with hother | rfl
            · exact hleast other hother
            · exact hlast

/-- The fold gives the earliest instant. -/
theorem earliest?_eq_some_iff {instants : List Instant} :
    earliest? instants = some t ↔ IsEarliest instants t := by
  have found : ∀ {t}, t ∈ instants ∨ earliest? instants = some t → instants ≠ [] := by
    rintro t (hmem | hsome) rfl
    · cases hmem
    · cases hsome
  constructor
  · intro hsome
    obtain ⟨first, hfirst, hearliest⟩ := exists_earliest? (found (.inr hsome))
    rw [hfirst, Option.some_inj] at hsome
    rwa [← hsome]
  · intro hearliest
    obtain ⟨first, hfirst, hearliest'⟩ := exists_earliest? (found (.inl hearliest.1))
    rw [hfirst, hearliest'.unique hearliest]

/-- Which of some instants is the earliest does not hang on their order, nor on repetitions. -/
theorem earliest?_congr {l m : List Instant} (h : ∀ t, t ∈ l ↔ t ∈ m) :
    earliest? l = earliest? m := by
  refine Option.ext fun t => ?_
  simp only [earliest?_eq_some_iff, IsEarliest, h]

theorem earlier_assoc (s t u : Instant) : (s.earlier t).earlier u = s.earlier (t.earlier u) := by
  simp only [earlier, isBefore_iff]
  grind

/-- Of two groups of instants the earlier first one counts. -/
theorem earliest?_append (l m : List Instant) :
    earliest? (l ++ m) = Option.merge earlier (earliest? l) (earliest? m) := by
  induction m using List.reverseRecOn with
  | nil =>
      rw [List.append_nil]
      cases earliest? l <;> rfl
  | append_singleton m last ih =>
      rw [← List.append_assoc, earliest?_concat, earliest?_concat, ih]
      cases earliest? l with
      | none => cases earliest? m <;> rfl
      | some s =>
          cases earliest? m with
          | none => rfl
          | some t => exact congrArg some (earlier_assoc s t last)

end Instant

/-! ## Transactions -/

/-- The times to live of the intents, as far as they are instants. -/
def Transaction.expiries (tx : Transaction) : List Instant :=
  tx.intents.values.filterMap Intent.expiry?

/-- The instant is the earliest time to live of the transaction. -/
def Transaction.ExpiresAt (tx : Transaction) (ttl : Instant) : Prop :=
  Instant.IsEarliest tx.expiries ttl

/-- A transaction expires at the earliest time to live of its intents that is an instant at all. -/
theorem Transaction.expiry?_eq_some_iff {tx : Transaction} {ttl : Instant} :
    tx.expiry? = some ttl ↔ tx.ExpiresAt ttl :=
  Instant.earliest?_eq_some_iff

/-- It has expired if that time has passed. -/
theorem Transaction.isExpired_iff {tx : Transaction} {now : Instant} :
    tx.isExpired now ↔ ∃ ttl, tx.ExpiresAt ttl ∧ ttl.isBefore now := by
  simp only [isExpired, Option.any_eq_true, ← expiry?_eq_some_iff]

end UtxoWallet
