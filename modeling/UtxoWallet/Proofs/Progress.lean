import UtxoWallet.Progress

/-! # Reports and the progress

A report of the indexer only ever raises what is known (`Progress.behind_take`). So it does not matter in
which order reports come in, nor how often: `Progress.take_comm` and `Progress.take_self`.

As long as nothing is taken in beyond what is known (`Progress.Ordered`), the two ids of the progress
grow independently of each other (`Progress.Ordered.highest_record`), and their difference is computed without
saturation (`Progress.Ordered.isSynced_iff`).
-/

namespace UtxoWallet

/-! ## The greater of two ids -/

theorem toNat_max (a b : UInt64) : (max a b).toNat = max a.toNat b.toNat := by
  rw [show max a b = if a ≤ b then b else a from rfl, Nat.max_def]
  split
  · next h => rw [if_pos (UInt64.le_iff_toNat_le.mp h)]
  · next h => rw [if_neg (mt UInt64.le_iff_toNat_le.mpr h)]

theorem le_max_first (a b : UInt64) : a ≤ max a b := by
  rw [UInt64.le_iff_toNat_le, toNat_max]
  exact Nat.le_max_left _ _

theorem le_max_second (a b : UInt64) : b ≤ max a b := by
  rw [UInt64.le_iff_toNat_le, toNat_max]
  exact Nat.le_max_right _ _

instance maxAssociative : Std.Associative (max : UInt64 → UInt64 → UInt64) where
  assoc a b c := UInt64.toNat_inj.mp (by simp only [toNat_max, Nat.max_assoc])

instance maxCommutative : Std.Commutative (max : UInt64 → UInt64 → UInt64) where
  comm a b := UInt64.toNat_inj.mp (by simp only [toNat_max, Nat.max_comm])

instance maxIdempotentOp : Std.IdempotentOp (max : UInt64 → UInt64 → UInt64) where
  idempotent a := UInt64.toNat_inj.mp (by simp only [toNat_max, Nat.max_self])

/-! ## The latest of some ids -/

/-- The latest of some ids is one of them that none of them exceeds; there is none iff none are
given. -/
def IsLatest (ids : List UInt64) : Option UInt64 → Prop
  | none => ids = []
  | some id => id ∈ ids ∧ ∀ other ∈ ids, other ≤ id

/-- With one id more, the latest is the greater of that id and the latest so far. -/
theorem IsLatest.concat {ids : List UInt64} {latest : Option UInt64} (h : IsLatest ids latest)
    (last : UInt64) : IsLatest (ids ++ [last]) (some ((latest.map (max · last)).getD last)) := by
  cases latest with
  | none =>
      obtain rfl : ids = [] := h
      exact ⟨List.mem_singleton_self last, by simp⟩
  | some best =>
      obtain ⟨hmem, hbest⟩ := h
      show max best last ∈ ids ++ [last] ∧ ∀ other ∈ ids ++ [last], other ≤ max best last
      refine ⟨?_, fun other hother => ?_⟩
      · rw [show max best last = if best ≤ last then last else best from rfl]
        split
        · exact List.mem_append_right ids (List.mem_singleton_self last)
        · exact List.mem_append_left [last] hmem
      · rcases List.mem_append.mp hother with hother | hother
        · exact UInt64.le_trans (hbest other hother) (le_max_first best last)
        · rw [List.mem_singleton.mp hother]
          exact le_max_second best last

/-! ## Reports -/

namespace Progress

variable (progress : Progress)

theorem advance_comm (m n : UInt64) :
    (progress.advance m).advance n = (progress.advance n).advance m := by
  simp only [advance, mk.injEq, and_true, true_and]
  ac_rfl

theorem advance_self (m : UInt64) : (progress.advance m).advance m = progress.advance m := by
  grind [advance]

theorem record_advance (m id : UInt64) :
    (progress.advance m).record id = (progress.record id).advance m := by
  simp only [advance, record, mk.injEq, and_true, true_and]
  ac_rfl

/-- The order in which two transactions are taken in does not show. -/
theorem record_comm (id other : UInt64) :
    (progress.record id).record other = (progress.record other).record id := by
  simp only [record, mk.injEq, and_true]
  cases progress.applied <;> grind

theorem record_self (id : UInt64) : (progress.record id).record id = progress.record id := by
  simp only [record, mk.injEq, and_true]
  cases progress.applied <;> grind

theorem disconnect_of_down {progress : Progress} (h : ¬ progress.connected) :
    progress.disconnect = progress := by
  obtain ⟨applied, highest, connected⟩ := progress
  obtain rfl : connected = false := eq_false_of_ne_true h
  rfl

/-- Takes a report of the indexer in. -/
def take (progress : Progress) : Notice → Progress
  | .progress highest => progress.advance highest
  | .transaction update => progress.record update.id

/-- Reports may come in any order, as far as the progress goes. -/
theorem take_comm (s t : Notice) :
    (progress.take s).take t = (progress.take t).take s := by
  cases s with
  | progress m =>
      cases t with
      | progress n => exact progress.advance_comm m n
      | transaction update => exact progress.record_advance m update.id
  | transaction update =>
      cases t with
      | progress n => exact (progress.record_advance n update.id).symm
      | transaction other => exact progress.record_comm update.id other.id

/-- Nor does it matter if one is delivered twice. -/
theorem take_self (notice : Notice) : (progress.take notice).take notice = progress.take notice := by
  cases notice with
  | progress m => exact progress.advance_self m
  | transaction update => exact progress.record_self update.id

/-! ## The two ids -/

/-- From one progress to the other, no id has gone down or been lost. -/
structure Behind (before after : Progress) : Prop where
  applied : ∀ id, before.applied = some id → ∃ later, after.applied = some later ∧ id ≤ later
  highest : before.highest ≤ after.highest

theorem behind_of_ids {before after : Progress} (applied : after.applied = before.applied)
    (highest : before.highest ≤ after.highest) : before.Behind after :=
  ⟨fun id h => ⟨id, applied.trans h, UInt64.le_refl id⟩, highest⟩

/-- A report never sets the progress back. -/
theorem behind_take (notice : Notice) : progress.Behind (progress.take notice) := by
  cases notice with
  | progress marker =>
      apply behind_of_ids
      · rfl
      · exact le_max_first progress.highest marker
  | transaction update =>
      constructor
      · intro id h
        exact ⟨max id update.id, by simp [take, record, h], le_max_first id update.id⟩
      · exact le_max_first progress.highest _

/-- Nothing is taken in beyond what is known. -/
def Ordered : Prop :=
  ∀ id, progress.applied = some id → id ≤ progress.highest

variable {progress}

/-- An id that is taken in is known from then on; the one that was taken in before is known already. -/
theorem Ordered.highest_record (h : progress.Ordered) (id : UInt64) :
    (progress.record id).highest = max progress.highest id := by
  show max progress.highest ((progress.applied.map (max · id)).getD id) = max progress.highest id
  cases happlied : progress.applied with
  | none => rfl
  | some applied =>
      have hle := UInt64.le_iff_toNat_le.mp (h applied happlied)
      refine UInt64.toNat_inj.mp ?_
      simp only [Option.map_some, Option.getD_some, toNat_max]
      omega

/-- How many ids are outstanding: the difference does not saturate. -/
theorem Ordered.isSynced_iff (h : progress.Ordered) (gap : UInt64) :
    progress.isSynced gap ↔ progress.connected ∧ ∃ outstanding ≤ gap.toNat,
      (progress.applied.getD 0).toNat + outstanding = progress.highest.toNat := by
  have hle : (progress.applied.getD 0).toNat ≤ progress.highest.toNat := by
    cases happlied : progress.applied with
    | none => exact Nat.zero_le _
    | some applied => exact UInt64.le_iff_toNat_le.mp (h applied happlied)
  rw [isSynced, Bool.and_eq_true, decide_eq_true_iff]
  refine and_congr_right fun _ => ⟨fun hgap => ⟨_, hgap, by omega⟩, ?_⟩
  rintro ⟨outstanding, hgap, hsum⟩
  omega

end Progress

end UtxoWallet
