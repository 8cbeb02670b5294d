import Mathlib.Data.List.TakeDrop
import UtxoWallet.Tracker

/-! # Runs of a tracker

Transactions are added to a tracker, dropped from it, and given outcomes, in any order. What the steps
have in common is said through `covers`, which is a preorder on the transactions: what a tracker has
is what one of its transactions covers.

* `Tracker.has_add_iff`, `Tracker.has_clearIds`: what a tracker has after a step.
* `Tracker.txs_saveVerdict`, `Tracker.txs_saveVerdictIds`: an outcome leaves the transactions as they
  are.
* `Tracker.clear_add`: to add a transaction and to drop it again leaves no trace of it.
* `Tracker.items_clearAll`: several transactions are dropped together, whatever their order.
-/

namespace UtxoWallet

namespace Tracker

variable {τ : Type} [Trackable τ]

/-! ## Covering -/

@[simp] theorem covers_refl (tx : τ) : covers tx tx :=
  OrderedSet.isSubset_refl _

theorem isWithin_of_covers {a b : τ} {ids : OrderedSet String} (hab : covers a b)
    (ha : isWithin a ids) : isWithin b ids :=
  OrderedSet.isSubset_trans hab ha

/-- Covering is transitive. -/
theorem covers_trans {a b c : τ} (hab : covers a b) (hbc : covers b c) : covers a c :=
  isWithin_of_covers hbc hab

/-- A transaction is tracked if some item covers it. -/
theorem has_iff {tracker : Tracker τ} {tx : τ} :
    tracker.has tx ↔ ∃ item ∈ tracker.items, covers item.tx tx :=
  List.any_eq_true

/-! ## Steps -/

/-- What a tracker can be asked for, with whatever arguments. -/
inductive Step (τ : Type) where
  | add (tx : τ)
  | clear (tx : τ)
  | clearIds (ids : OrderedSet String)
  | saveVerdict (tx : τ) (verdict : Verdict)
  | saveVerdictIds (ids : OrderedSet String) (verdict : Verdict)

/-- The tracker after a step. -/
def perform (tracker : Tracker τ) : Step τ → Tracker τ
  | .add tx => tracker.add tx
  | .clear tx => tracker.clear tx
  | .clearIds ids => tracker.clearIds ids
  | .saveVerdict tx verdict => tracker.saveVerdict tx verdict
  | .saveVerdictIds ids verdict => tracker.saveVerdictIds ids verdict

/-- The tracker after some steps. -/
def after (tracker : Tracker τ) (steps : List (Step τ)) : Tracker τ :=
  steps.foldl perform tracker

theorem after_append (tracker : Tracker τ) (l r : List (Step τ)) :
    tracker.after (l ++ r) = (tracker.after l).after r :=
  List.foldl_append

/-! ## Adding -/

theorem add_of_has {tracker : Tracker τ} {tx : τ} (h : tracker.has tx) : tracker.add tx = tracker :=
  if_pos h

/-- A transaction that nothing covers takes the place of those that it covers. -/
theorem items_add {tracker : Tracker τ} {tx : τ} (h : ¬ tracker.has tx) :
    (tracker.add tx).items =
      (tracker.items.filter fun item => !covers tx item.tx) ++ [⟨tx, none⟩] := by
  rw [add, if_neg h]
  refine congrArg (· ++ _) (List.filter_congr fun item hmem => ?_)
  have uncovered : covers item.tx tx = false := by
    rw [← Bool.not_eq_true]
    exact fun hcovers => h (has_iff.mpr ⟨item, hmem, hcovers⟩)
  rw [uncovered, Bool.or_false]

/-- Whatever is replaced by a transaction is covered by it. -/
theorem has_add_iff {tracker : Tracker τ} {tx other : τ} :
    (tracker.add tx).has other ↔ tracker.has other ∨ covers tx other := by
  by_cases h : tracker.has tx
  · obtain ⟨item, hmem, hitem⟩ := has_iff.mp h
    rw [add_of_has h]
    constructor
    · exact .inl
    · rintro (hother | hother)
      · exact hother
      · exact has_iff.mpr ⟨item, hmem, covers_trans hitem hother⟩
  · simp only [has_iff, items_add h, List.mem_append, List.mem_filter, List.mem_singleton]
    constructor
    · rintro ⟨item, ⟨hmem, -⟩ | rfl, hother⟩
      · exact .inl ⟨item, hmem, hother⟩
      · exact .inr hother
    · rintro (⟨item, hmem, hother⟩ | hother)
      · -- What an item covers is covered by whatever takes its place.
        by_cases replaced : covers tx item.tx
        · exact ⟨_, .inr rfl, covers_trans replaced hother⟩
        · exact ⟨item, .inl ⟨hmem, by simpa using replaced⟩, hother⟩
      · exact ⟨_, .inr rfl, hother⟩

/-! ## Dropping -/

theorem items_clearIds_sublist (tracker : Tracker τ) (ids : OrderedSet String) :
    (tracker.clearIds ids).items.Sublist tracker.items := by
  rw [clearIds]
  split
  · exact .refl _
  · exact List.filter_sublist

/-- What covers a transaction is dropped with all its identifiers, those of the transaction among
them. -/
theorem has_clearIds {tracker : Tracker τ} {ids : OrderedSet String} {tx : τ} (h : tracker.has tx)
    (outside : ¬ isWithin tx ids) : (tracker.clearIds ids).has tx := by
  rw [clearIds]
  split
  · exact h
  · obtain ⟨item, hmem, hitem⟩ := has_iff.mp h
    have stays : ¬ isWithin item.tx ids := fun hwithin => outside (isWithin_of_covers hitem hwithin)
    exact has_iff.mpr ⟨item, List.mem_filter.mpr ⟨hmem, by simpa using stays⟩, hitem⟩

theorem clear_eq_filter {tracker : Tracker τ} {tx : τ} (h : ¬ (Trackable.ids tx).entries.isEmpty) :
    tracker.clear tx = ⟨tracker.items.filter fun item => !covers tx item.tx⟩ := by
  rw [clear, clearIds, if_neg h]
  rfl

/-- Is the second transaction dropped when the first is cleared? One without identifiers drops nothing. -/
def drops (tx other : τ) : Bool :=
  !(Trackable.ids tx).entries.isEmpty && covers tx other

/-- Clearing a transaction drops what it covers; one without identifiers drops nothing. -/
theorem drops_iff {tx other : τ} :
    drops tx other ↔ ¬ (Trackable.ids tx).entries.isEmpty ∧ covers tx other := by
  rw [drops, Bool.and_eq_true, Bool.not_eq_true', Bool.not_eq_true]

theorem items_clear (tracker : Tracker τ) (tx : τ) :
    (tracker.clear tx).items = tracker.items.filter fun item => !drops tx item.tx := by
  by_cases h : (Trackable.ids tx).entries.isEmpty
  · have kept : ∀ item ∈ tracker.items, !drops tx item.tx := by simp [drops, h]
    rw [clear, clearIds, if_pos h, List.filter_eq_self.mpr kept]
  · simp [clear_eq_filter, drops, h]

/-- To clear several transactions is to drop what any of them drops. -/
theorem items_clearAll (tracker : Tracker τ) (txs : List τ) :
    (txs.foldl clear tracker).items =
      tracker.items.filter fun item => !txs.any (drops · item.tx) := by
  induction txs generalizing tracker with
  | nil => exact (List.filter_eq_self.mpr fun _ _ => rfl).symm
  | cons tx txs ih =>
      rw [List.foldl_cons, ih, items_clear, List.filter_filter]
      refine List.filter_congr fun item _ => ?_
      rw [List.any_cons, Bool.not_or, Bool.and_comm]

/-- Which transactions are cleared matters, but not how often or in what order. -/
theorem clearAll_congr {l r : List τ} (same : ∀ tx, tx ∈ l ↔ tx ∈ r) (tracker : Tracker τ) :
    l.foldl clear tracker = r.foldl clear tracker := by
  have items : (l.foldl clear tracker).items = (r.foldl clear tracker).items := by
    rw [items_clearAll, items_clearAll]
    refine List.filter_congr fun item _ => congrArg (!·) ?_
    rw [Bool.eq_iff_iff, List.any_eq_true, List.any_eq_true]
    simp only [same]
  exact congrArg Tracker.mk items

/-- The transaction goes, and with it all that it covers, whatever stood in for it. -/
theorem clear_add {tracker : Tracker τ} {tx : τ} (h : ¬ (Trackable.ids tx).entries.isEmpty) :
    (tracker.add tx).clear tx = tracker.clear tx := by
  by_cases hhas : tracker.has tx
  · rw [add_of_has hhas]
  · rw [clear_eq_filter h, clear_eq_filter h, items_add hhas]
    simp

/-! ## Outcomes -/

/-- The tracked transactions. -/
def txs (tracker : Tracker τ) : List τ :=
  tracker.items.map (·.tx)

theorem txs_saveVerdict (tracker : Tracker τ) (tx : τ) (verdict : Verdict) :
    (tracker.saveVerdict tx verdict).txs = tracker.txs := by
  rw [saveVerdict, List.span_eq_takeWhile_dropWhile]
  dsimp only
  split
  · rfl
  · next item after hrest =>
      have joined := congrArg (List.map (·.tx)) (List.takeWhile_append_dropWhile
        (p := fun item : Tracked τ => !covers item.tx tx) (l := tracker.items))
      rw [hrest] at joined
      rw [txs, txs, ← joined]
      simp

theorem txs_saveVerdictIds (tracker : Tracker τ) (ids : OrderedSet String) (verdict : Verdict) :
    (tracker.saveVerdictIds ids verdict).txs = tracker.txs := by
  rw [saveVerdictIds]
  split
  · rfl
  · rw [txs, txs, List.map_map]
    refine List.map_congr_left fun item _ => ?_
    rw [Function.comp_apply]
    split <;> rfl

theorem has_eq_of_txs {l r : Tracker τ} (h : l.txs = r.txs) (tx : τ) : l.has tx = r.has tx := by
  have byTxs : ∀ tracker : Tracker τ, tracker.has tx = tracker.txs.any (covers · tx) := by
    intro tracker
    rw [has, txs, List.any_map]
    rfl
  rw [byTxs, byTxs, h]

/-! ## What is tracked -/

theorem mem_txs_of_clear {tracker : Tracker τ} {tx other : τ}
    (h : other ∈ (tracker.clear tx).txs) : other ∈ tracker.txs :=
  ((tracker.items_clearIds_sublist _).map _).subset h

theorem mem_txs_of_settle {tracker : Tracker τ} {tx : τ} {update : Update}
    (h : tx ∈ (tracker.settle update).txs) : tx ∈ tracker.txs := by
  rw [settle] at h
  split at h
  · rwa [txs_saveVerdictIds] at h
  · exact ((tracker.items_clearIds_sublist _).map _).subset h

theorem mem_txs_of_add {tracker : Tracker τ} {tx other : τ}
    (h : other ∈ (tracker.add tx).txs) : other ∈ tracker.txs ∨ other = tx := by
  by_cases hhas : tracker.has tx
  · rw [add_of_has hhas] at h
    exact .inl h
  · rw [txs, items_add hhas, List.map_append] at h
    rcases List.mem_append.mp h with h | h
    · exact .inl ((List.filter_sublist.map _).subset h)
    · exact .inr (List.mem_singleton.mp h)

end Tracker

end UtxoWallet
