import Mathlib.Data.List.Induction
import Mathlib.Data.List.Perm.Basic
import Mathlib.Tactic.Tauto
import UtxoWallet.Book
import UtxoWallet.Proofs.Tracker.Antichain

/-! # What is tracked in the end

A transaction that is added may be ignored, join the others, or take the place of several of them. It
hangs on what was added before. What is tracked in the end does not: it is the transactions whose sets
of identifiers lie in no other set, one for each such set.

* `Tracker.has_trackAll_iff`: whatever is added stays covered.
* `Tracker.mem_idSets_trackAll_iff`: only the maximal sets are left.
* `Tracker.trackAll_maximal`: so the order in which transactions are added does not matter, nor how
  often each comes.
-/

namespace UtxoWallet

namespace Tracker

variable {τ : Type} [Trackable τ]

/-! ## Sets of identifiers -/

/-- The sets of identifiers that are tracked. -/
def idSets (tracker : Tracker τ) : List (OrderedSet String) :=
  tracker.txs.map Trackable.ids

/-- The set is one of those given, and lies in no other one of them. -/
def IsMaximalIn (sets : List (OrderedSet String)) (ids : OrderedSet String) : Prop :=
  ids ∈ sets ∧ ∀ other ∈ sets, ids.isSubset other → other = ids

/-- Transactions with the same identifiers cover each other, so an antichain has no two of them. -/
theorem Antichain.nodup_idSets {tracker : Tracker τ} (h : tracker.Antichain) :
    tracker.idSets.Nodup := by
  refine List.pairwise_map.mpr (List.Pairwise.imp (fun {a b} incomparable same => ?_) h)
  refine incomparable.1 ?_
  rw [covers, isWithin, same]
  exact OrderedSet.isSubset_refl _

/-! ## Adding one after the other -/

/-- The tracker that some transactions were added to, one after the other. -/
def trackAll (txs : List τ) : Tracker τ :=
  txs.foldl add empty

theorem trackAll_concat (txs : List τ) (tx : τ) : trackAll (txs ++ [tx]) = (trackAll txs).add tx :=
  List.foldl_concat _ _ _ _

/-- What is tracked in the end covers nothing else that is. -/
theorem antichain_trackAll (txs : List τ) : (trackAll txs).Antichain := by
  have start : (empty : Tracker τ).Antichain := .nil
  have run := start.after (txs.map .add)
  rwa [after, List.foldl_map] at run

/-- Whatever is added stays covered. -/
theorem has_trackAll_iff {txs : List τ} {other : τ} :
    (trackAll txs).has other ↔ ∃ tx ∈ txs, covers tx other := by
  induction txs using List.reverseRecOn with
  | nil => simp [trackAll, empty, has]
  | append_singleton txs last ih =>
      rw [trackAll_concat, has_add_iff, ih]
      simp [or_and_right, exists_or]

theorem mem_of_mem_txs_trackAll {txs : List τ} {tx : τ} (h : tx ∈ (trackAll txs).txs) :
    tx ∈ txs := by
  induction txs using List.reverseRecOn with
  | nil => cases h
  | append_singleton txs last ih =>
      rw [trackAll_concat] at h
      rcases mem_txs_of_add h with hbefore | rfl
      · exact List.mem_append_left _ (ih hbefore)
      · exact List.mem_append_right _ (List.mem_singleton_self _)

/-- The sets that are tracked in the end are the maximal ones. -/
theorem mem_idSets_trackAll_iff {txs : List τ} {ids : OrderedSet String} :
    ids ∈ (trackAll txs).idSets ↔ IsMaximalIn (txs.map Trackable.ids) ids := by
  constructor
  · intro hids
    obtain ⟨tx, htx, rfl⟩ := List.mem_map.mp hids
    refine ⟨List.mem_map_of_mem (mem_of_mem_txs_trackAll htx), fun other hother inside => ?_⟩
    obtain ⟨larger, hlarger, rfl⟩ := List.mem_map.mp hother
    obtain ⟨item, hitem, rfl⟩ := List.mem_map.mp htx
    -- What stands for the larger one in the tracker covers the item, so it is the item.
    obtain ⟨cover, hcover, covered⟩ :=
      has_iff.mp (has_trackAll_iff.mpr ⟨larger, hlarger, covers_refl larger⟩)
    have same := (antichain_trackAll txs).eq_of_covers hcover hitem (covers_trans covered inside)
    rw [same] at covered
    exact OrderedSet.isSubset_antisymm covered inside
  · rintro ⟨hids, maximal⟩
    obtain ⟨tx, htx, rfl⟩ := List.mem_map.mp hids
    obtain ⟨item, hitem, covered⟩ := has_iff.mp (has_trackAll_iff.mpr ⟨tx, htx, covers_refl tx⟩)
    have hmem : item.tx ∈ (trackAll txs).txs := List.mem_map_of_mem hitem
    have same := maximal _ (List.mem_map_of_mem (mem_of_mem_txs_trackAll hmem)) covered
    rw [← same]
    exact List.mem_map_of_mem hmem

/-- **The order of tracking does not matter.** Let transactions be added one by one to the empty
tracker, whatever their identifiers are. Then the tracked sets of identifiers are the maximal ones
among those that were added, each of them once. So all lists in which the same sets occur, in any order
and any number of times, lead to the same tracked sets. -/
theorem trackAll_maximal (txs : List τ) :
    (trackAll txs).idSets.Nodup ∧
      (∀ ids, ids ∈ (trackAll txs).idSets ↔ IsMaximalIn (txs.map Trackable.ids) ids) ∧
      ∀ others : List τ,
        (∀ ids, ids ∈ others.map Trackable.ids ↔ ids ∈ txs.map Trackable.ids) →
        (trackAll others).idSets.Perm (trackAll txs).idSets := by
  refine ⟨(antichain_trackAll txs).nodup_idSets, fun ids => mem_idSets_trackAll_iff, ?_⟩
  intro others hsame
  refine (List.perm_ext_iff_of_nodup (antichain_trackAll others).nodup_idSets
    (antichain_trackAll txs).nodup_idSets).mpr fun ids => ?_
  rw [mem_idSets_trackAll_iff, mem_idSets_trackAll_iff]
  simp only [IsMaximalIn, hsame]

/-- A transaction without intents, two of one intent, and one that covers the first of these, in two
orders: the two that are left come in different places. -/
theorem trackAll_maximal_of_reordered :
    let blank : Transaction := ⟨"net", OrderedMap.empty, false⟩
    let first := Transaction.ofIntent "net" ⟨0, none, .numbered 1⟩
    let other := Transaction.ofIntent "net" ⟨0, none, .numbered 2⟩
    let both := { first with intents := first.intents.insert 2 ⟨0, none, .numbered 3⟩ }
    let txs := [first, blank, other, both, first]
    let others := [both, other, blank, both, first]
    (∀ ids, ids ∈ others.map Trackable.ids ↔ ids ∈ txs.map Trackable.ids) ∧
      (trackAll others).idSets ≠ (trackAll txs).idSets ∧
      (trackAll others).idSets.Perm (trackAll txs).idSets := by
  intro blank first other both txs others
  have reordered : ∀ a b c d ids : OrderedSet String,
      ids ∈ [d, c, b, d, a] ↔ ids ∈ [a, b, c, d, a] := by
    intro a b c d ids
    simp only [List.mem_cons]
    tauto
  have same : ∀ ids, ids ∈ others.map Trackable.ids ↔ ids ∈ txs.map Trackable.ids :=
    reordered first.identifiers blank.identifiers other.identifiers both.identifiers
  have differ : (trackAll others).idSets ≠ (trackAll txs).idSets := by decide +kernel
  exact ⟨same, differ, (trackAll_maximal txs).2.2 others same⟩

end Tracker

end UtxoWallet
