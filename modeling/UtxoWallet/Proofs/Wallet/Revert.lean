import Mathlib.Data.List.Basic
import UtxoWallet.Proofs.Ledger.Lookup

/-! # Reverting a transaction

The wallet reverts a transaction key by key. It never fails, and all it does to the ledger is to
release the keys of the inputs at once: `Wallet.revert_eq`. It counts each coin that it finds pending
exactly once, however often a key comes.
-/

namespace UtxoWallet

/-- The keys of what a transaction spends. -/
def Transaction.inputKeys (tx : Transaction) : List UtxoKey :=
  tx.inputs.map (·.key)

namespace OrderedMap

variable {κ ν : Type} [Ord κ] [Std.LawfulEqOrd κ]

omit [Std.LawfulEqOrd κ] in
theorem size_eq_size_filter_add (m : OrderedMap κ ν) (keep : κ → Bool) :
    m.size = (m.filter keep).size + (m.filter (!keep ·)).size :=
  List.length_eq_length_filter_add fun entry : κ × ν => keep entry.1

theorem size_filter_singleton [DecidableEq κ] (m : OrderedMap κ ν) (key : κ) :
    (m.filter ([key].contains ·)).size = if m.contains key then 1 else 0 := by
  obtain ⟨entries, ascending⟩ := m
  show (entries.filter fun entry => [key].contains entry.1).length =
    if (find? key entries).isSome then 1 else 0
  induction entries with
  | nil => rfl
  | cons entry rest ih =>
      obtain ⟨least, tail⟩ := List.pairwise_cons.mp ascending
      by_cases h : entry.1 = key
      · have others : ∀ other ∈ rest, other.1 ≠ key := by
          intro other hmem hother
          have hlt := least other hmem
          simp [h, hother] at hlt
        simpa [find?, h] using others
      · have := ih tail
        simpa [List.filter_cons, find?, h] using this

end OrderedMap

namespace Ledger

/-- How many coins a release makes available. -/
def releasedCount (ledger : Ledger) (keys : List UtxoKey) : Nat :=
  (ledger.pending.filter (keys.contains ·)).size

theorem release_nil (ledger : Ledger) : ledger.release [] = ledger := by
  refine ext_get? (fun key => ?_) (fun key => ?_)
  · rw [get?_available_release, if_neg List.not_mem_nil]
  · rw [get?_pending_release, if_neg List.not_mem_nil]

theorem release_append (ledger : Ledger) (l r : List UtxoKey) :
    ledger.release (l ++ r) = (ledger.release l).release r := by
  refine ext_get? (fun key => ?_) (fun key => ?_)
  · simp only [get?_available_release, get?_pending_release, List.mem_append]
    by_cases hl : key ∈ l <;> by_cases hr : key ∈ r <;> simp [hl, hr]
  · simp only [get?_pending_release, List.mem_append]
    by_cases hl : key ∈ l <;> by_cases hr : key ∈ r <;> simp [hl, hr]

/-- The order of the keys does not matter, nor how often they come. -/
theorem release_congr {l r : List UtxoKey} (same : ∀ key, key ∈ l ↔ key ∈ r) (ledger : Ledger) :
    ledger.release l = ledger.release r := by
  refine ext_get? (fun key => ?_) (fun key => ?_)
  · simp only [get?_available_release, same]
  · simp only [get?_pending_release, same]

/-- A pending coin that is released is available from then on. -/
theorem get?_release_of_pending {ledger : Ledger} {keys : List UtxoKey} {key : UtxoKey} {coin : Coin}
    (hkey : key ∈ keys) (hcoin : ledger.pending.get? key = some coin) :
    (ledger.release keys).available.get? key = some coin ∧
      (ledger.release keys).pending.get? key = none := by
  rw [get?_available_release, get?_pending_release, if_pos hkey, if_pos hkey, hcoin]
  exact ⟨rfl, rfl⟩

/-- Any other key is where it was. -/
theorem get?_release_of_idle {ledger : Ledger} {keys : List UtxoKey} {key : UtxoKey}
    (idle : key ∈ keys → ¬ ledger.pending.contains key) :
    (ledger.release keys).available.get? key = ledger.available.get? key ∧
      (ledger.release keys).pending.get? key = ledger.pending.get? key := by
  rw [get?_available_release, get?_pending_release]
  by_cases hkey : key ∈ keys
  · rw [if_pos hkey, if_pos hkey, OrderedMap.not_contains_iff.mp (idle hkey)]
    exact ⟨Option.none_or, rfl⟩
  · rw [if_neg hkey, if_neg hkey]
    exact ⟨rfl, rfl⟩

/-- A release of nothing that is pending changes nothing. -/
theorem release_eq_self_iff {ledger : Ledger} {keys : List UtxoKey} :
    ledger.release keys = ledger ↔ ∀ key ∈ keys, ¬ ledger.pending.contains key := by
  constructor
  · intro h key hmem
    rw [← h, OrderedMap.contains, get?_pending_release, if_pos hmem]
    exact Bool.false_ne_true
  · intro h
    exact ext_get? (fun key => (get?_release_of_idle (h key)).1)
      (fun key => (get?_release_of_idle (h key)).2)

/-- What is released first is counted first, and not again. -/
theorem releasedCount_append (ledger : Ledger) (l r : List UtxoKey) :
    ledger.releasedCount (l ++ r) = ledger.releasedCount l + (ledger.release l).releasedCount r := by
  have first : (ledger.pending.filter ((l ++ r).contains ·)).filter (l.contains ·) =
      ledger.pending.filter (l.contains ·) := by
    refine OrderedMap.ext_get? fun k => ?_
    by_cases h : k ∈ l <;> simp [h]
  have rest : (ledger.pending.filter ((l ++ r).contains ·)).filter (!l.contains ·) =
      (ledger.release l).pending.filter (r.contains ·) := by
    refine OrderedMap.ext_get? fun k => ?_
    by_cases h : k ∈ l <;> by_cases hk : k ∈ r <;> simp [h, hk]
  rw [releasedCount, OrderedMap.size_eq_size_filter_add _ (l.contains ·), first, rest]
  rfl

/-- The released coins are counted key by key. -/
theorem releasedCount_cons (ledger : Ledger) (key : UtxoKey) (keys : List UtxoKey) :
    ledger.releasedCount (key :: keys) =
      ledger.releasedCount [key] + (ledger.release [key]).releasedCount keys :=
  ledger.releasedCount_append [key] keys

/-- Nothing is released if and only if the ledger stays as it is. -/
theorem releasedCount_eq_zero_iff {ledger : Ledger} {keys : List UtxoKey} :
    ledger.releasedCount keys = 0 ↔ ledger.release keys = ledger := by
  rw [release_eq_self_iff]
  induction keys generalizing ledger with
  | nil => simp [releasedCount, OrderedMap.size, OrderedMap.filter]
  | cons key keys ih =>
      rw [releasedCount_cons, Nat.add_eq_zero_iff, ih, releasedCount,
        OrderedMap.size_filter_singleton, List.forall_mem_cons]
      by_cases h : ledger.pending.contains key
      · simp [h]
      · have same : ledger.release [key] = ledger := release_eq_self_iff.mpr (by simpa using h)
        simp [h, same]

end Ledger

namespace Wallet

/-- Reverting one key never fails: it releases the coin if that is pending, and counts it. -/
theorem revertKey_eq {ledger : Ledger} (h : ledger.WellKeyed) (count : Nat) (key : UtxoKey) :
    revertKey (ledger, count) key =
      .ok (ledger.release [key], count + ledger.releasedCount [key]) := by
  rw [Ledger.releasedCount, OrderedMap.size_filter_singleton, OrderedMap.contains]
  cases hc : ledger.pending.get? key with
  | none =>
      have same : ledger.release [key] = ledger :=
        Ledger.release_eq_self_iff.mpr (by simp [OrderedMap.contains, hc])
      rw [same, revertKey, hc]
      rfl
  | some coin =>
      have back : ledger.release [key] =
          ⟨ledger.available.insert key coin, ledger.pending.erase key⟩ := by
        refine Ledger.ext_get? (fun k => ?_) (fun k => ?_)
        · by_cases hk : k = key
          · simp [Ledger.get?_available_release, hk, hc]
          · simp [Ledger.get?_available_release, hk, Ne.symm hk]
        · simp
      rw [back, revertKey, hc]
      simp [h.pending key coin hc, Ledger.rollback, hc, Except.map]

/-- Nor does it for a list of keys. -/
theorem revertKeys_eq {ledger : Ledger} (h : ledger.WellKeyed) (count : Nat)
    (keys : List UtxoKey) :
    keys.foldlM revertKey (ledger, count) =
      .ok (ledger.release keys, count + ledger.releasedCount keys) := by
  induction keys generalizing ledger count with
  | nil =>
      have none : ledger.releasedCount [] = 0 :=
        Ledger.releasedCount_eq_zero_iff.mpr ledger.release_nil
      rw [ledger.release_nil, none]
      rfl
  | cons key keys ih =>
      rw [List.foldlM_cons, revertKey_eq h]
      show keys.foldlM revertKey (ledger.release [key], _) = _
      rw [ih (h.release [key]), ← Ledger.release_append, Nat.add_assoc,
        ← Ledger.releasedCount_cons]
      rfl

/-- **A revert is a release.** It makes the pending inputs available, counts them, and touches
nothing else. -/
theorem revert_eq {wallet : Wallet} (h : wallet.ledger.WellKeyed) (tx : Transaction) :
    wallet.revert tx =
      .ok ({ wallet with ledger := wallet.ledger.release tx.inputKeys },
        wallet.ledger.releasedCount tx.inputKeys) := by
  rw [revert, revertKeys_eq h, Nat.zero_add]
  rfl

end Wallet

end UtxoWallet
