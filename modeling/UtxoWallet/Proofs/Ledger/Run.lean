import UtxoWallet.Proofs.Ledger.Lookup

/-! # Runs of ledger transitions

A ledger starts from two lists of coins and goes on by transitions; one that errs leaves it as it
is. What every ledger of a run has in common is just this: each coin stands behind its own key
(`Ledger.reachable_iff_wellKeyed`).
-/

namespace UtxoWallet

/-- A transition, with whatever arguments it is asked for. -/
inductive Transition where
  | spend (coin : Coin)
  | rollback (coin : Coin)
  | spendByKey (utxo : Utxo)
  | rollbackByKey (utxo : Utxo)
  | apply (update : Update)
  | applyFailed (update : Update)

namespace Ledger

/-- The answer of a ledger to a transition. -/
def perform (ledger : Ledger) : Transition → Except LedgerError Ledger
  | .spend coin => ledger.spend coin.key
  | .rollback coin => ledger.rollback coin.key
  | .spendByKey utxo => ledger.spendByKey utxo
  | .rollbackByKey utxo => ledger.rollbackByKey utxo
  | .apply update => ledger.apply update
  | .applyFailed update => ledger.applyFailed update

/-- The ledger after a transition. -/
def step (ledger : Ledger) (transition : Transition) : Ledger :=
  match ledger.perform transition with
  | .ok next => next
  | .error _ => ledger

theorem step_of_ok {ledger next : Ledger} {transition : Transition}
    (h : ledger.perform transition = .ok next) : ledger.step transition = next := by
  rw [step, h]

theorem step_of_error {ledger : Ledger} {transition : Transition} {error : LedgerError}
    (h : ledger.perform transition = .error error) : ledger.step transition = ledger := by
  rw [step, h]

theorem step_apply {ledger : Ledger} {update : Update} (h : update.status ≠ .failure) :
    ledger.step (.apply update) = ledger.settled update :=
  step_of_ok (apply_eq_settled h)

/-- All that a transition can do. A transition by the bare output is one by the key of the coin that
is found for it. -/
theorem step_cases (ledger : Ledger) (transition : Transition) :
    ledger.step transition = ledger ∨
    (∃ key, ledger.spend key = .ok (ledger.step transition)) ∨
    (∃ key, ledger.rollback key = .ok (ledger.step transition)) ∨
    (∃ update, transition = .apply update ∧ update.status ≠ .failure ∧
      ledger.step transition = ledger.settled update) ∨
    (∃ update, transition = .applyFailed update ∧ update.status = .failure ∧
      ledger.step transition = ledger.settled update) := by
  cases h : ledger.perform transition with
  | error error => exact .inl (step_of_error h)
  | ok next =>
      rw [step_of_ok h]
      cases transition with
      | spend coin => exact .inr (.inl ⟨coin.key, h⟩)
      | rollback coin => exact .inr (.inr (.inl ⟨coin.key, h⟩))
      -- A transition by key does what the one by coin does, if there is a coin.
      | spendByKey utxo =>
          simp only [perform, spendByKey] at h
          split at h
          · cases h
          · next coin _ => exact .inr (.inl ⟨coin.key, h⟩)
      | rollbackByKey utxo =>
          simp only [perform, rollbackByKey] at h
          split at h
          · cases h
          · next coin _ => exact .inr (.inr (.inl ⟨coin.key, h⟩))
      -- An update goes in by the route of its status, and is refused on the other.
      | apply update =>
          by_cases hs : update.status = .failure
          · simp [perform, apply, Status.isApplied, hs] at h
          · rw [perform, apply_eq_settled hs] at h
            cases h
            exact .inr (.inr (.inr (.inl ⟨update, rfl, hs, rfl⟩)))
      | applyFailed update =>
          by_cases hs : update.status = .failure
          · rw [perform, applyFailed_eq_settled hs] at h
            cases h
            exact .inr (.inr (.inr (.inr ⟨update, rfl, hs, rfl⟩)))
          · cases hu : update.status <;> simp_all [perform, applyFailed, Status.isApplied]

/-- Every transition keeps each coin behind its own key. -/
theorem WellKeyed.step {ledger : Ledger} (h : ledger.WellKeyed) (transition : Transition) :
    (ledger.step transition).WellKeyed := by
  rcases step_cases ledger transition with
    hs | ⟨key, hs⟩ | ⟨key, hs⟩ | ⟨update, -, -, hs⟩ | ⟨update, -, -, hs⟩
  · rwa [hs]
  · exact h.spend hs
  · exact h.rollback hs
  · rw [hs]
    exact h.settled update
  · rw [hs]
    exact h.settled update

/-! ## Reachable ledgers -/

/-- Some run of transitions leads to the ledger. -/
def Reachable (ledger : Ledger) : Prop :=
  ∃ available pending transitions, ledger = List.foldl step (restore available pending) transitions

/-- A well-keyed map is told by its values. -/
theorem keyed_values {coinMap : CoinMap} (h : CoinMap.WellKeyed coinMap) :
    keyed coinMap.values = coinMap.entries := by
  rw [keyed, OrderedMap.values, List.map_map]
  conv_rhs => rw [← List.map_id coinMap.entries]
  refine List.map_congr_left fun entry hmem => ?_
  have hkey := h entry.1 entry.2 (OrderedMap.mem_entries_iff.mp hmem)
  exact Prod.ext hkey rfl

/-- **Reachable means well keyed.** Any ledger whose coins stand behind their own keys is reached
from its pending coins by one update that creates its available ones. -/
theorem reachable_iff_wellKeyed {ledger : Ledger} : ledger.Reachable ↔ ledger.WellKeyed := by
  constructor
  · rintro ⟨available, pending, transitions, rfl⟩
    have start := WellKeyed.restore available pending
    generalize restore available pending = first at start
    induction transitions generalizing first with
    | nil => exact start
    | cons transition rest ih => exact ih _ (start.step transition)
  · intro h
    -- Start with the pending coins, and let one update create all that is available.
    let update : Update := ⟨0, OrderedMap.empty, ledger.availableCoins, [], .success, []⟩
    refine ⟨[], ledger.pendingCoins, [.apply update], ?_⟩
    show ledger = (restore [] ledger.pendingCoins).step (.apply update)
    have applied : update.status ≠ .failure := Status.noConfusion
    rw [step_apply applied]
    refine ext_get? (fun key => ?_) (fun key => ?_)
    · rw [settled_of_ne_failure applied]
      show _ = OrderedMap.get? (OrderedMap.insertAll _ (keyed ledger.available.values)) key
      rw [keyed_values h.available, OrderedMap.get?_insertAll_entries]
      simp [restore, OrderedMap.ofList, OrderedMap.insertAll, keyed]
    · have unspent : key ∉ update.spentKeys := List.not_mem_nil
      rw [get?_pending_settled, if_neg unspent]
      show _ = OrderedMap.get? (OrderedMap.ofList (keyed ledger.pending.values)) key
      rw [keyed_values h.pending, OrderedMap.ofList_entries]

end Ledger

end UtxoWallet
