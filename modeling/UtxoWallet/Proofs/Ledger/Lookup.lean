import Mathlib.Data.List.Induction
import UtxoWallet.Wallet

/-! # Ledgers, seen through their lookups

A ledger is its two lookups: `Ledger.ext_get?`. So each transition is described once, by what both
maps hold for a key afterwards, and no later proof opens a transition again:

* a settled transaction (`Ledger.settled`) drops the spent keys from the pending coins, whatever its
  status; the available coins are `get?_available_settled`;
* a revert (`Ledger.release`) makes every pending coin with one of the keys available at once;
* each stored coin stands behind its own key (`Ledger.WellKeyed`), and every transition keeps that.
-/

namespace UtxoWallet

/-! ## Coins in a list, and in a map -/

/-- A native coin with a value, for runs on fixed inputs. -/
def Coin.ofValue (value : Amount) : Coin :=
  { value, owner := "pk", token := ⟨List.replicate 32 0⟩, key := ⟨⟨[0x11]⟩, 0⟩
    createdAt := none, dustRegistered := false }

/-- The last coin of a list that has the key, as it would be found in the map of the list. -/
def lastCoin? (coins : List Coin) (key : UtxoKey) : Option Coin :=
  OrderedMap.find? key (keyed coins).reverse

theorem lastCoin?_concat (coins : List Coin) (coin : Coin) (key : UtxoKey) :
    lastCoin? (coins ++ [coin]) key = if coin.key = key then some coin else lastCoin? coins key := by
  simp [lastCoin?, keyed, OrderedMap.find?]

/-- What is found under a key is a coin of the list, and has that key. -/
theorem lastCoin?_eq_some {coins : List Coin} {key : UtxoKey} {coin : Coin}
    (h : lastCoin? coins key = some coin) : coin ∈ coins ∧ coin.key = key := by
  induction coins using List.reverseRecOn with
  | nil => cases h
  | append_singleton coins last ih =>
      rw [lastCoin?_concat] at h
      split at h
      · cases h
        exact ⟨by simp, ‹_›⟩
      · obtain ⟨hmem, hkey⟩ := ih h
        exact ⟨by simp [hmem], hkey⟩

/-- Something is found under exactly the keys of the list. -/
theorem lastCoin?_isSome {coins : List Coin} {key : UtxoKey} :
    (lastCoin? coins key).isSome ↔ key ∈ coins.map (·.key) := by
  induction coins using List.reverseRecOn with
  | nil => simp [lastCoin?, keyed, OrderedMap.find?]
  | append_singleton coins last ih =>
      rw [lastCoin?_concat, List.map_append, List.mem_append, ← ih]
      by_cases h : last.key = key
      · simp [h]
      · simp [h, Ne.symm h]

theorem lastCoin?_eq_none_iff {coins : List Coin} {key : UtxoKey} :
    lastCoin? coins key = none ↔ key ∉ coins.map (·.key) := by
  rw [← lastCoin?_isSome, Option.not_isSome_iff_eq_none]

theorem lastCoin?_eq_none {coins : List Coin} {key : UtxoKey} (h : key ∉ coins.map (·.key)) :
    lastCoin? coins key = none :=
  lastCoin?_eq_none_iff.mpr h

/-- Of the coins that are put in, the last one of a key stands, before any that was there. -/
theorem get?_insertAll_keyed (coinMap : CoinMap) (coins : List Coin) (key : UtxoKey) :
    (coinMap.insertAll (keyed coins)).get? key = (lastCoin? coins key).or (coinMap.get? key) :=
  OrderedMap.get?_insertAll coinMap (keyed coins) key

/-- The map of a list has the last coin of each key. -/
theorem get?_ofList_keyed (coins : List Coin) (key : UtxoKey) :
    (OrderedMap.ofList (keyed coins)).get? key = lastCoin? coins key := by
  rw [OrderedMap.ofList, get?_insertAll_keyed, OrderedMap.get?_empty, Option.or_none]

theorem get?_filter_not_contains (coinMap : CoinMap) (keys : List UtxoKey) (key : UtxoKey) :
    (coinMap.filter (!keys.contains ·)).get? key =
      if key ∈ keys then none else coinMap.get? key := by
  by_cases h : key ∈ keys <;> simp [h]

/-- Each coin of a map stands behind its own key. -/
def CoinMap.WellKeyed (coinMap : CoinMap) : Prop :=
  ∀ key coin, coinMap.get? key = some coin → coin.key = key

namespace CoinMap.WellKeyed

variable {coinMap : CoinMap}

theorem empty : CoinMap.WellKeyed OrderedMap.empty := by
  intro key coin h
  cases h

theorem insert (h : CoinMap.WellKeyed coinMap) {key : UtxoKey} {coin : Coin} (hk : coin.key = key) :
    CoinMap.WellKeyed (coinMap.insert key coin) := by
  intro k c hc
  rw [OrderedMap.get?_insert] at hc
  split at hc
  · next same =>
      cases hc
      exact hk.trans same
  · exact h k c hc

theorem filter (h : CoinMap.WellKeyed coinMap) (keep : UtxoKey → Bool) :
    CoinMap.WellKeyed (coinMap.filter keep) := by
  intro k c hc
  rw [OrderedMap.get?_filter] at hc
  split at hc
  · exact h k c hc
  · cases hc

theorem insertAll (h : CoinMap.WellKeyed coinMap) (coins : List Coin) :
    CoinMap.WellKeyed (coinMap.insertAll (keyed coins)) := by
  intro k c hc
  rw [get?_insertAll_keyed] at hc
  rcases Option.or_eq_some_iff.mp hc with hc | ⟨-, hc⟩
  · exact (lastCoin?_eq_some hc).2
  · exact h k c hc

theorem insertEntries (h : CoinMap.WellKeyed coinMap) {other : CoinMap}
    (ho : CoinMap.WellKeyed other) : CoinMap.WellKeyed (coinMap.insertAll other.entries) := by
  intro k c hc
  rw [OrderedMap.get?_insertAll_entries] at hc
  rcases Option.or_eq_some_iff.mp hc with hc | ⟨-, hc⟩
  · exact ho k c hc
  · exact h k c hc

end CoinMap.WellKeyed

/-! ## Updates by their keys -/

/-- The keys of the coins that an update reports spent. -/
def Update.spentKeys (update : Update) : List UtxoKey :=
  update.spent.map (·.key)

/-- The keys of the coins that an update reports created. -/
def Update.createdKeys (update : Update) : List UtxoKey :=
  update.created.map (·.key)

namespace Ledger

/-- Ledgers with the same lookups are equal. -/
theorem ext_get? {l r : Ledger} (available : ∀ key, l.available.get? key = r.available.get? key)
    (pending : ∀ key, l.pending.get? key = r.pending.get? key) : l = r := by
  obtain ⟨la, lp⟩ := l
  obtain ⟨ra, rp⟩ := r
  have ha : la = ra := OrderedMap.ext_get? available
  have hp : lp = rp := OrderedMap.ext_get? pending
  rw [ha, hp]

/-! ## Coins behind their own keys -/

/-- Each coin stands behind its own key, in both maps. -/
structure WellKeyed (ledger : Ledger) : Prop where
  available : CoinMap.WellKeyed ledger.available
  pending : CoinMap.WellKeyed ledger.pending

/-- A ledger that is taken up from two lists is well-keyed. -/
theorem WellKeyed.restore (available pending : List Coin) :
    (restore available pending).WellKeyed :=
  ⟨(CoinMap.WellKeyed.empty.insertAll available).filter _, CoinMap.WellKeyed.empty.insertAll pending⟩

/-! ## Local transitions -/

/-- A spend needs an available coin, and makes it pending. -/
theorem spend_eq_ok {ledger ledger' : Ledger} {key : UtxoKey} :
    ledger.spend key = .ok ledger' ↔ ∃ coin, ledger.available.get? key = some coin ∧
      ledger' = ⟨ledger.available.erase key, ledger.pending.insert key coin⟩ := by
  cases h : ledger.available.get? key <;> simp [spend, h, eq_comm]

/-- A rollback needs a pending coin, and makes it available. -/
theorem rollback_eq_ok {ledger ledger' : Ledger} {key : UtxoKey} :
    ledger.rollback key = .ok ledger' ↔ ∃ coin, ledger.pending.get? key = some coin ∧
      ledger' = ⟨ledger.available.insert key coin, ledger.pending.erase key⟩ := by
  cases h : ledger.pending.get? key <;> simp [rollback, h, eq_comm]

theorem WellKeyed.spend {ledger ledger' : Ledger} {key : UtxoKey} (h : ledger.WellKeyed)
    (hs : ledger.spend key = .ok ledger') : ledger'.WellKeyed := by
  obtain ⟨coin, hcoin, rfl⟩ := spend_eq_ok.mp hs
  exact ⟨h.available.filter _, h.pending.insert (h.available key coin hcoin)⟩

theorem WellKeyed.rollback {ledger ledger' : Ledger} {key : UtxoKey} (h : ledger.WellKeyed)
    (hr : ledger.rollback key = .ok ledger') : ledger'.WellKeyed := by
  obtain ⟨coin, hcoin, rfl⟩ := rollback_eq_ok.mp hr
  exact ⟨h.available.insert (h.pending key coin hcoin), h.pending.filter _⟩

/-! ## Settled transactions -/

/-- The ledger after a settled transaction. -/
def settled (ledger : Ledger) (update : Update) : Ledger :=
  match Wallet.settleLedger ledger update with
  | .ok next => next
  | .error _ => ledger

/-- A settled transaction takes the route of its status, which never refuses it. -/
theorem settleLedger_eq (ledger : Ledger) (update : Update) :
    Wallet.settleLedger ledger update = .ok (ledger.settled update) := by
  cases h : update.status <;>
    simp [settled, Wallet.settleLedger, applyFailed, apply, Status.isApplied, h]

theorem apply_eq_settled {ledger : Ledger} {update : Update} (h : update.status ≠ .failure) :
    ledger.apply update = .ok (ledger.settled update) := by
  rw [← settleLedger_eq, Wallet.settleLedger, if_neg h]

theorem applyFailed_eq_settled {ledger : Ledger} {update : Update} (h : update.status = .failure) :
    ledger.applyFailed update = .ok (ledger.settled update) := by
  rw [← settleLedger_eq, Wallet.settleLedger, if_pos h]

theorem settled_of_failure {ledger : Ledger} {update : Update} (h : update.status = .failure) :
    ledger.settled update =
      { available := ledger.available.insertAll (keyed update.spent)
        pending := ledger.pending.filter (!update.spentKeys.contains ·) } := by
  simp [settled, Wallet.settleLedger, applyFailed, Status.isApplied, h, Update.spentKeys]

theorem settled_of_ne_failure {ledger : Ledger} {update : Update} (h : update.status ≠ .failure) :
    ledger.settled update =
      { available := (ledger.available.filter (!update.spentKeys.contains ·)).insertAll
          (keyed update.created)
        pending := ledger.pending.filter (!update.spentKeys.contains ·) } := by
  cases hs : update.status <;>
    simp_all [settled, Wallet.settleLedger, apply, without, Status.isApplied, Update.spentKeys]

/-- A settled transaction leaves no spent coin pending, whether it took effect or failed. -/
@[simp] theorem get?_pending_settled (ledger : Ledger) (update : Update) (key : UtxoKey) :
    (ledger.settled update).pending.get? key =
      if key ∈ update.spentKeys then none else ledger.pending.get? key := by
  by_cases h : update.status = .failure
  · rw [settled_of_failure h, get?_filter_not_contains]
  · rw [settled_of_ne_failure h, get?_filter_not_contains]

/-- A failure puts the reported spent coins back; any other outcome takes the spent coins out and
puts the created ones in. -/
theorem get?_available_settled (ledger : Ledger) (update : Update) (key : UtxoKey) :
    (ledger.settled update).available.get? key =
      if update.status = .failure then (lastCoin? update.spent key).or (ledger.available.get? key)
      else (lastCoin? update.created key).or
        (if key ∈ update.spentKeys then none else ledger.available.get? key) := by
  by_cases h : update.status = .failure
  · rw [settled_of_failure h, if_pos h, get?_insertAll_keyed]
  · rw [settled_of_ne_failure h, if_neg h, get?_insertAll_keyed, get?_filter_not_contains]

/-- Settling puts coins behind their own keys only. -/
theorem WellKeyed.settled {ledger : Ledger} (h : ledger.WellKeyed) (update : Update) :
    (ledger.settled update).WellKeyed := by
  by_cases hf : update.status = .failure
  · rw [settled_of_failure hf]
    exact ⟨h.available.insertAll _, h.pending.filter _⟩
  · rw [settled_of_ne_failure hf]
    exact ⟨(h.available.filter _).insertAll _, h.pending.filter _⟩

/-! ## Reverts -/

/-- The ledger with every pending coin that has one of the keys made available. -/
def release (ledger : Ledger) (keys : List UtxoKey) : Ledger :=
  { available := ledger.available.insertAll (ledger.pending.filter (keys.contains ·)).entries
    pending := ledger.pending.filter (!keys.contains ·) }

@[simp] theorem get?_pending_release (ledger : Ledger) (keys : List UtxoKey) (key : UtxoKey) :
    (ledger.release keys).pending.get? key =
      if key ∈ keys then none else ledger.pending.get? key :=
  get?_filter_not_contains ledger.pending keys key

/-- A released coin takes the place of an available one with its key. -/
theorem get?_available_release (ledger : Ledger) (keys : List UtxoKey) (key : UtxoKey) :
    (ledger.release keys).available.get? key =
      if key ∈ keys then (ledger.pending.get? key).or (ledger.available.get? key)
      else ledger.available.get? key := by
  by_cases h : key ∈ keys <;> simp [release, OrderedMap.get?_insertAll_entries, h]

/-- A release carries each coin over with its key. -/
theorem WellKeyed.release {ledger : Ledger} (h : ledger.WellKeyed) (keys : List UtxoKey) :
    (ledger.release keys).WellKeyed :=
  ⟨h.available.insertEntries (h.pending.filter _), h.pending.filter _⟩

end Ledger

end UtxoWallet
