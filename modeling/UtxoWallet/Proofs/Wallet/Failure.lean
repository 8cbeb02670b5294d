import UtxoWallet.Proofs.Book.Replay
import UtxoWallet.Proofs.Wallet.Revert

/-! # A reported failure and a local revert

A transaction that fails gives its coins back in one of two ways. The indexer reports the failure, and
the reported coins are put among the available ones; or the wallet reverts the transaction, and moves
the coins that it holds pending for its inputs. If the report names just these coins, both ways lead to
the same ledger (`Ledger.settled_eq_release`), and the way that is taken second finds nothing left to
do: `Wallet.applyFailed_eq_revert`.
-/

namespace UtxoWallet

/-- The update reports a failure, and as spent the coins that the ledger holds pending under some keys,
in any order and any number of times each. -/
structure Update.GivesBack (update : Update) (ledger : Ledger) (keys : List UtxoKey) : Prop where
  failed : update.status = .failure
  spent : ∀ coin, coin ∈ update.spent ↔ ∃ key ∈ keys, ledger.pending.get? key = some coin

namespace Ledger

variable {ledger : Ledger} {update : Update} {keys : List UtxoKey} {key : UtxoKey} {coin : Coin}

/-- What is reported spent under a key is the coin that is pending there, if the key is one of those
given. -/
theorem lastCoin?_spent_eq_some_iff (keyed : ledger.WellKeyed) (h : update.GivesBack ledger keys) :
    lastCoin? update.spent key = some coin ↔ key ∈ keys ∧ ledger.pending.get? key = some coin := by
  -- A reported coin is one that is pending, and so stands behind its own key.
  have stored : ∀ {key coin}, lastCoin? update.spent key = some coin →
      key ∈ keys ∧ ledger.pending.get? key = some coin := by
    intro key coin hlast
    obtain ⟨hmem, hkey⟩ := lastCoin?_eq_some hlast
    obtain ⟨place, hplace, hcoin⟩ := (h.spent coin).mp hmem
    obtain rfl : place = key := (keyed.pending place coin hcoin).symm.trans hkey
    exact ⟨hplace, hcoin⟩
  constructor
  · exact stored
  · rintro ⟨hmem, hcoin⟩
    have reported : key ∈ update.spent.map (·.key) := by
      rw [← keyed.pending key coin hcoin]
      exact List.mem_map_of_mem ((h.spent coin).mpr ⟨key, hmem, hcoin⟩)
    obtain ⟨last, hlast⟩ := Option.isSome_iff_exists.mp (lastCoin?_isSome.mpr reported)
    rw [hlast, ← hcoin, (stored hlast).2]

/-- A report of a failure that gives back exactly the pending coins of some keys lists those coins.
-/
theorem lastCoin?_spent (keyed : ledger.WellKeyed) (h : update.GivesBack ledger keys) :
    lastCoin? update.spent key = if key ∈ keys then ledger.pending.get? key else none := by
  refine Option.ext fun coin => ?_
  rw [lastCoin?_spent_eq_some_iff keyed h]
  split
  · next hmem => exact and_iff_right hmem
  · next hmem =>
      constructor
      · exact fun hboth => absurd hboth.1 hmem
      · exact nofun

/-- A failure that gives back what is pending under some keys is a release of these keys. -/
theorem settled_eq_release (keyed : ledger.WellKeyed) (h : update.GivesBack ledger keys) :
    ledger.settled update = ledger.release keys := by
  -- Two ledgers are equal when they answer alike for every key in both maps.
  refine ext_get? (fun key => ?_) (fun key => ?_)
  · rw [get?_available_settled, if_pos h.failed, lastCoin?_spent keyed h, get?_available_release]
    split
    · rfl
    · exact Option.none_or
  · rw [get?_pending_settled, get?_pending_release]
    by_cases hspent : key ∈ update.spentKeys
    · have hkey : key ∈ keys := by
        obtain ⟨coin, hcoin⟩ := Option.isSome_iff_exists.mp (lastCoin?_isSome.mpr hspent)
        exact ((lastCoin?_spent_eq_some_iff keyed h).mp hcoin).1
      rw [if_pos hspent, if_pos hkey]
    · -- A key that is not reported has nothing pending.
      have idle := (lastCoin?_spent keyed h).symm.trans (lastCoin?_eq_none hspent)
      rw [if_neg hspent]
      split
      · next hkey => rwa [if_pos hkey] at idle
      · rfl

/-- What is released once stays so. -/
theorem release_release (ledger : Ledger) (keys : List UtxoKey) :
    (ledger.release keys).release keys = ledger.release keys := by
  refine release_eq_self_iff.mpr fun key hmem => ?_
  rw [OrderedMap.not_contains_iff, get?_pending_release, if_pos hmem]

end Ledger

namespace Wallet

variable {wallet : Wallet} {tx : Transaction} {update : Update}

/-- **A reported failure and a revert agree.** Let an update report that a transaction failed, and as
spent just the coins that the wallet holds pending under its inputs. Then the ledger after the update
is the one after a revert of the transaction. In this ledger a revert finds no coin to move, and the
update changes nothing. -/
theorem applyFailed_eq_revert (reachable : wallet.ledger.Reachable)
    (h : update.GivesBack wallet.ledger tx.inputKeys) :
    ∃ ledger count, wallet.ledger.applyFailed update = .ok ledger ∧
      wallet.revert tx = .ok ({ wallet with ledger }, count) ∧
      ({ wallet with ledger } : Wallet).revert tx = .ok ({ wallet with ledger }, 0) ∧
      ledger.applyFailed update = .ok ledger := by
  have keyed := Ledger.reachable_iff_wellKeyed.mp reachable
  have same := Ledger.settled_eq_release keyed h
  have again := wallet.ledger.release_release tx.inputKeys
  refine ⟨wallet.ledger.release tx.inputKeys, _, ?_, revert_eq keyed tx, ?_, ?_⟩
  · rw [Ledger.applyFailed_eq_settled h.failed, same]
  · let reverted : Wallet := { wallet with ledger := wallet.ledger.release tx.inputKeys }
    have hrevert : reverted.revert tx = _ := revert_eq (keyed.release _) tx
    rwa [again, Ledger.releasedCount_eq_zero_iff.mpr again] at hrevert
  · rw [Ledger.applyFailed_eq_settled h.failed, ← same, Ledger.settled_lastCounts.once]

/-- A transaction that spends a pending coin twice, one that has been available all along, and a foreign
one. The failure names the pending coin, three times. -/
theorem applyFailed_eq_revert_of_repeated :
    let coin := Coin.ofValue ⟨100, by decide⟩
    let idle : Coin := { coin with key := ⟨⟨[0x22]⟩, 0⟩ }
    let foreign : Coin := { coin with key := ⟨⟨[0x33]⟩, 0⟩ }
    let wallet := { start "pk" "net" with ledger := .restore [idle] [coin] }
    let tx := Transaction.ofIntent "net"
      ⟨0, some ⟨[coin.toUtxo, idle.toUtxo, coin.toUtxo, foreign.toUtxo], []⟩, .zero⟩
    let update : Update := ⟨7, OrderedMap.empty, [], [coin, coin, coin], .failure, []⟩
    wallet.ledger.Reachable ∧ update.GivesBack wallet.ledger tx.inputKeys ∧
      ∃ ledger count, wallet.ledger.applyFailed update = .ok ledger ∧
        wallet.revert tx = .ok ({ wallet with ledger }, count) ∧
        ({ wallet with ledger } : Wallet).revert tx = .ok ({ wallet with ledger }, 0) ∧
        ledger.applyFailed update = .ok ledger := by
  intro coin idle foreign wallet tx update
  have reachable : wallet.ledger.Reachable := ⟨[idle], [coin], [], rfl⟩
  have gives : update.GivesBack wallet.ledger tx.inputKeys := by
    refine ⟨rfl, fun other => ?_⟩
    have keys : tx.inputKeys = [coin.key, idle.key, coin.key, foreign.key] := rfl
    have hcoin : wallet.ledger.pending.get? coin.key = some coin := rfl
    have hidle : wallet.ledger.pending.get? idle.key = none := rfl
    have hforeign : wallet.ledger.pending.get? foreign.key = none := rfl
    simp [update, keys, hcoin, hidle, hforeign, eq_comm]
  exact ⟨reachable, gives, applyFailed_eq_revert reachable gives⟩

end Wallet

end UtxoWallet
