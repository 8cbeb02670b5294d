import UtxoWallet.Proofs.Wallet.Inputs

/-! # Reverting undoes balancing

A revert does not know which coins the balancing intent has reserved. It goes over all inputs of the
transaction by their keys, and takes those that it finds pending. Still it undoes just the balancing:
the coins that were added had been available, so they go back to where they were, and what becomes of
the other inputs is what a revert of the given transaction would have made of them.

* `Wallet.revert_balanced`: whichever inputs the transaction had before.
-/

namespace UtxoWallet

namespace Wallet

variable {wallet wallet' : Wallet} {native : TokenType} {fees : Fees} {ttl : Instant}
  {tx balanced : Transaction} {bindings bindings' : BindingSource}

/-- The added coins come back, and the inputs of the transaction are released as they were before. -/
theorem release_balanced (exclusive : wallet.ledger.Exclusive)
    (h : wallet.balance native fees ttl tx bindings = (.ok (balanced, wallet'), bindings')) :
    wallet'.ledger.release balanced.inputKeys = wallet.ledger.release tx.inputKeys := by
  obtain ⟨added, hentries, -, havailable, rfl⟩ := balance_reserves h
  have idle : ∀ key ∈ keysOf added, ¬ wallet.ledger.pending.contains key :=
    fun key hmem => exclusive key (havailable key hmem)
  -- A revert of the given transaction makes none of the added coins pending.
  have still : ∀ key ∈ keysOf added, ¬ (wallet.ledger.release tx.inputKeys).pending.contains key := by
    intro key hmem
    rw [OrderedMap.contains, (Ledger.get?_release_of_idle fun _ => idle key hmem).2]
    exact idle key hmem
  calc (wallet.ledger.reserve (keysOf added)).release balanced.inputKeys
      = (wallet.ledger.reserve (keysOf added)).release (tx.inputKeys ++ keysOf added) := by
        rw [Transaction.inputKeys_of_entries hentries]
    _ = wallet.ledger.release (tx.inputKeys ++ keysOf added) :=
        Ledger.release_reserve (fun key => List.mem_append_right _) idle
    _ = (wallet.ledger.release tx.inputKeys).release (keysOf added) := Ledger.release_append _ _ _
    _ = wallet.ledger.release tx.inputKeys := Ledger.release_eq_self_iff.mpr still

/-- **Reverting undoes balancing.** Let a wallet, whose ledger holds no coin in both maps, balance a
transaction. To revert the balanced one right away leads to the wallet that a revert of the given one
would have led to, with the ledger changed at most; and that is the wallet before iff no input of the
given transaction was pending. -/
theorem revert_balanced (reachable : wallet.ledger.Reachable)
    (exclusive : wallet.ledger.Exclusive)
    (h : wallet.balance native fees ttl tx bindings = (.ok (balanced, wallet'), bindings')) :
    ∃ ledger count count', wallet'.revert balanced = .ok ({ wallet with ledger }, count') ∧
      wallet.revert tx = .ok ({ wallet with ledger }, count) ∧
      (ledger = wallet.ledger ↔ ∀ key ∈ tx.inputKeys, ¬ wallet.ledger.pending.contains key) := by
  have keyed := Ledger.reachable_iff_wellKeyed.mp reachable
  obtain ⟨added, -, -, -, hwallet⟩ := balance_reserves h
  have keyed' : wallet'.ledger.WellKeyed := by
    rw [hwallet]
    exact keyed.reserve _
  have hrevert := revert_eq keyed' balanced
  rw [release_balanced exclusive h] at hrevert
  subst hwallet
  exact ⟨_, _, _, hrevert, revert_eq keyed tx, Ledger.release_eq_self_iff⟩

/-- A transaction that spends a coin of a hundred, which is available, and one of ten, which an earlier
transaction has reserved, and pays two hundred. The available coin is added once more. After the revert
both coins are available. -/
theorem revert_balanced_of_own_inputs :
    let coin := Coin.ofValue ⟨100, by decide⟩
    let earlier : Coin := { coin with value := ⟨10, by decide⟩, key := ⟨⟨[0x22]⟩, 0⟩ }
    let wallet := { start "pk" "net" with ledger := .restore [coin] [earlier] }
    let tx := Transaction.ofIntent "net" ⟨0, some ⟨[coin.toUtxo, earlier.toUtxo],
      [⟨⟨200, by decide⟩, "bob", coin.token⟩]⟩, .zero⟩
    wallet.ledger.Reachable ∧ wallet.ledger.Exclusive ∧ ∃ balanced wallet' bindings',
      wallet.balance coin.token .free Instant.latest tx .fresh =
        (.ok (balanced, wallet'), bindings') ∧
      balanced.inputKeys = [coin.key, earlier.key, coin.key] ∧
      ∃ ledger count count', wallet'.revert balanced = .ok ({ wallet with ledger }, count') ∧
        wallet.revert tx = .ok ({ wallet with ledger }, count) ∧
        (ledger = wallet.ledger ↔ ∀ key ∈ tx.inputKeys, ¬ wallet.ledger.pending.contains key) := by
  intro coin earlier wallet tx
  have reachable : wallet.ledger.Reachable := ⟨[coin], [earlier], [], rfl⟩
  have exclusive : wallet.ledger.Exclusive := .restore [coin] [earlier]
  have hkeys : (wallet.balance coin.token .free Instant.latest tx .fresh).1.toOption.map
      (·.1.inputKeys) = some [coin.key, earlier.key, coin.key] := by
    decide +kernel
  rcases h : wallet.balance coin.token .free Instant.latest tx .fresh with
    ⟨error | ⟨balanced, wallet'⟩, bindings'⟩
  · rw [h] at hkeys
    cases hkeys
  · rw [h] at hkeys
    exact ⟨reachable, exclusive, balanced, wallet', bindings', rfl, Option.some.inj hkeys,
      revert_balanced reachable exclusive h⟩

end Wallet

end UtxoWallet
