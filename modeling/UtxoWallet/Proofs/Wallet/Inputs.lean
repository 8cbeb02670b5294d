import UtxoWallet.Proofs.Ledger.Exclusive
import UtxoWallet.Proofs.Ledger.Reserve
import UtxoWallet.Proofs.Transaction.Accounts
import UtxoWallet.Proofs.Wallet.Accounts

/-! # The inputs of a balanced transaction

The wallet adds coins with distinct keys, all of them available, and reserves just these
(`Wallet.balance_reserves`). It does not look at what the transaction spends already: a coin that is
an input of the transaction and available all the same can be added once more. Apart from that the
inputs stay distinct: `Wallet.balance_nodup_iff`.
-/

namespace UtxoWallet

/-- The keys of what some intents spend. -/
def keysOf (intents : List (UInt16 × Intent)) : List UtxoKey :=
  (intents.flatMap (·.2.inputs)).map (·.key)

/-- The keys that the balanced transaction spends are the given ones, and those of what was added.
-/
theorem Transaction.inputKeys_of_entries {tx balanced : Transaction}
    {added : List (UInt16 × Intent)}
    (h : balanced.intents.entries = tx.intents.entries ++ added) :
    balanced.inputKeys = tx.inputKeys ++ keysOf added := by
  rw [inputKeys, inputs_of_entries h, List.map_append]
  rfl

namespace Wallet

variable {wallet wallet' : Wallet} {native : TokenType} {fees : Fees} {ttl : Instant}
  {tx balanced : Transaction} {bindings bindings' : BindingSource}

/-- What a balanced transaction spends beside the inputs of the given one is distinct and was
available, and is all that the wallet reserves. -/
theorem balance_reserves
    (h : wallet.balance native fees ttl tx bindings = (.ok (balanced, wallet'), bindings')) :
    ∃ added : List (UInt16 × Intent), balanced.intents.entries = tx.intents.entries ++ added ∧
      (keysOf added).Nodup ∧ (∀ key ∈ keysOf added, wallet.ledger.available.contains key) ∧
      wallet' = { wallet with ledger := wallet.ledger.reserve (keysOf added) } := by
  obtain ⟨selection, -, ⟨-, rfl, rfl⟩ | ⟨happend, ledger, hspend, rfl⟩⟩ := balance_eq_ok h
  · refine ⟨[], (List.append_nil _).symm, .nil, nofun, ?_⟩
    rw [keysOf, List.flatMap_nil, List.map_nil, Ledger.reserve_nil]
  · obtain ⟨segment, hentries⟩ := Transaction.withIntent_eq_ok happend
    obtain ⟨hdistinct, havailable, rfl⟩ := Ledger.spendAll_eq_ok.mp hspend
    have hkeys : keysOf [(segment, wallet.balancingIntent ttl bindings selection)] =
        (wallet.balancingIntent ttl bindings selection).inputs.map (·.key) := by
      rw [keysOf, List.flatMap_singleton]
    rw [← hkeys] at hdistinct havailable ⊢
    exact ⟨_, hentries, hdistinct, havailable, rfl⟩

/-- **When a balanced transaction spends each coin once.** Let the inputs of a transaction have
distinct keys. So have those of the balanced one, iff the wallet makes no available coin pending that
the transaction spends itself. -/
theorem balance_nodup_iff (distinct : tx.inputKeys.Nodup)
    (h : wallet.balance native fees ttl tx bindings = (.ok (balanced, wallet'), bindings')) :
    balanced.inputKeys.Nodup ↔
      ∀ key ∈ tx.inputKeys, wallet.ledger.available.contains key →
        wallet'.ledger.available.contains key := by
  obtain ⟨added, hentries, hadded, havailable, rfl⟩ := balance_reserves h
  rw [Transaction.inputKeys_of_entries hentries, List.nodup_append]
  simp only [Ledger.available_reserve_contains_iff]
  constructor
  · rintro ⟨-, -, apart⟩ key hkey hav
    exact ⟨fun hmem => apart key hkey key hmem rfl, hav⟩
  · intro hkept
    refine ⟨distinct, hadded, ?_⟩
    rintro key hkey _ hmem rfl
    exact (hkept key hkey (havailable key hmem)).1 hmem

/-- The coin of a hundred is added to a transaction that spends a foreign coin of ten. -/
theorem balance_nodup_iff_of_foreign :
    let coin := Coin.ofValue ⟨100, by decide⟩
    let wallet := { start "pk" "net" with ledger := .restore [coin] [] }
    let foreign : Utxo := { coin.toUtxo with value := ⟨10, by decide⟩, key := ⟨⟨[0x22]⟩, 0⟩ }
    let tx := Transaction.ofIntent "net"
      ⟨0, some ⟨[foreign], [⟨⟨40, by decide⟩, "bob", coin.token⟩]⟩, .zero⟩
    tx.inputKeys.Nodup ∧ ∃ balanced wallet' bindings',
      wallet.balance coin.token .free Instant.latest tx .fresh =
        (.ok (balanced, wallet'), bindings') ∧
      (balanced.inputKeys.Nodup ↔
        ∀ key ∈ tx.inputKeys, wallet.ledger.available.contains key →
          wallet'.ledger.available.contains key) := by
  intro coin wallet foreign tx
  have distinct : tx.inputKeys.Nodup := by decide
  have hok : (wallet.balance coin.token .free Instant.latest tx .fresh).1.isOk := by
    decide +kernel
  rcases h : wallet.balance coin.token .free Instant.latest tx .fresh with
    ⟨error | ⟨balanced, wallet'⟩, bindings'⟩
  · rw [h] at hok
    cases hok
  · exact ⟨distinct, balanced, wallet', bindings', rfl, balance_nodup_iff distinct h⟩

/-- A transaction that spends the only coin of a wallet, and pays more than it is worth, is balanced
with the same coin once more. -/
theorem balance_takes_own_input :
    let coin := Coin.ofValue ⟨100, by decide⟩
    let wallet := { start "pk" "net" with ledger := .restore [coin] [] }
    let tx := Transaction.ofIntent "net"
      ⟨0, some ⟨[coin.toUtxo], [⟨⟨150, by decide⟩, "bob", coin.token⟩]⟩, .zero⟩
    wallet.ledger.Exclusive ∧ tx.inputKeys.Nodup ∧ ∃ balanced wallet' bindings',
      wallet.balance coin.token .free Instant.latest tx .fresh =
        (.ok (balanced, wallet'), bindings') ∧
      ¬ balanced.inputKeys.Nodup := by
  intro coin wallet tx
  have hkeys : (wallet.balance coin.token .free Instant.latest tx .fresh).1.toOption.map
      (·.1.inputKeys) = some [coin.key, coin.key] := by
    decide +kernel
  refine ⟨Ledger.Exclusive.restore _ _, by decide, ?_⟩
  rcases h : wallet.balance coin.token .free Instant.latest tx .fresh with
    ⟨error | ⟨balanced, wallet'⟩, bindings'⟩
  · rw [h] at hkeys
    cases hkeys
  · rw [h] at hkeys
    have hinputs : balanced.inputKeys = [coin.key, coin.key] := Option.some.inj hkeys
    refine ⟨balanced, wallet', bindings', rfl, ?_⟩
    rw [hinputs]
    decide

end Wallet

end UtxoWallet
