import UtxoWallet.Proofs.Ledger.Lookup
import UtxoWallet.Proofs.Results

/-! # Balancing, step by step

A wallet that balances a transaction leaves it as it is, or appends one intent and makes the inputs
of that intent pending: `Wallet.balance_eq_ok`.
-/

namespace UtxoWallet

namespace Wallet

variable {wallet wallet' : Wallet} {native : TokenType} {fees : Fees} {ttl : Instant}
  {tx balanced : Transaction} {bindings bindings' : BindingSource}

/-- A commitment that succeeds has found a segment for the intent, and has spent each of its inputs.
-/
theorem commit_eq_ok {intent : Intent}
    (h : wallet.commit tx intent = .ok (balanced, wallet')) :
    tx.withIntent intent = .ok balanced ∧
      ∃ ledger, (intent.inputs.map (·.key)).foldlM Ledger.spend wallet.ledger = .ok ledger ∧
        wallet' = { wallet with ledger } := by
  obtain ⟨appended, happend, h⟩ := bind_eq_ok.mp h
  obtain ⟨ledger, hspend, h⟩ := bind_eq_ok.mp h
  cases h
  exact ⟨mapError_eq_ok.mp happend, ledger, mapError_eq_ok.mp hspend, rfl⟩

/-- The intent that balances a transaction. -/
def balancingIntent (wallet : Wallet) (ttl : Instant) (bindings : BindingSource)
    (selection : Selection Coin) : Intent :=
  Intent.make ttl (wallet.balancingOffer selection) bindings.next

/-- All that can come of a wallet that balances a transaction. -/
theorem balance_eq_ok
    (h : wallet.balance native fees ttl tx bindings = (.ok (balanced, wallet'), bindings')) :
    ∃ selection, wallet.selectFor native fees tx = .ok selection ∧
      (selection.isEmpty ∧ balanced = tx ∧ wallet' = wallet ∨
       tx.withIntent (wallet.balancingIntent ttl bindings selection) = .ok balanced ∧
        ∃ ledger, ((wallet.balancingIntent ttl bindings selection).inputs.map (·.key)).foldlM
          Ledger.spend wallet.ledger = .ok ledger ∧ wallet' = { wallet with ledger }) := by
  rw [balance] at h
  split at h
  · cases h
  · next selection hsel =>
      refine ⟨selection, hsel, ?_⟩
      split at h
      · next empty =>
          cases h
          exact .inl ⟨empty, rfl, rfl⟩
      · exact .inr (commit_eq_ok (congrArg Prod.fst h))

end Wallet

end UtxoWallet
