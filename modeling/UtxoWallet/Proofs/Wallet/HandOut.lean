import UtxoWallet.Proofs.Wallet.Run

/-! # No coin is handed out twice

A coin that has been handed out is no longer available. It becomes available again only when it is
returned: a transaction that spends it is reverted, the indexer reports that such a transaction
failed, or that the coin is created. Until then the wallet does not hand it out again:
`Wallet.handedOut_once`.
-/

namespace UtxoWallet

namespace Wallet

/-- Can the operation make the coin with the key available? -/
def Operation.Returns (key : UtxoKey) : Operation → Prop
  | .revert tx => key ∈ tx.inputKeys
  | .apply (.transaction update) =>
    update.status = .failure ∧ key ∈ update.spentKeys ∨
      update.status ≠ .failure ∧ key ∈ update.createdKeys
  | .balance .. | .apply (.progress _) | .disconnect => False

/-- **One step.** A coin that was not available becomes available only by being returned. -/
theorem returns_of_available {wallet : Wallet} (h : wallet.ledger.WellKeyed) {operation : Operation}
    {key : UtxoKey} (hbefore : ¬ wallet.ledger.available.contains key)
    (hafter : (wallet.perform operation).ledger.available.contains key) :
    operation.Returns key := by
  have absent := OrderedMap.not_contains_iff.mp hbefore
  rcases perform_ledger h operation with hs | ⟨tx, rfl, hs⟩ | ⟨update, rfl, hs⟩
  · -- Balancing only takes coins out of the available ones.
    rw [hs, Ledger.available_reserve_contains_iff] at hafter
    exact absurd hafter.2 hbefore
  · rw [hs, OrderedMap.contains, Ledger.get?_available_release, absent] at hafter
    by_cases hkey : key ∈ tx.inputKeys
    · exact hkey
    · rw [if_neg hkey] at hafter
      cases hafter
  · rw [hs, OrderedMap.contains, Ledger.get?_available_settled, absent] at hafter
    by_cases hf : update.status = .failure
    · rw [if_pos hf, Option.or_none, lastCoin?_isSome] at hafter
      exact .inl ⟨hf, hafter⟩
    · rw [if_neg hf, ite_self, Option.or_none, lastCoin?_isSome] at hafter
      exact .inr ⟨hf, hafter⟩

/-- **A run.** So some operation of the run has returned it. -/
theorem exists_returns {wallet : Wallet} (h : wallet.ledger.WellKeyed)
    {operations : List Operation} {key : UtxoKey}
    (hbefore : ¬ wallet.ledger.available.contains key)
    (hafter : (wallet.after operations).ledger.available.contains key) :
    ∃ operation ∈ operations, operation.Returns key := by
  induction operations generalizing wallet with
  | nil => exact absurd hafter hbefore
  | cons operation rest ih =>
      by_cases hnow : (wallet.perform operation).ledger.available.contains key
      · exact ⟨operation, List.mem_cons_self, returns_of_available h hbefore hnow⟩
      · obtain ⟨later, hmem, hreturns⟩ := ih (h.operate operation) hnow hafter
        exact ⟨later, List.mem_cons_of_mem operation hmem, hreturns⟩

/-- What an operation hands out is distinct; it was available, and is not any more. -/
theorem handedOut_taken (wallet : Wallet) (operation : Operation) :
    (wallet.handedOut operation).Nodup ∧ ∀ key ∈ wallet.handedOut operation,
      wallet.ledger.available.contains key ∧
        ¬ (wallet.perform operation).ledger.available.contains key := by
  cases operation with
  | balance native fees ttl tx bindings =>
      obtain ⟨distinct, available, hnext⟩ := handedOut_spec wallet native fees ttl tx bindings
      refine ⟨distinct, fun key hkey => ⟨available key hkey, ?_⟩⟩
      rw [hnext, Ledger.available_reserve_contains_iff]
      exact fun still => still.1 hkey
  | revert tx => exact ⟨.nil, nofun⟩
  | apply notice => exact ⟨.nil, nofun⟩
  | disconnect => exact ⟨.nil, nofun⟩

/-- **No coin is handed out twice.** In every run the keys that one operation hands out are distinct,
and if two operations hand out the same key, some operation between them has returned the coin. -/
theorem handedOut_once {start : Wallet} (reachable : start.ledger.Reachable) :
    (∀ before operation, ((start.after before).handedOut operation).Nodup) ∧
      ∀ before first between second key,
        key ∈ (start.after before).handedOut first →
        key ∈ (start.after (before ++ first :: between)).handedOut second →
        ∃ operation ∈ between, operation.Returns key := by
  refine ⟨fun before operation => (handedOut_taken _ operation).1, ?_⟩
  intro before first between second key hfirst hsecond
  have keyed := (Ledger.reachable_iff_wellKeyed.mp reachable).operateAll before
  have gone := ((handedOut_taken _ first).2 key hfirst).2
  have back := ((handedOut_taken _ second).2 key hsecond).1
  -- Between the two calls the key has come back among the available coins.
  rw [after_append] at back
  exact exists_returns (keyed.operate first) gone back

/-- A coin is handed out, returned by a revert, and handed out once more. -/
theorem handedOut_once_of_revert :
    let coin := Coin.ofValue ⟨100, by decide⟩
    let start := { start "pk" "net" with ledger := .restore [coin] [] }
    let pay := Operation.balance coin.token .free Instant.latest
      (.ofIntent "net" ⟨0, some ⟨[], [⟨⟨40, by decide⟩, "bob", coin.token⟩]⟩, .zero⟩) .fresh
    let undo := Operation.revert (.ofIntent "net" ⟨0, some ⟨[coin.toUtxo], []⟩, .zero⟩)
    coin.key ∈ start.handedOut pay ∧ coin.key ∈ (start.after [pay, undo]).handedOut pay ∧
      ∃ operation ∈ [undo], operation.Returns coin.key := by
  intro coin start pay undo
  have hfirst : coin.key ∈ start.handedOut pay := by decide +kernel
  have hsecond : coin.key ∈ (start.after [pay, undo]).handedOut pay := by decide +kernel
  have reachable : start.ledger.Reachable := ⟨[coin], [], [], rfl⟩
  exact ⟨hfirst, hsecond, (handedOut_once reachable).2 [] pay [undo] pay coin.key hfirst hsecond⟩

end Wallet

end UtxoWallet
