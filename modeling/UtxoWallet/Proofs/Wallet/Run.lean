import UtxoWallet.Proofs.Wallet.Inputs

/-! # Runs of a wallet

A wallet balances transactions, reverts them, takes reports of the indexer in, and loses its
connection, in any order. An operation that fails leaves it as it is.

* `Wallet.perform_ledger`: what an operation does to the ledger. Only balancing reserves coins.
* `Ledger.WellKeyed.operate`: each coin stays behind its own key.
-/

namespace UtxoWallet

namespace Wallet

/-- What a wallet can be asked for, with whatever arguments. -/
inductive Operation where
  | balance (native : TokenType) (fees : Fees) (ttl : Instant) (tx : Transaction)
      (bindings : BindingSource)
  | revert (tx : Transaction)
  | apply (notice : Notice)
  | disconnect

/-- The wallet after an operation. -/
def perform (wallet : Wallet) : Operation → Wallet
  | .balance native fees ttl tx bindings =>
    match (wallet.balance native fees ttl tx bindings).1 with
    | .ok (_, next) => next
    | .error _ => wallet
  | .revert tx =>
    match wallet.revert tx with
    | .ok (next, _) => next
    | .error _ => wallet
  | .apply notice =>
    match wallet.applyNotice notice with
    | .ok next => next
    | .error _ => wallet
  | .disconnect => wallet.disconnect

/-- The wallet after some operations. -/
def after (wallet : Wallet) (operations : List Operation) : Wallet :=
  operations.foldl perform wallet

theorem after_append (wallet : Wallet) (l r : List Operation) :
    wallet.after (l ++ r) = (wallet.after l).after r :=
  List.foldl_append

/-- The keys that are listed in the intent which an operation appends, if it balances a transaction
and succeeds. -/
def handedOut (wallet : Wallet) : Operation → List UtxoKey
  | .balance native fees ttl tx bindings =>
    match (wallet.balance native fees ttl tx bindings).1 with
    | .ok (balanced, _) => keysOf (balanced.intents.entries.drop tx.intents.size)
    | .error _ => []
  | .revert _ | .apply _ | .disconnect => []

/-- What is handed out is distinct, was available, and is all that becomes pending. -/
theorem handedOut_spec (wallet : Wallet) (native : TokenType) (fees : Fees) (ttl : Instant)
    (tx : Transaction) (bindings : BindingSource) :
    let operation := Operation.balance native fees ttl tx bindings
    (wallet.handedOut operation).Nodup ∧
      (∀ key ∈ wallet.handedOut operation, wallet.ledger.available.contains key) ∧
      wallet.perform operation =
        { wallet with ledger := wallet.ledger.reserve (wallet.handedOut operation) } := by
  intro operation
  rcases h : wallet.balance native fees ttl tx bindings with
    ⟨error | ⟨balanced, wallet'⟩, bindings'⟩
  · -- A refused call hands out nothing and leaves the wallet alone.
    have hkeys : wallet.handedOut operation = [] := by
      simp only [operation, handedOut, h]
    have hsame : wallet.perform operation = wallet := by
      simp only [operation, perform, h]
    rw [hkeys, hsame, Ledger.reserve_nil]
    exact ⟨.nil, nofun, rfl⟩
  · obtain ⟨added, hentries, hspec⟩ := balance_reserves h
    have hkeys : wallet.handedOut operation = keysOf added := by
      simp only [operation, handedOut, h, hentries, OrderedMap.size, List.drop_left]
    have hnext : wallet.perform operation = wallet' := by
      simp only [operation, perform, h]
    rw [hkeys, hnext]
    exact hspec

/-- A revert releases the inputs of its transaction. -/
theorem perform_revert {wallet : Wallet} (h : wallet.ledger.WellKeyed) (tx : Transaction) :
    wallet.perform (.revert tx) =
      { wallet with ledger := wallet.ledger.release tx.inputKeys } := by
  rw [perform, revert_eq h]

/-- A settled transaction goes to the ledger and to the progress. -/
theorem perform_transaction (wallet : Wallet) (update : Update) :
    wallet.perform (.apply (.transaction update)) = { wallet with
      ledger := wallet.ledger.settled update
      progress := wallet.progress.record update.id } := by
  rw [perform, applyNotice, Ledger.settleLedger_eq]

/-- All that an operation can do to the ledger. -/
theorem perform_ledger {wallet : Wallet} (h : wallet.ledger.WellKeyed) (operation : Operation) :
    (wallet.perform operation).ledger = wallet.ledger.reserve (wallet.handedOut operation) ∨
    (∃ tx, operation = .revert tx ∧
      (wallet.perform operation).ledger = wallet.ledger.release tx.inputKeys) ∨
    (∃ update, operation = .apply (.transaction update) ∧
      (wallet.perform operation).ledger = wallet.ledger.settled update) := by
  cases operation with
  | balance native fees ttl tx bindings =>
      left
      rw [(handedOut_spec wallet native fees ttl tx bindings).2.2]
  | revert tx =>
      refine .inr (.inl ⟨tx, rfl, ?_⟩)
      rw [perform_revert h]
  | apply notice =>
      cases notice with
      | progress highest => exact .inl wallet.ledger.reserve_nil.symm
      | transaction update =>
          refine .inr (.inr ⟨update, rfl, ?_⟩)
          rw [perform_transaction]
  | disconnect => exact .inl wallet.ledger.reserve_nil.symm

end Wallet

/-- No operation puts a coin behind a key that is not its own. -/
theorem Ledger.WellKeyed.operate {wallet : Wallet} (h : wallet.ledger.WellKeyed)
    (operation : Wallet.Operation) : (wallet.perform operation).ledger.WellKeyed := by
  rcases Wallet.perform_ledger h operation with hs | ⟨tx, -, hs⟩ | ⟨update, -, hs⟩
  · rw [hs]
    exact h.reserve _
  · rw [hs]
    exact h.release tx.inputKeys
  · rw [hs]
    exact h.settled update

theorem Ledger.WellKeyed.operateAll {wallet : Wallet} (h : wallet.ledger.WellKeyed)
    (operations : List Wallet.Operation) : (wallet.after operations).ledger.WellKeyed := by
  induction operations generalizing wallet with
  | nil => exact h
  | cons operation rest ih => exact ih (h.operate operation)

end UtxoWallet
