import UtxoWallet.Feed
import UtxoWallet.Payment
import UtxoWallet.Proofs.Ledger.Run
import UtxoWallet.Proofs.Wallet.Inputs

/-! # Runs of a book

A book is at work when payments are made and submitted, reports of the indexer come in, and
transactions are swept up. What these do to the coins:

* `Book.abandon_eq`: all that an abandonment does.
* `Book.perform_ledger`: only a payment reserves coins. All others release some keys, or settle an
  update.
* `Ledger.WellKeyed.perform`: each coin stays behind its own key.
-/

namespace UtxoWallet

/-- What a book can be asked for, on whatever terms and with whatever services. -/
inductive Action where
  | transfer (terms : Terms) (services : Services) (outputs : List Output) (ttl : Option Instant)
  | submit (terms : Terms) (services : Services) (tx : Transaction)
  | take (history : Option History) (notice : Notice)
  | expireStale (services : Services)
  | abandonFailed (services : Services)

namespace Book

/-- The book after an action. -/
def perform (book : Book) : Action → Book
  | .transfer terms services outputs ttl => (book.transfer terms services outputs ttl).2
  | .submit terms services tx => (book.submit terms services tx).2
  | .take history notice =>
    match book.take history notice with
    | .ok next => next
    | .error _ => book
  | .expireStale services => (book.expireStale services).2
  | .abandonFailed services => (book.abandonFailed services).2

/-- The book after some actions. -/
def after (book : Book) (actions : List Action) : Book :=
  actions.foldl perform book

theorem after_append (book : Book) (l r : List Action) :
    book.after (l ++ r) = (book.after l).after r :=
  List.foldl_append

/-! ## Reverting and abandoning -/

/-- Those who watch the wallet hear of a revert that finds a coin. -/
def releaseEvents (count : Nat) : List Event :=
  if count = 0 then [] else [.walletPublished]

/-- The other ledgers are asked in the order of their registration. -/
def revertCalls (partners : List Partner) (tx : Transaction) : List Event :=
  partners.map fun partner => .revertAsked partner.name tx (partner.revert tx)

section Abandoning

variable {book : Book} (services : Services)

theorem revert_eq (h : book.wallet.ledger.WellKeyed) (tx : Transaction) :
    (book.revert tx).2 = { book with
      wallet := { book.wallet with ledger := book.wallet.ledger.release tx.inputKeys }
      journal := book.journal ++ releaseEvents (book.wallet.ledger.releasedCount tx.inputKeys) } := by
  rw [revert, Wallet.revert_eq h, releaseEvents]
  dsimp only
  split
  · next none =>
      -- Nothing is put in place then, and nothing would have changed.
      rw [Ledger.releasedCount_eq_zero_iff.mp none, List.append_nil]
  · rfl

theorem askPartners_eq (tx : Transaction) (partners : List Partner) (book : Book) :
    partners.foldl (askPartner tx) book =
      { book with journal := book.journal ++ revertCalls partners tx } := by
  induction partners generalizing book with
  | nil =>
      rw [revertCalls, List.map_nil, List.append_nil]
      rfl
  | cons partner rest ih =>
      rw [List.foldl_cons, ih]
      simp [askPartner, note, revertCalls]

/-- A revert everywhere releases the inputs, and the partners are asked in order. -/
theorem revertEverywhere_eq (h : book.wallet.ledger.WellKeyed) (tx : Transaction) :
    book.revertEverywhere services tx = { book with
      wallet := { book.wallet with ledger := book.wallet.ledger.release tx.inputKeys }
      journal := book.journal ++ releaseEvents (book.wallet.ledger.releasedCount tx.inputKeys) ++
        revertCalls services.partners tx } := by
  rw [revertEverywhere, askPartners_eq, revert_eq h]

/-- All that an abandonment does. -/
theorem abandon_eq (h : book.wallet.ledger.WellKeyed) (tx : Transaction) :
    book.abandon services tx = { book with
      wallet := { book.wallet with ledger := book.wallet.ledger.release tx.inputKeys }
      tracker := book.tracker.clear tx
      journal := book.journal ++ releaseEvents (book.wallet.ledger.releasedCount tx.inputKeys) ++
        revertCalls services.partners tx ++ [.trackerPublished] } := by
  rw [abandon, revertEverywhere_eq services h]
  rfl

/-- To abandon several transactions is to release the inputs of all of them. -/
theorem abandonAll_wallet (h : book.wallet.ledger.WellKeyed) (txs : List Transaction) :
    (txs.foldl (abandon services) book).wallet = { book.wallet with
      ledger := book.wallet.ledger.release (txs.flatMap Transaction.inputKeys) } := by
  induction txs generalizing book with
  | nil =>
      rw [List.flatMap_nil, Ledger.release_nil]
      rfl
  | cons tx txs ih =>
      rw [List.foldl_cons, abandon_eq services h, ih (by exact h.release tx.inputKeys),
        List.flatMap_cons, Ledger.release_append]

theorem abandonAll_tracker (h : book.wallet.ledger.WellKeyed) (txs : List Transaction) :
    (txs.foldl (abandon services) book).tracker = txs.foldl Tracker.clear book.tracker := by
  induction txs generalizing book with
  | nil => rfl
  | cons tx txs ih =>
      rw [List.foldl_cons, abandon_eq services h, ih (by exact h.release tx.inputKeys),
        List.foldl_cons]

end Abandoning

/-! ## Payments -/

theorem balance_ledger (book : Book) (terms : Terms) (ttl : Instant) (tx : Transaction) :
    ∃ keys, (book.balance terms ttl tx).2.wallet.ledger = book.wallet.ledger.reserve keys := by
  rw [balance]
  dsimp only
  rcases hb : book.wallet.balance terms.native terms.fees ttl tx book.bindings with
    ⟨error | ⟨balanced, wallet⟩, bindings⟩
  · exact ⟨[], (Ledger.reserve_nil _).symm⟩
  · dsimp only
    split
    · exact ⟨[], (Ledger.reserve_nil _).symm⟩
    · obtain ⟨added, -, -, -, rfl⟩ := Wallet.balance_reserves hb
      exact ⟨keysOf added, rfl⟩

theorem balance_wellKeyed {book drawn : Book} (h : book.wallet.ledger.WellKeyed) {terms : Terms}
    {ttl : Instant} {tx : Transaction} {outcome : Except WalletError Transaction}
    (hb : book.balance terms ttl tx = (outcome, drawn)) : drawn.wallet.ledger.WellKeyed := by
  obtain ⟨keys, hkeys⟩ := balance_ledger book terms ttl tx
  rw [hb] at hkeys
  rw [hkeys]
  exact h.reserve keys

/-- What is reserved for a transaction is released again if it is not proven. -/
theorem complete_moved {book : Book} (h : book.wallet.ledger.WellKeyed) (terms : Terms)
    (services : Services) (ttl : Instant) (tx : Transaction) :
    book.wallet.ledger.Moved (book.complete terms services ttl tx).2.wallet.ledger := by
  obtain ⟨keys, hkeys⟩ := balance_ledger book terms ttl tx
  rw [complete]
  rcases hb : book.balance terms ttl tx with ⟨error | balanced, next⟩
  · rw [hb] at hkeys
    show book.wallet.ledger.Moved next.wallet.ledger
    rw [hkeys]
    exact .reserve _ keys
  · rw [hb] at hkeys
    have hnext := balance_wellKeyed h hb
    show book.wallet.ledger.Moved (next.proveOrRevert services balanced).2.wallet.ledger
    rw [proveOrRevert]
    split
    · show book.wallet.ledger.Moved next.wallet.ledger
      rw [hkeys]
      exact .reserve _ keys
    · refine ⟨keys, balanced.inputKeys, ?_⟩
      rw [revertEverywhere_eq services hnext, ← hkeys]

/-- A payment only moves coins between the maps, whatever comes of it. -/
theorem transfer_moved {book : Book} (h : book.wallet.ledger.WellKeyed) (terms : Terms)
    (services : Services) (outputs : List Output) (ttl : Option Instant) :
    book.wallet.ledger.Moved (book.transfer terms services outputs ttl).2.wallet.ledger := by
  have drawn : ({ book with bindings := book.bindings.rest } : Book).wallet.ledger.WellKeyed := h
  exact complete_moved drawn terms services _ _

/-! ## Submissions and reports -/

/-- A submission releases coins at most. -/
theorem submit_ledger {book : Book} (h : book.wallet.ledger.WellKeyed) (terms : Terms)
    (services : Services) (tx : Transaction) :
    ∃ keys, (book.submit terms services tx).2.wallet.ledger =
      book.wallet.ledger.release keys := by
  rw [submit]
  split
  · exact ⟨[], (Ledger.release_nil _).symm⟩
  · refine ⟨tx.inputKeys, ?_⟩
    rw [abandon_eq services (by exact h)]
    rfl

theorem record_wallet (history : Option History) (book : Book) (update : Update) :
    (book.record history update).wallet = book.wallet := by
  cases history with
  | none => rfl
  | some history =>
      rw [record]
      split <;> rfl

theorem record_tracker (history : Option History) (book : Book) (update : Update) :
    (book.record history update).tracker = book.tracker := by
  cases history with
  | none => rfl
  | some history =>
      rw [record]
      split <;> rfl

/-- A settled transaction is always taken in. -/
theorem applyNotice_transaction (book : Book) (update : Update) :
    book.applyNotice (.transaction update) = .ok (book.publishWallet
      { book.wallet with
        ledger := book.wallet.ledger.settled update
        progress := book.wallet.progress.record update.id }) := by
  rw [applyNotice, Wallet.applyNotice, Ledger.settleLedger_eq]
  rfl

theorem perform_take_transaction (book : Book) (history : Option History) (update : Update) :
    (book.perform (.take history (.transaction update))).wallet =
      { book.wallet with
        ledger := book.wallet.ledger.settled update
        progress := book.wallet.progress.record update.id } := by
  rw [perform, take, applyNotice_transaction]
  exact record_wallet history _ update

/-! ## Every action -/

/-- All that an action can do to the ledger. -/
theorem perform_ledger {book : Book} (h : book.wallet.ledger.WellKeyed) (action : Action) :
    (∃ terms services outputs ttl, action = .transfer terms services outputs ttl) ∨
    (∃ keys, (book.perform action).wallet.ledger = book.wallet.ledger.release keys) ∨
    (∃ update, (book.perform action).wallet.ledger = book.wallet.ledger.settled update) := by
  cases action with
  | transfer terms services outputs ttl => exact .inl ⟨terms, services, outputs, ttl, rfl⟩
  | submit terms services tx => exact .inr (.inl (submit_ledger h terms services tx))
  | take history notice =>
      cases notice with
      | progress highest => exact .inr (.inl ⟨[], (Ledger.release_nil _).symm⟩)
      | transaction update =>
          refine .inr (.inr ⟨update, ?_⟩)
          rw [perform_take_transaction]
  | expireStale services =>
      exact .inr (.inl ⟨_, congrArg Wallet.ledger (abandonAll_wallet services h _)⟩)
  | abandonFailed services =>
      exact .inr (.inl ⟨_, congrArg Wallet.ledger (abandonAll_wallet services h _)⟩)

end Book

/-- No action puts a coin behind a key that is not its own. -/
theorem Ledger.WellKeyed.perform {book : Book} (h : book.wallet.ledger.WellKeyed)
    (action : Action) : (book.perform action).wallet.ledger.WellKeyed := by
  rcases Book.perform_ledger h action with
    ⟨terms, services, outputs, ttl, rfl⟩ | ⟨keys, hkeys⟩ | ⟨update, hupdate⟩
  · exact (Book.transfer_moved h terms services outputs ttl).wellKeyed h
  · rw [hkeys]
    exact h.release keys
  · rw [hupdate]
    exact h.settled update

theorem Ledger.WellKeyed.after {book : Book} (h : book.wallet.ledger.WellKeyed)
    (actions : List Action) : (book.after actions).wallet.ledger.WellKeyed := by
  induction actions generalizing book with
  | nil => exact h
  | cons action rest ih => exact ih (h.perform action)

end UtxoWallet
