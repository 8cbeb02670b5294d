import UtxoWallet.Proofs.Book.Run
import UtxoWallet.Proofs.Ledger.Holdings

/-! # Coins are conserved

Whatever is asked of a book and of its wallet, with whatever outcome, coins only move between the two
maps of the ledger: some are reserved, and some released (`Book.serve_moved`). Just the report of a
settled transaction brings coins in and takes coins out. So a run without such a report conserves the
coins with all that is known of them, and the total balances: `Book.coins_conserved`.
-/

namespace UtxoWallet

/-- What a book or its wallet can be asked for. -/
inductive Request where
  | balance (terms : Terms) (ttl : Instant) (tx : Transaction)
  | revert (tx : Transaction)
  | balanceAndMerge (terms : Terms) (services : Services) (a b : Transaction)
  | disconnect
  | act (action : Action)

namespace Book

/-- The book after a request, whether it succeeds or fails. -/
def serve (book : Book) : Request → Book
  | .balance terms ttl tx => (book.balance terms ttl tx).2
  | .revert tx => (book.revert tx).2
  | .balanceAndMerge terms services a b => (book.balanceAndMerge terms services a b).2
  | .disconnect => book.disconnect
  | .act action => book.perform action

/-- The book after some requests. -/
def serveAll (book : Book) (requests : List Request) : Book :=
  requests.foldl serve book

theorem balanceAndMerge_moved {book : Book} (h : book.wallet.ledger.WellKeyed) (terms : Terms)
    (services : Services) (a b : Transaction) :
    book.wallet.ledger.Moved (book.balanceAndMerge terms services a b).2.wallet.ledger := by
  rw [balanceAndMerge]
  split
  · exact .refl _
  · split
    · exact .refl _
    · exact complete_moved h terms services _ _

theorem disconnect_wallet_ledger (book : Book) :
    book.disconnect.wallet.ledger = book.wallet.ledger := by
  rw [disconnect]
  split <;> rfl

/-- Whatever settles nothing only moves coins between the maps. -/
theorem perform_moved {book : Book} (h : book.wallet.ledger.WellKeyed) {action : Action}
    (unsettled : ∀ history update, action ≠ .take history (.transaction update)) :
    book.wallet.ledger.Moved (book.perform action).wallet.ledger := by
  cases action with
  | transfer terms services outputs ttl => exact transfer_moved h terms services outputs ttl
  | submit terms services tx =>
      obtain ⟨keys, hkeys⟩ := submit_ledger h terms services tx
      rw [perform, hkeys]
      exact .release _ keys
  | take history notice =>
      cases notice with
      | progress highest => exact .refl _
      | transaction update => exact absurd rfl (unsettled history update)
  | expireStale services =>
      rw [perform, expireStale, abandonAll_wallet services h]
      exact .release _ _
  | abandonFailed services =>
      rw [perform, abandonFailed, abandonAll_wallet services h]
      exact .release _ _

/-- **One request.** Unless a settled transaction is reported, coins only move between the maps. -/
theorem serve_moved {book : Book} (h : book.wallet.ledger.WellKeyed) {request : Request}
    (unsettled : ∀ history update, request ≠ .act (.take history (.transaction update))) :
    book.wallet.ledger.Moved (book.serve request).wallet.ledger := by
  cases request with
  | balance terms ttl tx =>
      obtain ⟨keys, hkeys⟩ := balance_ledger book terms ttl tx
      rw [serve, hkeys]
      exact .reserve _ keys
  | revert tx =>
      rw [serve, revert_eq h]
      exact .release _ tx.inputKeys
  | balanceAndMerge terms services a b => exact balanceAndMerge_moved h terms services a b
  | disconnect =>
      rw [serve, disconnect_wallet_ledger]
      exact .refl _
  | act action =>
      refine perform_moved h fun history update same => ?_
      exact unsettled history update (congrArg Request.act same)

/-- **A run.** The coins stay the same, and each in one map. -/
theorem serveAll_coin? {book : Book} (keyed : book.wallet.ledger.WellKeyed)
    (exclusive : book.wallet.ledger.Exclusive) {requests : List Request}
    (unsettled : ∀ history update, .act (.take history (.transaction update)) ∉ requests) :
    (book.serveAll requests).wallet.ledger.Exclusive ∧
      ∀ key, (book.serveAll requests).wallet.ledger.coin? key = book.wallet.ledger.coin? key := by
  induction requests generalizing book with
  | nil => exact ⟨exclusive, fun _ => rfl⟩
  | cons request rest ih =>
      have first : ∀ history update, request ≠ .act (.take history (.transaction update)) := by
        intro history update same
        exact unsettled history update (same ▸ List.mem_cons_self)
      have others : ∀ history update, .act (.take history (.transaction update)) ∉ rest := by
        intro history update hmem
        exact unsettled history update (List.mem_cons_of_mem request hmem)
      have moved := serve_moved keyed first
      obtain ⟨hend, hcoins⟩ := ih (moved.wellKeyed keyed) (moved.exclusive exclusive) others
      exact ⟨hend, fun key => (hcoins key).trans (moved.coin?_eq exclusive key)⟩

/-- **Coins are conserved.** Let a run start from a ledger with disjoint maps, and each coin behind
its own key. If it has no report of a settled transaction, both maps together hold the same coins
afterwards, and the total balances are the same. -/
theorem coins_conserved {book : Book} (keyed : book.wallet.ledger.WellKeyed)
    (exclusive : book.wallet.ledger.Exclusive) {requests : List Request}
    (unsettled : ∀ history update, .act (.take history (.transaction update)) ∉ requests) :
    let before := book.wallet.ledger
    let after := (book.serveAll requests).wallet.ledger
    after.Exclusive ∧ (∀ key, after.coin? key = before.coin? key) ∧
      after.totalBalances = before.totalBalances := by
  obtain ⟨hexclusive, hcoins⟩ := serveAll_coin? keyed exclusive unsettled
  exact ⟨hexclusive, hcoins, Ledger.totalBalances_eq hexclusive exclusive hcoins⟩

/-- A coin of a hundred goes back when its payment is not proven, and stays pending when it is. -/
theorem coins_conserved_of_payments :
    let coin := Coin.ofValue ⟨100, by decide⟩
    let terms : Terms := { (default : Terms) with native := coin.token }
    let pay (prove : Transaction → Except String Transaction) : Request :=
      .act (.transfer terms ⟨Instant.latest, prove, fun _ => ⟨0, .ok .finalized⟩, []⟩
        [⟨⟨40, by decide⟩, "bob", coin.token⟩] none)
    let book := openWith { Wallet.start "pk" "net" with ledger := .restore [coin] [] } .empty .fresh
    let requests := [pay (fun _ => .error "down"), pay .ok, .disconnect]
    let before := book.wallet.ledger
    let after := (book.serveAll requests).wallet.ledger
    before ≠ after ∧ after.Exclusive ∧ (∀ key, after.coin? key = before.coin? key) ∧
      after.totalBalances = before.totalBalances := by
  intro coin terms pay book requests before after
  have moved : before ≠ after := by decide +kernel
  have keyed : before.WellKeyed := .restore [coin] []
  have exclusive : before.Exclusive := .restore [coin] []
  have unsettled : ∀ history update,
      .act (.take history (.transaction update)) ∉ requests := by
    intro history update
    simp [requests, pay]
  exact ⟨moved, coins_conserved keyed exclusive unsettled⟩

end Book

end UtxoWallet
