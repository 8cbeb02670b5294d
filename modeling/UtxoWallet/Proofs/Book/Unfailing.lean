import UtxoWallet.Proofs.Book.Stream
import UtxoWallet.Proofs.Selection.Distinct
import UtxoWallet.Proofs.Wallet.Order
import UtxoWallet.Proofs.Wallet.Run
import UtxoWallet.Proofs.Wallet.Snapshot

/-! # Errors that never show

Some steps of a wallet could fail: the selected coins are spent one after the other, and each time the
ledger is asked for the coin; a revert asks it for each coin that it has just found pending; an update
is refused on the route for the other status. None of these fails. A wallet at work keeps each coin
behind its own key (`Wallet.Opened.wellKeyed`), and the selected coins have distinct keys
(`Wallet.selectFor_spends`), so that one which is spent leaves the others where they are.

`Wallet.internal_errors_unreachable` puts this together.
-/

namespace UtxoWallet

/-! ## Coins that are spent as a whole -/

/-- From one ledger to the other some coins have become pending, all of which were available, and no
other coin has moved. -/
structure Ledger.Spends (before : Ledger) (coins : List Coin) (after : Ledger) : Prop where
  distinct : (coins.map (·.key)).Nodup
  available : ∀ coin ∈ coins, before.available.get? coin.key = some coin
  pending : ∀ coin ∈ coins, after.available.get? coin.key = none ∧
    after.pending.get? coin.key = some coin
  others : ∀ key ∉ coins.map (·.key), after.available.get? key = before.available.get? key ∧
    after.pending.get? key = before.pending.get? key

namespace Ledger

variable {ledger : Ledger} {coins : List Coin}

theorem spends_reserve (distinct : (coins.map (·.key)).Nodup)
    (available : ∀ coin ∈ coins, ledger.available.get? coin.key = some coin) :
    ledger.Spends coins (ledger.reserve (coins.map (·.key))) where
  distinct := distinct
  available := available
  pending coin hmem := by
    have hkey : coin.key ∈ coins.map (·.key) := List.mem_map_of_mem hmem
    rw [get?_available_reserve, get?_pending_reserve, if_pos hkey, if_pos hkey,
      available coin hmem]
    exact ⟨rfl, rfl⟩
  others key hkey := by
    rw [get?_available_reserve, get?_pending_reserve, if_neg hkey, if_neg hkey]
    exact ⟨rfl, rfl⟩

/-- Coins that are there, each under its own key, are spent one after the other. -/
theorem Spends.foldlM_spend {after : Ledger} (h : ledger.Spends coins after) :
    (coins.map (·.key)).foldlM spend ledger = .ok (ledger.reserve (coins.map (·.key))) := by
  refine spendAll_eq_ok.mpr ⟨h.distinct, fun key hmem => ?_, rfl⟩
  obtain ⟨coin, hcoin, rfl⟩ := List.mem_map.mp hmem
  rw [OrderedMap.contains, h.available coin hcoin]
  rfl

theorem WellKeyed.pairwise_availableCoins (h : ledger.WellKeyed) :
    ledger.availableCoins.Pairwise fun a b => a.key ≠ b.key := by
  have distinct := ledger.available.distinct_entries
  rw [← keyed_values h.available, keyed, List.pairwise_map] at distinct
  exact distinct

theorem WellKeyed.get?_of_mem_availableCoins (h : ledger.WellKeyed) {coin : Coin}
    (hmem : coin ∈ ledger.availableCoins) : ledger.available.get? coin.key = some coin := by
  obtain ⟨key, hcoin⟩ := OrderedMap.mem_values_iff.mp hmem
  rwa [h.available key coin hcoin]

end Ledger

namespace Wallet

variable {wallet : Wallet} {native : TokenType} {fees : Fees} {tx : Transaction}
  {selection : Selection Coin}

/-! ## Balancing -/

/-- The selected coins are available and distinct, so all of them can be spent. -/
theorem selectFor_spends (keyed : wallet.ledger.WellKeyed)
    (h : wallet.selectFor native fees tx = .ok selection) :
    wallet.ledger.Spends selection.inputs
      (wallet.ledger.reserve (selection.inputs.map (·.key))) := by
  obtain ⟨imbalances, -, hselection⟩ := selectFor_eq_ok h
  have symmetric : Std.Symm fun a b : Coin => a.key ≠ b.key := ⟨fun _ _ => Ne.symm⟩
  refine Ledger.spends_reserve ?_ fun coin hmem => ?_
  · exact List.pairwise_map.mpr
      (Selection.pairwise_ofImbalances keyed.pairwise_availableCoins hselection)
  · exact keyed.get?_of_mem_availableCoins (Selection.mem_of_ofImbalances hselection coin hmem)

/-- The keys that the balancing intent lists are those of the selected coins. -/
theorem keys_balancingIntent (wallet : Wallet) (ttl : Instant) (bindings : BindingSource)
    (selection : Selection Coin) :
    (wallet.balancingIntent ttl bindings selection).inputs.map (·.key) =
      selection.inputs.map (·.key) := by
  show (selection.inputs.map (·.toUtxo)).map (·.key) = _
  rw [List.map_map]
  rfl

theorem selectFor_ne_ledger (wallet : Wallet) (native : TokenType) (fees : Fees) (tx : Transaction)
    (error : LedgerError) : wallet.selectFor native fees tx ≠ .error (.ledger error) := by
  intro h
  rw [selectFor] at h
  split at h
  · cases h
  · rcases bind_eq_error.mp h with h | ⟨imbalances, -, h⟩
    · obtain ⟨_, -, hother⟩ := mapError_eq_error.mp h
      cases hother
    · obtain ⟨_, -, hother⟩ := mapError_eq_error.mp h
      cases hother

/-- What comes of a selection: the transaction gets its intent, and all of its coins are spent. -/
theorem balance_of_selectFor (keyed : wallet.ledger.WellKeyed)
    (h : wallet.selectFor native fees tx = .ok selection) (ttl : Instant)
    (bindings : BindingSource) :
    (wallet.balance native fees ttl tx bindings).1 =
      if selection.isEmpty then .ok (tx, wallet)
      else ((tx.withIntent (wallet.balancingIntent ttl bindings selection)).mapError
        WalletError.transaction).map fun balanced =>
          (balanced, { wallet with
            ledger := wallet.ledger.reserve (selection.inputs.map (·.key)) }) := by
  rw [balance, h]
  dsimp only
  split
  · rfl
  · show wallet.commit tx (wallet.balancingIntent ttl bindings selection) = _
    rw [commit, keys_balancingIntent]
    dsimp only
    rw [(selectFor_spends keyed h).foldlM_spend]
    cases tx.withIntent (wallet.balancingIntent ttl bindings selection) <;> rfl

/-- A balance never misses a coin that it has selected. -/
theorem balance_ne_ledger (keyed : wallet.ledger.WellKeyed) (native : TokenType) (fees : Fees)
    (ttl : Instant) (tx : Transaction) (bindings : BindingSource) (error : LedgerError) :
    (wallet.balance native fees ttl tx bindings).1 ≠ .error (.ledger error) := by
  intro hfails
  cases h : wallet.selectFor native fees tx with
  | error other =>
      rw [balance, h] at hfails
      cases hfails
      exact wallet.selectFor_ne_ledger native fees tx error h
  | ok selection =>
      rw [balance_of_selectFor keyed h] at hfails
      split at hfails
      · cases hfails
      · obtain ⟨_, -, hother⟩ := mapError_eq_error.mp (map_eq_error.mp hfails)
        cases hother

/-! ## Wallets at work -/

/-- How a wallet goes to work. -/
inductive Opened : Wallet → Prop where
  | new (owner network : String) : Opened (start owner network)
  | takenUp {text network : String} {wallet : Wallet} (h : deserialize text network = .ok wallet) :
    Opened wallet

/-- A wallet goes to work with each coin behind its own key. -/
theorem Opened.wellKeyed {first : Wallet} (opened : first.Opened) : first.ledger.WellKeyed := by
  cases opened with
  | new owner network => exact .restore [] []
  | takenUp h => exact (persistable_of_deserialize h).1.keyed

/-- **Internal errors are unreachable.** Let a wallet be new or taken up from any text, and let it
balance, revert, take reports in and lose its connection with any arguments. Then

* each of its coins is behind its own key;
* it never fails to balance a transaction because of a coin that it does not find: if it selects
  coins, all of them are available and distinct, and they become pending as soon as the intent that
  spends them is in the transaction;
* it never fails to revert a transaction or to take a report in;
* so the stream fails only with what went wrong on the way. -/
theorem internal_errors_unreachable {first : Wallet} (opened : first.Opened)
    (operations : List Operation) :
    let wallet := first.after operations
    wallet.ledger.WellKeyed ∧
    (∀ native fees ttl tx bindings,
      (∀ error, (wallet.balance native fees ttl tx bindings).1 ≠ .error (.ledger error)) ∧
      ∀ selection, wallet.selectFor native fees tx = .ok selection →
        ∃ ledger, wallet.ledger.Spends selection.inputs ledger ∧
          (wallet.balance native fees ttl tx bindings).1 =
            if selection.isEmpty then .ok (tx, wallet)
            else ((tx.withIntent (wallet.balancingIntent ttl bindings selection)).mapError
              WalletError.transaction).map fun balanced => (balanced, { wallet with ledger })) ∧
    (∀ tx, ∃ outcome, wallet.revert tx = .ok outcome) ∧
    (∀ notice, ∃ next, wallet.applyNotice notice = .ok next) ∧
    ∀ (book : Book) history stop items error, book.wallet = wallet →
      (book.run history stop items).1 = .error error → .error error ∈ items := by
  intro wallet
  have keyed : wallet.ledger.WellKeyed := opened.wellKeyed.operateAll operations
  refine ⟨keyed, fun native fees ttl tx bindings => ⟨?_, fun selection h => ?_⟩, fun tx => ?_,
    fun notice => ?_, fun book history stop items error _ h => Book.mem_of_run_error h⟩
  · exact balance_ne_ledger keyed native fees ttl tx bindings
  · exact ⟨_, selectFor_spends keyed h, balance_of_selectFor keyed h ttl bindings⟩
  · exact ⟨_, revert_eq keyed tx⟩
  · exact ⟨_, wallet.applyNotice_eq notice⟩

/-- A wallet is taken up, pays from its two coins, and takes the payment back. The next payment
spends both coins once more, and the stream fails on the way. -/
theorem internal_errors_unreachable_of_two_coins :
    let coin := Coin.ofValue ⟨100, by decide⟩
    let other : Coin := { coin with key := ⟨⟨[0x22]⟩, 0⟩, token := ⟨[0xFF]⟩ }
    let first := { start "pk" "net" with ledger := .restore [coin, other] [] }
    let tx := Transaction.ofIntent "net" ⟨0, some ⟨[], [⟨⟨40, by decide⟩, "bob", coin.token⟩,
      ⟨⟨70, by decide⟩, "bob", other.token⟩]⟩, .zero⟩
    let operations : List Operation := [.balance coin.token .free Instant.latest tx .fresh,
      .revert (Transaction.ofIntent "net" ⟨0, some ⟨[other.toUtxo, coin.toUtxo], []⟩, .zero⟩),
      .disconnect]
    let wallet := first.after operations
    let items : List FeedItem := [.ok (.progress 9), .error (.transport "reset by peer")]
    first.Opened ∧ wallet.ledger.WellKeyed ∧
      (∃ selection ledger, wallet.selectFor coin.token .free tx = .ok selection ∧
        wallet.ledger.Spends selection.inputs ledger ∧
        ∃ balanced, (wallet.balance coin.token .free Instant.latest tx .fresh).1 =
          .ok (balanced, { wallet with ledger })) ∧
      ((Book.openWith wallet default .fresh).run none none items).1 =
        .error (.transport "reset by peer") ∧
      .error (.transport "reset by peer") ∈ items := by
  intro coin other first tx operations wallet items
  have opened : first.Opened := by
    have timeless (t : Instant) (h : t ∈ (none : Option Instant)) : t.Representable :=
      absurd h (Option.not_mem_none t)
    have representable : first.ledger.Representable :=
      .restore (List.forall_mem_cons.mpr ⟨timeless, List.forall_mem_singleton.mpr timeless⟩)
        fun _ h => absurd h List.not_mem_nil
    exact .takenUp (deserialize_serialize ⟨rfl, .restore _ _, .restore _ _, representable⟩)
  obtain ⟨keyed, balances, -, -, fails⟩ := internal_errors_unreachable opened operations
  have failed : ((Book.openWith wallet default .fresh).run none none items).1 =
      .error (.transport "reset by peer") := rfl
  have chosen : (wallet.selectFor coin.token .free tx).toOption.map (·.isEmpty) = some false := by
    decide +kernel
  refine ⟨opened, keyed, ?_, failed,
    fails (.openWith wallet default .fresh) none none items _ rfl failed⟩
  cases h : wallet.selectFor coin.token .free tx with
  | error error =>
      rw [h] at chosen
      cases chosen
  | ok selection =>
      rw [h] at chosen
      have nonempty : selection.isEmpty = false := Option.some.inj chosen
      obtain ⟨ledger, spends, balanced⟩ :=
        (balances coin.token .free Instant.latest tx .fresh).2 selection h
      rw [nonempty, if_neg Bool.false_ne_true] at balanced
      exact ⟨selection, ledger, rfl, spends, _, balanced⟩

end Wallet

end UtxoWallet
