import UtxoWallet.Proofs.Book.Replay
import UtxoWallet.Proofs.Wallet.Funds

/-! # The accounts of a payment

A payment that comes out is one that the wallet has balanced, as the prover has left it
(`Book.transfer_eq_ok`). From the call to its confirmation the wallet loses what it was asked to pay,
the fees, and at most the fee of one more output: `Book.transfer_accounts`.
-/

namespace UtxoWallet

namespace Book

variable {book next : Book} {terms : Terms} {ttl : Instant} {tx balanced : Transaction}

theorem balance_eq_ok (h : book.balance terms ttl tx = (.ok balanced, next)) :
    ∃ bindings, book.wallet.balance terms.native terms.fees ttl tx book.bindings =
      (.ok (balanced, next.wallet), bindings) := by
  rw [balance] at h
  dsimp only at h
  rcases hb : book.wallet.balance terms.native terms.fees ttl tx book.bindings with
    ⟨error | ⟨other, wallet⟩, bindings⟩
  · rw [hb] at h
    cases h
  · rw [hb] at h
    dsimp only at h
    obtain ⟨rfl, hnext⟩ : other = balanced ∧
        (if other = tx then { book with bindings } else
          ({ book with bindings } : Book).publishWallet wallet) = next := by
      cases h
      exact ⟨rfl, rfl⟩
    refine ⟨bindings, ?_⟩
    split at hnext
    · next same =>
        -- What leaves the transaction as it is reserves nothing.
        obtain ⟨added, hentries, -, -, hwallet⟩ := Wallet.balance_reserves hb
        rw [same, List.self_eq_append_right] at hentries
        rw [hentries, keysOf, List.flatMap_nil, List.map_nil, Ledger.reserve_nil] at hwallet
        rw [hwallet, ← hnext]
    · rw [← hnext]
      rfl

/-- A payment that succeeds has balanced an intent of its outputs, and the prover has let it pass.
-/
theorem transfer_eq_ok {services : Services} {outputs : List Output} {ttl : Option Instant}
    (h : book.transfer terms services outputs ttl = (.ok tx, next)) :
    ∃ intent balanced bindings bindings', intent.inputs = [] ∧ intent.outputs = outputs ∧
      book.wallet.balance terms.native terms.fees (ttl.getD (defaultTtl terms services))
        (.ofIntent book.wallet.network intent) bindings = (.ok (balanced, next.wallet), bindings') ∧
      services.prove balanced = .ok tx := by
  rw [transfer, complete] at h
  dsimp only at h
  split at h
  · cases h
  · next balanced drawn hbalance =>
      obtain ⟨bindings, hbalance⟩ := balance_eq_ok hbalance
      rw [proveOrRevert] at h
      split at h
      · next proven hprove =>
          cases h
          exact ⟨_, balanced, _, bindings, rfl, rfl, hbalance, mapError_eq_ok.mp hprove⟩
      · cases h

/-- A settled transaction is always taken in, by the ledger too. -/
theorem take_transaction_ledger (history : Option History) (book : Book) (update : Update) :
    ∃ last, book.take history (.transaction update) = .ok last ∧
      last.wallet.ledger = book.wallet.ledger.settled update := by
  obtain ⟨last, hlast, heffect⟩ := take_eq_ok history book (.transaction update)
  exact ⟨last, hlast, congrArg (fun effect => effect.1.ledger) heffect⟩

/-- **The accounts of a payment.** Let a wallet, whose ledger holds no coin in both maps, pay outputs
to others, with a prover that leaves the transaction as it is. When the payment is confirmed, no input
is left in the ledger, and what both maps together are worth has gone down by the outputs that were
asked for, the fees of all inputs and outputs, and at most the fee of one more output. Only if an
intent has more outputs than there are places, the change behind the last place is lost as well. -/
theorem transfer_accounts {services : Services} {outputs : List Output} {ttl : Option Instant}
    {update : Update} (reachable : book.wallet.ledger.Reachable)
    (exclusive : book.wallet.ledger.Exclusive)
    (foreign : ∀ output ∈ outputs, output.owner ≠ book.wallet.owner)
    (prover : ∀ given proven, services.prove given = .ok proven →
      ∃ mark, proven = { given with proven := mark })
    (paid : book.transfer terms services outputs ttl = (.ok tx, next))
    (confirmed : update.Confirms next.wallet tx) (history : Option History) :
    ∃ last, next.take history (.transaction update) = .ok last ∧
      (∀ key ∈ tx.inputKeys, last.wallet.ledger.coin? key = none) ∧
      let unnamed := tx.unnamed.filter (·.owner = book.wallet.owner)
      ((∀ intent ∈ tx.intents.values, intent.outputs.length ≤ UInt32.size) → unnamed = []) ∧
      ∃ slack, (slack = 0 ∨ slack = terms.fees.output.toNat) ∧ ∀ token,
        worth token book.wallet.ledger.coins =
          worth token last.wallet.ledger.coins + worth token outputs + worth token unnamed +
            if token = terms.native then
              terms.fees.input.toNat * tx.inputs.length +
                terms.fees.output.toNat * tx.outputs.length + slack
            else 0 := by
  have keyed := Ledger.reachable_iff_wellKeyed.mp reachable
  obtain ⟨intent, balanced, _, _, hinputs, rfl, hbalance, hprove⟩ := transfer_eq_ok paid
  obtain ⟨mark, rfl⟩ := prover balanced tx hprove
  obtain ⟨howner, moved, coins, added, funds, slack, hslack, haccounts⟩ :=
    Wallet.balance_funds exclusive hbalance
  -- The proof does not change what the transaction spends and creates.
  have hconfirmed : update.Confirms next.wallet balanced :=
    ⟨confirmed.applied, confirmed.spent, confirmed.created, confirmed.fresh⟩
  have noInputs : (Transaction.ofIntent book.wallet.network intent).inputs = [] := by
    rw [Transaction.inputs_ofIntent, hinputs]
  have houtputs := Transaction.outputs_ofIntent book.wallet.network intent
  rw [← houtputs, ← howner] at foreign
  have keyed' := moved.wellKeyed keyed
  have exclusive' := moved.exclusive exclusive
  obtain ⟨last, hlast, hledger⟩ := take_transaction_ledger history next update
  refine ⟨last, hlast, fun key hkey => ?_, fun fits => ?_, slack, hslack, fun token => ?_⟩
  · rw [hledger]
    exact funds.coin?_confirmed noInputs keyed' exclusive' hconfirmed hkey
  · rw [Transaction.unnamed_eq_nil fits, List.filter_nil]
  · have hworth := funds.worth_confirmed noInputs keyed' exclusive' hconfirmed foreign token
    have hsum := haccounts token
    rw [Transaction.worthIn, noInputs, worth_nil, Transaction.worthOut, houtputs] at hsum
    rw [worth_perm (moved.coins_perm exclusive), howner] at hworth
    rw [hledger]
    show worth token book.wallet.ledger.coins = _ + worth token intent.outputs +
      worth token (balanced.unnamed.filter (·.owner = book.wallet.owner)) +
      (if token = terms.native then terms.fees.input.toNat * balanced.inputs.length +
        terms.fees.output.toNat * balanced.outputs.length + slack else 0)
    omega

/-- A coin of a hundred pays forty, fees of two for each output and one for its input, and change. -/
theorem transfer_accounts_of_payment :
    let coin := Coin.ofValue ⟨100, by decide⟩
    let terms : Terms := { (default : Terms) with
      native := coin.token, fees := ⟨⟨1, by decide⟩, ⟨2, by decide⟩⟩ }
    let services : Services :=
      ⟨Instant.latest, fun tx => .ok { tx with proven := true }, fun _ => ⟨0, .ok .finalized⟩, []⟩
    let outputs : List Output := [⟨⟨40, by decide⟩, "bob", coin.token⟩]
    let book := openWith { Wallet.start "pk" "net" with ledger := .restore [coin] [] } .empty .fresh
    ∃ tx next, book.transfer terms services outputs none = (.ok tx, next) ∧
      ∃ last, next.take none (.transaction (next.wallet.confirmation tx)) = .ok last ∧
        (∀ key ∈ tx.inputKeys, last.wallet.ledger.coin? key = none) ∧
        let unnamed := tx.unnamed.filter (·.owner = book.wallet.owner)
        ((∀ intent ∈ tx.intents.values, intent.outputs.length ≤ UInt32.size) → unnamed = []) ∧
        ∃ slack, (slack = 0 ∨ slack = terms.fees.output.toNat) ∧ ∀ token,
          worth token book.wallet.ledger.coins =
            worth token last.wallet.ledger.coins + worth token outputs + worth token unnamed +
              if token = terms.native then
                terms.fees.input.toNat * tx.inputs.length +
                  terms.fees.output.toNat * tx.outputs.length + slack
              else 0 := by
  intro coin terms services outputs book
  have reachable : book.wallet.ledger.Reachable := ⟨[coin], [], [], rfl⟩
  have exclusive : book.wallet.ledger.Exclusive := .restore [coin] []
  have foreign : ∀ output ∈ outputs, output.owner ≠ book.wallet.owner := by decide
  have prover : ∀ given proven, services.prove given = .ok proven →
      ∃ mark, proven = { given with proven := mark } := by
    rintro given _ ⟨⟩
    exact ⟨true, rfl⟩
  have hnew : (book.transfer terms services outputs none).1.toOption.map (fun tx =>
      let wallet := (book.transfer terms services outputs none).2.wallet
      (wallet.confirmation tx).createdKeys.filterMap wallet.ledger.coin?) = some [] := by
    decide +kernel
  rcases paid : book.transfer terms services outputs none with ⟨error | tx, next⟩
  · rw [paid] at hnew
    cases hnew
  · rw [paid] at hnew
    have fresh := List.filterMap_eq_nil_iff.mp (Option.some_inj.mp hnew)
    exact ⟨tx, next, rfl, transfer_accounts reachable exclusive foreign prover paid
      (Wallet.confirmation_confirms fresh) none⟩

end Book

end UtxoWallet
