import UtxoWallet.Console
import UtxoWallet.Proofs.Book.FailedPayment

/-! # Commands are atomic

A command of the console that fails leaves the settings, the wallet and the tracked transactions as
they were. Most commands find out that they fail before they touch anything; a transfer may fail when
its transaction has been balanced, proven and tracked already, and undoes all of it.

* `Console.handleTransfer_fails`: a transfer that fails leaves the wallet and the tracker of its
  session.
* `Console.handle_atomic`: so no command that fails leaves a trace in what the console tells later.
-/

namespace UtxoWallet

namespace Console

/-! ## Sessions -/

/-- The state of the console, without the bindings that are drawn and what has been seen from
outside. -/
def State.content (state : State) : Settings × Option (Settings × Wallet × Tracker Transaction) :=
  (state.base, state.session.map fun session =>
    (session.settings, session.book.wallet, session.book.tracker))

/-- A session whose coins are in one map each, and whose tracked transactions have intents. -/
structure Session.Sound (session : Session) : Prop where
  reachable : session.book.wallet.ledger.Reachable
  exclusive : session.book.wallet.ledger.Exclusive
  intents : ∀ item ∈ session.book.tracker.items, item.tx.intents.entries ≠ []

/-- The transaction that a command submits, if it comes so far. -/
def Session.payment? (session : Session) (now : Instant) : Command → Option Transaction
  | .transfer outputs ttl reject =>
    (session.book.transfer session.settings.terms (services now reject) outputs ttl).1.toOption
  | _ => none

/-- No identifier of what a command submits is tracked already. -/
def Session.Fresh (session : Session) (now : Instant) (command : Command) : Prop :=
  ∀ tx ∈ session.payment? now command, ∀ item ∈ session.book.tracker.items, tx.Apart item.tx

instance (session : Session) (now : Instant) (command : Command) :
    Decidable (session.Fresh now command) :=
  inferInstanceAs (Decidable
    (∀ tx ∈ session.payment? now command, ∀ item ∈ session.book.tracker.items, tx.Apart item.tx))

/-! ## Transfers -/

theorem markProven_intents (given proven : Transaction) (h : markProven given = .ok proven) :
    proven.intents = given.intents := by
  cases h
  rfl

/-- A transfer that fails leaves the wallet and the tracked transactions of its session as they
were. -/
theorem handleTransfer_fails {now : Instant} {state next : State} {session : Session}
    {outputs : List Output} {ttl : Option Instant} {reject : Bool} {error : Error}
    (sound : session.Sound) (fresh : session.Fresh now (.transfer outputs ttl reject))
    (failed : handleTransfer now state session outputs ttl reject = (.error error, next)) :
    ∃ book, next = state.withBook session book ∧ book.wallet = session.book.wallet ∧
      book.tracker = session.book.tracker := by
  have keyed := Ledger.reachable_iff_wellKeyed.mp sound.reachable
  rw [handleTransfer] at failed
  split at failed
  · next hpay =>
      cases failed
      exact ⟨_, rfl, Book.transfer_fails keyed sound.exclusive hpay⟩
  · next tx paid hpay =>
      obtain ⟨hwallet, htracker, hintents, havailable⟩ :=
        Book.transfer_made markProven_intents hpay
      have keyed' : paid.wallet.ledger.WellKeyed := by
        rw [hwallet]
        exact keyed.reserve _
      split at failed
      · next hsubmit =>
          cases failed
          obtain ⟨hreleased, hcleared⟩ := Book.submit_fails keyed' hintents hsubmit
          have htx : tx ∈ session.payment? now (.transfer outputs ttl reject) := by
            rw [Session.payment?, hpay]
            rfl
          refine ⟨_, rfl, ?_, ?_⟩
          · rw [hreleased, hwallet]
            -- What the payment reserved was available, so none of it had been pending.
            have idle : ∀ key ∈ tx.inputKeys, ¬ session.book.wallet.ledger.pending.contains key :=
              fun key hmem => sound.exclusive key (havailable key hmem)
            have undone := Ledger.release_reserve (fun _ => id) idle
            rw [Ledger.release_eq_self_iff.mpr idle] at undone
            exact congrArg (fun ledger => { session.book.wallet with ledger }) undone
          · rw [hcleared, htracker]
            exact Tracker.clear_eq_self sound.intents (fresh tx htx)
      · cases failed

/-! ## Every command -/

/-- Whatever fails but a transfer fails before it touches anything. -/
theorem handle_error_cases {now : Instant} {state next : State} {command : Command} {error : Error}
    (failed : handle now state command = (.error error, next)) :
    next = state ∨ ∃ session outputs ttl reject, state.session = some session ∧
      command = .transfer outputs ttl reject ∧
      handleTransfer now state session outputs ttl reject = (.error error, next) := by
  obtain ⟨base, session⟩ := state
  cases command with
  | init owner network native inputFee outputFee =>
      have hinit : handleInit ⟨base, session⟩ owner network native inputFee outputFee =
        (.error error, next) := failed
      rw [handleInit] at hinit
      split at hinit <;> cases hinit
      exact .inl rfl
  | shutdown => cases failed
  | transfer outputs ttl reject =>
      cases session with
      | none =>
          cases failed
          exact .inl rfl
      | some session => exact .inr ⟨session, outputs, ttl, reject, rfl, rfl, failed⟩
  | applyUpdate notice =>
      cases session with
      | none =>
          cases failed
          exact .inl rfl
      | some session =>
          have hupdate : handleUpdate ⟨base, some session⟩ session notice =
            (.error error, next) := failed
          rw [handleUpdate] at hupdate
          split at hupdate <;> cases hupdate
          exact .inl rfl
  | restoreState text =>
      cases session with
      | none =>
          cases failed
          exact .inl rfl
      | some session =>
          have hrestore : handleRestore ⟨base, some session⟩ session text =
            (.error error, next) := failed
          rw [handleRestore] at hrestore
          split at hrestore <;> cases hrestore
          exact .inl rfl
  | balances | expireStale pinned | serializeState | pending =>
      cases session with
      | none =>
          cases failed
          exact .inl rfl
      | some session => cases failed

/-- What the console tells without doing anything hangs on the content only. -/
theorem handle_query_congr {state next : State} (h : next.content = state.content) (now : Instant) :
    ∀ query ∈ [Command.balances, .pending, .serializeState],
      (handle now next query).1 = (handle now state query).1 := by
  obtain ⟨base, session⟩ := state
  obtain ⟨base', session'⟩ := next
  obtain ⟨-, hsession⟩ := Prod.mk.inj h
  cases session with
  | none =>
      cases session' with
      | none => simp [handle]
      | some _ => cases hsession
  | some session =>
      cases session' with
      | none => cases hsession
      | some other =>
          obtain ⟨-, hbook⟩ := Prod.mk.inj (Option.some.inj hsession)
          obtain ⟨hwallet, htracker⟩ := Prod.mk.inj hbook
          simp [handle, handleBalances, handlePending, hwallet, htracker]

/-- **Commands are atomic.** Let the coins of the session be in one map each, the tracked transactions
have intents, and the identifiers of a new transaction be new. If a command fails, the settings, the
wallet and the tracked transactions with their outcomes are what they were before; so the balances, the
list of tracked transactions and the persisted form of the wallet are told as they would have been. -/
theorem handle_atomic {now : Instant} {state next : State} {command : Command} {error : Error}
    (sound : ∀ session ∈ state.session, session.Sound)
    (fresh : ∀ session ∈ state.session, session.Fresh now command)
    (failed : handle now state command = (.error error, next)) :
    next.content = state.content ∧
      ∀ later, ∀ query ∈ [Command.balances, .pending, .serializeState],
        (handle later next query).1 = (handle later state query).1 := by
  suffices same : next.content = state.content from ⟨same, handle_query_congr same⟩
  obtain rfl | ⟨session, outputs, ttl, reject, hsession, rfl, htransfer⟩ :=
    handle_error_cases failed
  · rfl
  · obtain ⟨book, rfl, hwallet, htracker⟩ :=
      handleTransfer_fails (sound session hsession) (fresh session hsession) htransfer
    simp [State.content, State.withBook, hsession, hwallet, htracker]

/-- The network rejects a payment of forty from a coin of a hundred, while a transaction that failed is
still tracked. -/
theorem handle_atomic_of_rejected_transfer :
    let coin := Coin.ofValue ⟨100, by decide⟩
    let settings : Settings := { Settings.default with native := coin.token }
    let tracked := Transaction.ofIntent settings.network ⟨0, none, .numbered 7⟩
    let wallet := { Wallet.start "pk" settings.network with ledger := .restore [coin] [] }
    let state : State := ⟨Settings.default,
      some ⟨settings, .openWith wallet ⟨[⟨tracked, some ⟨.failure, []⟩⟩]⟩ .fresh⟩⟩
    let command := Command.transfer [⟨⟨40, by decide⟩, "bob", coin.token⟩] none true
    ∃ reason next,
      handle .latest state command =
        (.error (.payment (.submission (.rejected reason))), next) ∧
      next.content = state.content ∧
        ∀ later, ∀ query ∈ [Command.balances, .pending, .serializeState],
          (handle later next query).1 = (handle later state query).1 := by
  intro coin settings tracked wallet state command
  have sound : ∀ session ∈ state.session, session.Sound := by
    rintro _ ⟨⟩
    exact ⟨⟨[coin], [], [], rfl⟩, .restore [coin] [], by decide⟩
  have fresh : ∀ session ∈ state.session, session.Fresh .latest command := by
    rintro _ ⟨⟩
    decide +kernel
  have rejected : (handle .latest state command).1 matches
      .error (.payment (.submission (.rejected _))) := by
    decide +kernel
  rcases failed : handle .latest state command with ⟨outcome, next⟩
  rw [failed] at rejected
  dsimp only at rejected
  split at rejected
  · next reason => exact ⟨reason, next, rfl, handle_atomic sound fresh failed⟩
  · cases rejected

end Console

end UtxoWallet
