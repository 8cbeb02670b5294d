import UtxoWallet.Proofs.Book.Accounts
import UtxoWallet.Proofs.Book.Submission
import UtxoWallet.Proofs.Wallet.Undo

/-! # A payment that fails

A payment takes coins of the wallet before it is proven, and is tracked before it is submitted. What
fails on the way is undone: the coins that were reserved are released, and these only; the transaction
is dropped from the tracker, and no other goes with it as long as the identifiers differ.

* `Book.transfer_leaves_no_trace`: a payment that is not made leaves the wallet and the tracked
  transactions as they were.
* `Book.transfer_made`: one that is made has reserved its inputs, all of them available before.
* `Book.submit_fails`: a submission that fails then gives back what the payment reserved.
-/

namespace UtxoWallet

/-! ## Transactions -/

theorem Transaction.inputKeys_ofIntent {network : String} {intent : Intent}
    (h : intent.inputs = []) : (ofIntent network intent).inputKeys = [] := by
  rw [inputKeys, inputs_ofIntent, h, List.map_nil]

/-- Have two transactions no identifier in common? -/
def Transaction.Apart (a b : Transaction) : Prop :=
  ∀ id, OrderedMap.contains a.identifiers id → ¬ OrderedMap.contains b.identifiers id

instance Transaction.decidableApart (a b : Transaction) : Decidable (a.Apart b) :=
  decidable_of_iff (∀ id ∈ OrderedSet.toList a.identifiers, ¬ OrderedMap.contains b.identifiers id)
    (by simp only [OrderedSet.mem_toList_iff, Transaction.Apart])

/-- A transaction covers none with other identifiers, if that one has any. -/
theorem Transaction.Apart.not_covers {a b : Transaction} (h : a.Apart b)
    (intents : b.intents.entries ≠ []) : ¬ Tracker.covers a b := by
  intro covered
  have some := not_isEmpty_identifiers intents
  obtain ⟨⟨id, mark⟩, hmem⟩ := List.exists_mem_of_ne_nil _ (mt List.isEmpty_iff.mpr some)
  have own : OrderedMap.contains b.identifiers id :=
    OrderedSet.mem_toList_iff.mp (List.mem_map_of_mem (f := Prod.fst) hmem)
  exact h id (OrderedSet.isSubset_iff.mp covered id own) own

/-- To drop a transaction changes nothing if no tracked one has an identifier of it. -/
theorem Tracker.clear_eq_self {tracker : Tracker Transaction} {tx : Transaction}
    (intents : ∀ item ∈ tracker.items, item.tx.intents.entries ≠ [])
    (apart : ∀ item ∈ tracker.items, tx.Apart item.tx) : tracker.clear tx = tracker := by
  rw [clear, clearIds]
  split
  · rfl
  · have stay : ∀ item ∈ tracker.items, !isWithin item.tx (Trackable.ids tx) := by
      intro item hmem
      rw [Bool.not_eq_true', ← Bool.not_eq_true]
      exact (apart item hmem).not_covers (intents item hmem)
    rw [List.filter_eq_self.mpr stay]

namespace Book

variable {book next : Book} {terms : Terms} {services : Services} {tx : Transaction}

/-! ## Balancing and proving -/

/-- What balancing does to a book beside its wallet: bindings are drawn, and nothing is tracked. -/
theorem balance_rest (book : Book) (terms : Terms) (ttl : Instant) (tx : Transaction) :
    (book.balance terms ttl tx).2.tracker = book.tracker ∧
      (book.balance terms ttl tx).2.bindings =
        (book.wallet.balance terms.native terms.fees ttl tx book.bindings).2 := by
  rw [balance]
  dsimp only
  split
  · exact ⟨rfl, rfl⟩
  · split <;> exact ⟨rfl, rfl⟩

/-- A balancing that fails has drawn a binding at most. -/
theorem balance_fails {ttl : Instant} {error : WalletError}
    (h : book.balance terms ttl tx = (.error error, next)) :
    ∃ bindings, next = { book with bindings } := by
  rw [balance] at h
  dsimp only at h
  split at h <;> cases h
  exact ⟨_, rfl⟩

/-- Whatever comes of it, a revert touches neither the tracked transactions nor the bindings. -/
theorem exists_revertEverywhere_eq (services : Services) (book : Book) (tx : Transaction) :
    ∃ wallet journal, book.revertEverywhere services tx = { book with wallet, journal } := by
  rw [revertEverywhere, askPartners_eq, revert]
  split
  · exact ⟨_, _, rfl⟩
  · split <;> exact ⟨_, _, rfl⟩

/-- Completing a transaction tracks nothing, and draws no more bindings than balancing does. -/
theorem complete_rest (terms : Terms) (services : Services) (ttl : Instant) (book : Book)
    (tx : Transaction) :
    (book.complete terms services ttl tx).2.tracker = book.tracker ∧
      (book.complete terms services ttl tx).2.bindings =
        (book.wallet.balance terms.native terms.fees ttl tx book.bindings).2 := by
  have hrest := balance_rest book terms ttl tx
  rw [complete]
  rcases hb : book.balance terms ttl tx with ⟨failure | balanced, drawn⟩
  · rw [hb] at hrest
    exact hrest
  · rw [hb] at hrest
    rw [← hrest.1, ← hrest.2]
    dsimp only
    rw [proveOrRevert]
    split
    · exact ⟨rfl, rfl⟩
    · obtain ⟨wallet, journal, hrevert⟩ := exists_revertEverywhere_eq services drawn balanced
      rw [hrevert]
      exact ⟨rfl, rfl⟩

/-- The inputs that are reverted are the added ones, and some of which none was pending. -/
theorem complete_fails {ttl : Instant} {error : PaymentError}
    (keyed : book.wallet.ledger.WellKeyed) (exclusive : book.wallet.ledger.Exclusive)
    (idle : ∀ key ∈ tx.inputKeys, ¬ book.wallet.ledger.pending.contains key)
    (h : book.complete terms services ttl tx = (.error error, next)) :
    next.wallet = book.wallet := by
  rw [complete] at h
  rcases hb : book.balance terms ttl tx with ⟨failure | balanced, drawn⟩
  · rw [hb] at h
    cases h
    obtain ⟨bindings, rfl⟩ := balance_fails hb
    rfl
  · rw [hb] at h
    dsimp only at h
    obtain ⟨bindings, hwallet⟩ := balance_eq_ok hb
    obtain ⟨added, -, -, -, hreserved⟩ := Wallet.balance_reserves hwallet
    have keyed' := balance_wellKeyed keyed hb
    rw [proveOrRevert] at h
    split at h
    · cases h
    · -- The revert gives back what balancing took, and no input of its own was pending before.
      rw [revertEverywhere_eq services keyed', Wallet.release_balanced exclusive hwallet,
        Ledger.release_eq_self_iff.mpr idle] at h
      cases h
      dsimp only
      rw [hreserved]

/-! ## What is seen of it -/

/-- What is seen of a payment that is not made, by its error. -/
inductive FailureSeen (services : Services) (before after : List Event) : PaymentError → Prop where
  /-- It fails before a coin is taken. -/
  | unbalanced {error : WalletError} (silent : after = before) :
      FailureSeen services before after (.wallet error)
  /-- The coins are taken when the prover refuses: every other ledger is asked for a revert too. -/
  | unproven {reason : String} (balanced : Transaction) (notices : List Event)
      (refused : services.prove balanced = .error reason)
      (told : ∀ event ∈ notices, event = .walletPublished)
      (asked : after = before ++ notices ++ revertCalls services.partners balanced) :
      FailureSeen services before after (.proving reason)

theorem balance_journal (book : Book) (terms : Terms) (ttl : Instant) (tx : Transaction) :
    ∃ notices : List Event, (∀ event ∈ notices, event = .walletPublished) ∧
      (book.balance terms ttl tx).2.journal = book.journal ++ notices := by
  rw [balance]
  dsimp only
  split
  · exact ⟨[], List.forall_mem_nil _, (List.append_nil _).symm⟩
  · dsimp only
    split
    · exact ⟨[], List.forall_mem_nil _, (List.append_nil _).symm⟩
    · exact ⟨[.walletPublished], fun _ => List.mem_singleton.mp, rfl⟩

theorem eq_walletPublished_of_mem_releaseEvents {count : Nat} {event : Event}
    (h : event ∈ releaseEvents count) : event = .walletPublished := by
  rw [releaseEvents] at h
  split at h
  · cases h
  · exact List.mem_singleton.mp h

/-- What is seen of a completion that fails hangs on the error only. -/
theorem complete_seen {ttl : Instant} {error : PaymentError}
    (keyed : book.wallet.ledger.WellKeyed)
    (h : book.complete terms services ttl tx = (.error error, next)) :
    FailureSeen services book.journal next.journal error := by
  rw [complete] at h
  rcases hb : book.balance terms ttl tx with ⟨failure | balanced, drawn⟩
  · rw [hb] at h
    cases h
    obtain ⟨bindings, rfl⟩ := balance_fails hb
    exact .unbalanced rfl
  · rw [hb] at h
    dsimp only at h
    -- What balancing tells comes before what the revert tells.
    obtain ⟨notices, told, hjournal⟩ := balance_journal book terms ttl tx
    rw [hb] at hjournal
    rw [proveOrRevert, prove] at h
    rcases hprove : services.prove balanced with reason | proven
    · rw [hprove] at h
      dsimp only [Except.mapError] at h
      rw [revertEverywhere_eq services (balance_wellKeyed keyed hb), hjournal] at h
      cases h
      refine .unproven balanced (notices ++ releaseEvents _) hprove (fun event hmem => ?_)
        (congrArg (· ++ _) (List.append_assoc _ _ _))
      rcases List.mem_append.mp hmem with hmem | hmem
      · exact told event hmem
      · exact eq_walletPublished_of_mem_releaseEvents hmem
    · rw [hprove] at h
      cases h

/-! ## Payments -/

theorem transfer_tracker (book : Book) (terms : Terms) (services : Services)
    (outputs : List Output) (ttl : Option Instant) :
    (book.transfer terms services outputs ttl).2.tracker = book.tracker :=
  (complete_rest terms services _ { book with bindings := book.bindings.rest } _).1

/-- A payment that fails leaves the wallet and the tracked transactions as they were. -/
theorem transfer_fails {outputs : List Output} {ttl : Option Instant} {error : PaymentError}
    (keyed : book.wallet.ledger.WellKeyed) (exclusive : book.wallet.ledger.Exclusive)
    (h : book.transfer terms services outputs ttl = (.error error, next)) :
    next.wallet = book.wallet ∧ next.tracker = book.tracker := by
  let drawn : Book := { book with bindings := book.bindings.rest }
  constructor
  · refine @complete_fails drawn next terms services _ _ _ keyed exclusive ?_ h
    rw [Transaction.inputKeys_ofIntent rfl]
    exact nofun
  · rw [← transfer_tracker book terms services outputs ttl, h]

/-- **A payment that fails leaves no trace.** Let a wallet hold no coin in both maps. Whatever it is
asked to pay, on whatever terms, and whatever the prover does: if the payment is not made, the wallet
and the tracked transactions are what they were before, and nothing but notices of the wallet and calls
for a revert has been seen. -/
theorem transfer_leaves_no_trace {outputs : List Output} {ttl : Option Instant}
    {error : PaymentError} (reachable : book.wallet.ledger.Reachable)
    (exclusive : book.wallet.ledger.Exclusive)
    (h : book.transfer terms services outputs ttl = (.error error, next)) :
    next.wallet = book.wallet ∧ next.tracker = book.tracker ∧
      FailureSeen services book.journal next.journal error := by
  have keyed := Ledger.reachable_iff_wellKeyed.mp reachable
  obtain ⟨hwallet, htracker⟩ := transfer_fails keyed exclusive h
  let drawn : Book := { book with bindings := book.bindings.rest }
  have completed : drawn.complete terms services _ _ = (.error error, next) := h
  have keyed' : drawn.wallet.ledger.WellKeyed := keyed
  have seen := complete_seen keyed' completed
  exact ⟨hwallet, htracker, seen⟩

/-- The only coin is taken for a payment, and the prover is offline. -/
theorem transfer_leaves_no_trace_of_offline_prover :
    let coin := Coin.ofValue ⟨100, by decide⟩
    let terms : Terms := { (default : Terms) with native := coin.token }
    let services : Services :=
      { now := .latest, prove := fun _ => .error "prover offline"
        submit := fun _ => ⟨0, .ok .finalized⟩, partners := [⟨"dust", fun _ => none⟩] }
    let outputs : List Output := [⟨⟨40, by decide⟩, "bob", coin.token⟩]
    let book := openWith { Wallet.start "pk" "net" with ledger := .restore [coin] [] } .empty .fresh
    book.wallet.ledger.Reachable ∧ book.wallet.ledger.Exclusive ∧
      ∃ next, book.transfer terms services outputs none =
          (.error (.proving "prover offline"), next) ∧
        next.wallet = book.wallet ∧ next.tracker = book.tracker ∧
        FailureSeen services book.journal next.journal (.proving "prover offline") := by
  intro coin terms services outputs book
  have reachable : book.wallet.ledger.Reachable := ⟨[coin], [], [], rfl⟩
  have exclusive : book.wallet.ledger.Exclusive := .restore [coin] []
  have refused : (book.transfer terms services outputs none).1 =
      .error (.proving "prover offline") := by
    decide +kernel
  rcases h : book.transfer terms services outputs none with ⟨outcome, next⟩
  rw [h] at refused
  subst refused
  exact ⟨reachable, exclusive, next, rfl, transfer_leaves_no_trace reachable exclusive h⟩

/-- A payment that succeeds has made the inputs of its transaction pending, and they had been
available. -/
theorem transfer_made {outputs : List Output} {ttl : Option Instant}
    (prover : ∀ given proven, services.prove given = .ok proven → proven.intents = given.intents)
    (h : book.transfer terms services outputs ttl = (.ok tx, next)) :
    next.wallet = { book.wallet with ledger := book.wallet.ledger.reserve tx.inputKeys } ∧
      next.tracker = book.tracker ∧ tx.intents.entries ≠ [] ∧
      ∀ key ∈ tx.inputKeys, book.wallet.ledger.available.contains key := by
  obtain ⟨intent, balanced, _, _, hinputs, -, hbalance, hprove⟩ := transfer_eq_ok h
  obtain ⟨added, hentries, -, havailable, hreserved⟩ := Wallet.balance_reserves hbalance
  have hintents := prover balanced tx hprove
  have hkeys : tx.inputKeys = keysOf added := by
    rw [Transaction.inputKeys_of_entries (hintents ▸ hentries),
      Transaction.inputKeys_ofIntent hinputs, List.nil_append]
  rw [hkeys]
  refine ⟨hreserved, ?_, ?_, havailable⟩
  · rw [← transfer_tracker book terms services outputs ttl, h]
  · rw [hintents, hentries]
    exact List.append_ne_nil_of_left_ne_nil (List.cons_ne_nil _ _) _

/-! ## Submissions -/

/-- A submission that fails has released the inputs, and cleared what it tracked. -/
theorem submit_fails {error : SubmissionError} (keyed : book.wallet.ledger.WellKeyed)
    (intents : tx.intents.entries ≠ [])
    (h : book.submit terms services tx = (.error error, next)) :
    next.wallet = { book.wallet with ledger := book.wallet.ledger.release tx.inputKeys } ∧
      next.tracker = book.tracker.clear tx := by
  rw [submit] at h
  split at h
  · cases h
  · rw [abandon_eq services (by exact keyed)] at h
    cases h
    exact ⟨rfl, Tracker.clear_add (Transaction.not_isEmpty_identifiers intents)⟩

end Book

end UtxoWallet
