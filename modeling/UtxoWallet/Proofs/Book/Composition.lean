import Mathlib.Algebra.GroupWithZero.Nat
import Mathlib.Data.List.Dedup
import UtxoWallet.Proofs.Book.Run
import UtxoWallet.Proofs.Tracker.Run

/-! # Abandoning several transactions

Transactions are abandoned one after the other, each in the ledger and among the tracked transactions
that those before it have left. They may share inputs, cover one another, and come more than once, and
their inputs may be foreign or settled. Neither the order nor the repetitions count: the pass releases
the inputs of all of them (`Book.abandonAll_wallet`), and drops whatever any of them drops
(`Tracker.items_clearAll`). A coin that is an input of several of them is counted where it is released,
and nowhere else (`Ledger.releasedCount_append`).

`Book.reverts_compose` puts this together.
-/

namespace UtxoWallet

/-! ## Counting -/

/-- A release counts the distinct keys that have a pending coin. -/
theorem Ledger.releasedCount_eq_countP (ledger : Ledger) (keys : List UtxoKey) :
    ledger.releasedCount keys = keys.dedup.countP (ledger.pending.contains ·) := by
  let released := ledger.pending.filter (keys.contains ·)
  have perm : released.keys.Perm (keys.dedup.filter (ledger.pending.contains ·)) := by
    refine (List.perm_ext_iff_of_nodup released.nodup_keys (keys.nodup_dedup.filter _)).mpr fun key => ?_
    rw [OrderedMap.mem_keys_iff, List.mem_filter, List.mem_dedup, OrderedMap.contains,
      OrderedMap.get?_filter]
    by_cases h : key ∈ keys <;> simp [h, OrderedMap.contains]
  calc ledger.releasedCount keys
      = released.keys.length := (List.length_map _).symm
    _ = keys.dedup.countP (ledger.pending.contains ·) := by
        rw [perm.length_eq, List.countP_eq_length_filter]

namespace Book

/-! ## A pass -/

/-- What the reverts answer when some transactions are abandoned one after the other. -/
def revertAnswers (services : Services) : Book → List Transaction → List (Except LedgerError Nat)
  | _, [] => []
  | book, tx :: rest => (book.revert tx).1 :: revertAnswers services (book.abandon services tx) rest

/-- A revert never fails, and counts the coins that it releases. -/
theorem revert_answer {book : Book} (h : book.wallet.ledger.WellKeyed) (tx : Transaction) :
    (book.revert tx).1 = .ok (book.wallet.ledger.releasedCount tx.inputKeys) := by
  rw [revert, Wallet.revert_eq h]

/-- The counts of a pass add up to that of one release. -/
theorem revertAnswers_eq (services : Services) {book : Book} (h : book.wallet.ledger.WellKeyed)
    (txs : List Transaction) :
    ∃ counts : List Nat, book.revertAnswers services txs = counts.map .ok ∧
      counts.sum = book.wallet.ledger.releasedCount (txs.flatMap Transaction.inputKeys) := by
  induction txs generalizing book with
  | nil => exact ⟨[], rfl, (Ledger.releasedCount_eq_zero_iff.mpr (Ledger.release_nil _)).symm⟩
  | cons tx rest ih =>
      have hledger : (book.abandon services tx).wallet.ledger =
          book.wallet.ledger.release tx.inputKeys := by
        rw [abandon_eq services h]
      have hnext : (book.abandon services tx).wallet.ledger.WellKeyed := by
        rw [hledger]
        exact h.release tx.inputKeys
      obtain ⟨counts, hanswers, hsum⟩ := ih hnext
      -- The first revert counts what it frees, and the rest counts in the ledger it leaves.
      refine ⟨book.wallet.ledger.releasedCount tx.inputKeys :: counts, ?_, ?_⟩
      · rw [revertAnswers, revert_answer h, hanswers]
        rfl
      · rw [List.sum_cons, hsum, hledger, List.flatMap_cons, Ledger.releasedCount_append]

/-- **Reverts compose.** Let some transactions be abandoned one after the other, whatever they spend and
whatever is tracked. The same transactions in any other order, and with any repetitions, lead to the same
wallet and to the same tracked transactions, whatever the other ledgers do. No revert of the pass fails,
and the counts of all of them add up to the number of distinct keys among the inputs that had a pending
coin before. -/
theorem reverts_compose {book : Book} (reachable : book.wallet.ledger.Reachable)
    (services : Services) (txs : List Transaction) :
    (∀ (others : List Transaction) (elsewhere : Services), (∀ tx, tx ∈ others ↔ tx ∈ txs) →
      (others.foldl (abandon elsewhere) book).wallet = (txs.foldl (abandon services) book).wallet ∧
        (others.foldl (abandon elsewhere) book).tracker =
          (txs.foldl (abandon services) book).tracker) ∧
      ∃ counts : List Nat, book.revertAnswers services txs = counts.map .ok ∧
        counts.sum = (txs.flatMap Transaction.inputKeys).dedup.countP
          (book.wallet.ledger.pending.contains ·) := by
  have keyed := Ledger.reachable_iff_wellKeyed.mp reachable
  refine ⟨fun others elsewhere same => ⟨?_, ?_⟩, ?_⟩
  · have sameInputs : ∀ key, key ∈ others.flatMap Transaction.inputKeys ↔
        key ∈ txs.flatMap Transaction.inputKeys := by
      intro key
      simp only [List.mem_flatMap, same]
    rw [abandonAll_wallet elsewhere keyed, abandonAll_wallet services keyed,
      Ledger.release_congr sameInputs]
  · rw [abandonAll_tracker elsewhere keyed, abandonAll_tracker services keyed,
      Tracker.clearAll_congr same]
  · rw [← Ledger.releasedCount_eq_countP]
    exact revertAnswers_eq services keyed txs

/-- Two transactions share a pending input. The first comes twice, the second spends a foreign coin besides,
and a third one has no identifiers. The shared input is counted for whichever of the two comes before. What
is tracked with a second intent stays tracked. -/
theorem reverts_compose_of_shared_input :
    let coin (no : UInt32) : Coin := { Coin.ofValue ⟨100, by decide⟩ with key := ⟨⟨[0x11]⟩, no⟩ }
    let spend (coins : List Coin) : Intent := ⟨10, some ⟨coins.map Coin.toUtxo, []⟩, .zero⟩
    let first := Transaction.ofIntent "net" (spend [coin 1, coin 2])
    let second := Transaction.ofIntent "net" (spend [coin 9, coin 2, coin 3])
    let blank : Transaction := ⟨"net", OrderedMap.empty, false⟩
    let larger := { first with intents := first.intents.insert 2 (spend []) }
    let book := openWith
      { Wallet.start "pk" "net" with ledger := .restore [coin 4] [coin 1, coin 2, coin 3] }
      ⟨[⟨second, none⟩, ⟨larger, none⟩, ⟨first, some ⟨.failure, []⟩⟩]⟩ .fresh
    let services : Services :=
      { now := ⟨50, 0, by decide, by decide, by decide⟩, prove := .ok
        submit := fun _ => ⟨0, .ok .finalized⟩, partners := [] }
    let txs := [first, second, blank, first]
    let others := [blank, second, first]
    book.wallet.ledger.Reachable ∧ (∀ tx, tx ∈ others ↔ tx ∈ txs) ∧
      (others.foldl (abandon services) book).wallet = (txs.foldl (abandon services) book).wallet ∧
      (others.foldl (abandon services) book).tracker = (txs.foldl (abandon services) book).tracker ∧
      (txs.foldl (abandon services) book).tracker = ⟨[⟨larger, none⟩]⟩ ∧
      book.revertAnswers services txs = [.ok 2, .ok 1, .ok 0, .ok 0] ∧
      book.revertAnswers services others = [.ok 0, .ok 2, .ok 1] := by
  intro coin spend first second blank larger book services txs others
  have reachable : book.wallet.ledger.Reachable := ⟨[coin 4], [coin 1, coin 2, coin 3], [], rfl⟩
  have same : ∀ tx, tx ∈ others ↔ tx ∈ txs := by
    intro tx
    simp only [txs, others, List.mem_cons]
    tauto
  obtain ⟨hwallet, htracker⟩ := (reverts_compose reachable services txs).1 others services same
  exact ⟨reachable, same, hwallet, htracker, by decide +kernel, by decide +kernel, by decide +kernel⟩

end Book

end UtxoWallet
