import UtxoWallet.Terms
import UtxoWallet.Tracker
import UtxoWallet.Transaction.Identity
import UtxoWallet.Transaction.Message
import UtxoWallet.Wallet

/-!
# The book

The book is all that changes while a wallet is at work: the wallet, the transactions that it tracks,
the supply of bindings, and a journal of what has been seen from outside. Each definition here is
one atomic step on it; payments and the indexer's stream are sequences of such steps, and the steps
of two of them may alternate.
-/

namespace UtxoWallet

instance : Trackable Transaction where
  ids := Transaction.identifiers
  firstId? := Transaction.firstIdentifier?
  isExpired := Transaction.isExpired
  toBytes := Transaction.toBytes
  ofBytes := Transaction.ofBytes

/-- What is seen from outside. -/
inductive Event where
  /-- Those who watch the wallet are notified. -/
  | walletPublished
  /-- Those who watch the tracked transactions are notified. -/
  | trackerPublished
  /-- A message goes to the network. -/
  | submitted (message : List UInt8)
  /-- Some milliseconds pass. -/
  | waited (milliseconds : Nat)
  /-- Another ledger is asked to revert a transaction; it tells how many coins, or fails. -/
  | revertAsked (ledger : String) (tx : Transaction) (reverted : Option Nat)
  /-- A settled transaction goes to the history. -/
  | recorded (id : UInt64)
  deriving DecidableEq

/-- The state of a wallet at work. -/
structure Book where
  wallet : Wallet
  tracker : Tracker Transaction
  bindings : BindingSource
  /-- What has been seen from outside, the oldest first. -/
  journal : List Event

namespace Book

/-- The book of a wallet that goes to work. -/
def openWith (wallet : Wallet) (tracker : Tracker Transaction) (bindings : BindingSource) : Book :=
  { wallet, tracker, bindings, journal := [] }

instance : Inhabited Book := ⟨openWith default default BindingSource.fresh⟩

def note (book : Book) (event : Event) : Book :=
  { book with journal := book.journal ++ [event] }

/-! ### Steps of the wallet -/

/-- Puts a new state of the wallet in place. -/
def publishWallet (book : Book) (wallet : Wallet) : Book :=
  { book with wallet }.note .walletPublished

/-- Takes a report of the indexer in. -/
def applyNotice (book : Book) (notice : Notice) : Except FeedError Book :=
  (book.wallet.applyNotice notice).map book.publishWallet

/-- The stream of the indexer is down. -/
def disconnect (book : Book) : Book :=
  if book.wallet.progress.connected then book.publishWallet book.wallet.disconnect else book

/-- Balances a transaction from the available coins. -/
def balance (book : Book) (terms : Terms) (ttl : Instant) (tx : Transaction) :
    Except WalletError Transaction × Book :=
  let (outcome, bindings) := book.wallet.balance terms.native terms.fees ttl tx book.bindings
  let book := { book with bindings }
  match outcome with
  | .error error => (.error error, book)
  | .ok (balanced, wallet) =>
    (.ok balanced, if balanced = tx then book else book.publishWallet wallet)

/-- Makes the pending inputs of a transaction available again, and counts them. -/
def revert (book : Book) (tx : Transaction) : Except LedgerError Nat × Book :=
  match book.wallet.revert tx with
  | .error error => (.error error, book)
  | .ok (wallet, count) => (.ok count, if count = 0 then book else book.publishWallet wallet)

/-! ### Steps of the tracker -/

/-- Puts a new list of tracked transactions in place. -/
def publishTracker (book : Book) (tracker : Tracker Transaction) : Book :=
  { book with tracker }.note .trackerPublished

def track (book : Book) (tx : Transaction) : Book :=
  book.publishTracker (book.tracker.add tx)

/-- Drops the tracked transactions that `tx` covers. -/
def clear (book : Book) (tx : Transaction) : Book :=
  book.publishTracker (book.tracker.clear tx)

/-- Settles what an update reports on tracked transactions. -/
def settle (book : Book) (update : Update) : Book :=
  book.publishTracker (book.tracker.settle update)

end Book

end UtxoWallet
