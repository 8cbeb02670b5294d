import UtxoWallet.Json.RoundTrip
import UtxoWallet.Main
import UtxoWallet.Time.RoundTrip
import UtxoWallet.Transaction.RoundTrip
import UtxoWallet.Proofs.Ledger.Lookup
import UtxoWallet.Proofs.Ledger.Run
import UtxoWallet.Proofs.Book.Race
import UtxoWallet.Proofs.Ledger.Exclusive
import UtxoWallet.Proofs.Results
import UtxoWallet.Proofs.Wallet.Balance
import UtxoWallet.Proofs.Book.Abandonment
import UtxoWallet.Proofs.Selection.Accounts
import UtxoWallet.Proofs.Transaction.Accounts
import UtxoWallet.Proofs.Wallet.Accounts
import UtxoWallet.Proofs.Book.Replay
import UtxoWallet.Proofs.Ledger.Holdings
import UtxoWallet.Proofs.Wallet.Inputs
import UtxoWallet.Proofs.Wallet.HandOut
import UtxoWallet.Proofs.Book.Conservation
import UtxoWallet.Proofs.Transaction.Bytes
import UtxoWallet.Proofs.Json.Records
import UtxoWallet.Proofs.Wallet.Snapshot
import UtxoWallet.Proofs.Ledger.Worth
import UtxoWallet.Proofs.Transaction.Created
import UtxoWallet.Proofs.Book.Accounts
import UtxoWallet.Proofs.Tracker.Run
import UtxoWallet.Proofs.Tracker.Antichain
import UtxoWallet.Proofs.Tracker.Coverage
import UtxoWallet.Proofs.Book.Submission
import UtxoWallet.Proofs.Wallet.Finality
import UtxoWallet.Proofs.Selection.Queue
import UtxoWallet.Proofs.Selection.Rule
import UtxoWallet.Proofs.Selection.Exact
import UtxoWallet.Proofs.Tracker.Snapshot
import UtxoWallet.Proofs.Wallet.Order
import UtxoWallet.Proofs.Book.FailedPayment
import UtxoWallet.Proofs.Console.Atomic
import UtxoWallet.Proofs.Console.Run
import UtxoWallet.Proofs.Tracker.Maximal
import UtxoWallet.Proofs.Wallet.Undo
import UtxoWallet.Proofs.Transaction.Expiry
import UtxoWallet.Proofs.Book.Sweep
import UtxoWallet.Proofs.Transaction.Merge
import UtxoWallet.Proofs.Wallet.Failure
import UtxoWallet.Proofs.Wallet.Idempotent
import UtxoWallet.Proofs.Selection.Insertion
import UtxoWallet.Proofs.Selection.Receipt
import UtxoWallet.Proofs.Transaction.Range
import UtxoWallet.Proofs.Book.Stream
import UtxoWallet.Proofs.Selection.Distinct
import UtxoWallet.Proofs.Book.Unfailing
import UtxoWallet.Proofs.Json.Reports
import UtxoWallet.Proofs.Book.Composition
import UtxoWallet.Proofs.Wallet.Progress
