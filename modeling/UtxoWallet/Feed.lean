import UtxoWallet.Book

/-!
# The indexer's stream

The wallet takes the stream in item by item: the ledger and the progress first, then the tracked
transactions, then the history. A history that fails or stalls is not waited for longer than its
timeout, and never stops the stream. The stream stops at its end, at the first item that failed on
the way, or when a shutdown is seen, which is between two items only.
-/

namespace UtxoWallet

/-- What becomes of a settled transaction that goes to the history. -/
inductive HistoryReply where
  | written
  | refused (reason : String)
  | stalled
  deriving DecidableEq

/-- A history of settled transactions. -/
structure History where
  /-- How long a write may take, in milliseconds. -/
  timeout : Nat
  /-- The reply to a write, which may hang on all that has happened before. -/
  reply : Book → Update → HistoryReply

/-- An item of the stream: a report of the indexer, or what went wrong on the way. -/
abbrev FeedItem := Except FeedError Notice

namespace Book

/-- Hands a settled transaction to the history, if there is one. -/
def record (history : Option History) (book : Book) (update : Update) : Book :=
  match history with
  | none => book
  | some history =>
    let noted := book.note (.recorded update.id)
    match history.reply book update with
    | .stalled => noted.note (.waited history.timeout)
    | .written | .refused _ => noted

/-- Takes one report in. -/
def take (history : Option History) (book : Book) (notice : Notice) : Except FeedError Book :=
  (book.applyNotice notice).map fun book =>
    match notice with
    | .progress _ => book
    | .transaction update => (book.settle update).record history update

/-- Takes the stream in. A shutdown is seen once `stop` items are handed out; if there is no number,
it is never seen. -/
def run (history : Option History) : (stop : Option Nat) → Book → List FeedItem →
    Except FeedError Unit × Book
  | some 0, book, _ => (.ok (), book)
  | _, book, [] => (.ok (), book.disconnect)
  | _, book, .error error :: _ => (.error error, book.disconnect)
  | stop, book, .ok notice :: rest =>
    match book.take history notice with
    | .error error => (.error error, book)
    | .ok book => run history (stop.map (· - 1)) book rest

/-- Subscribes right after the last transaction that was taken in, and takes the stream in. The
source is asked for an owner's reports from an id on; it may refuse. -/
def follow (history : Option History)
    (subscribe : String → Option UInt64 → Except String (List FeedItem)) (stop : Option Nat)
    (book : Book) : Except FeedError Unit × Book :=
  match subscribe book.wallet.owner book.wallet.progress.resumeFrom with
  | .error reason => (.error (.subscribe reason), book)
  | .ok items => book.run history stop items

end Book

end UtxoWallet
