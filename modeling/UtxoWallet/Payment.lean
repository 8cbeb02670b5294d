import UtxoWallet.Book

/-!
# Payments

A payment is built as a transaction of its outputs, balanced by the wallet, proven, and submitted.
It is tracked before the network sees it. When the submission fails, or the time to live of a
tracked transaction passes, or the indexer reports its failure, the transaction is abandoned: every
ledger is asked to revert it, the wallet first and the others in the order of their registration,
and it is no longer tracked. A ledger that fails to revert does not keep the others from it.

What the prover, the network and the other ledgers answer comes from `Services`, as functions
without any assumption on them.
-/

namespace UtxoWallet

/-! ### Submissions -/

/-- Why a submission fails. -/
inductive SubmissionError where
  | rejected (reason : String)
  | stageNotReached (required reached : Stage)
  | timeout (milliseconds : Nat)
  deriving DecidableEq

def SubmissionError.message : SubmissionError → String
  | .rejected reason => "transaction rejected by the network: " ++ reason
  | .stageNotReached required reached =>
    "transaction reached stage " ++ reached.text ++ " but " ++ required.text ++ " is required"
  | .timeout milliseconds =>
    "transaction submission timed out after " ++ durationText milliseconds

/-- The network's answer to a message, some milliseconds later. -/
structure Reply where
  delay : Nat
  answer : Except SubmissionError Stage

/-! ### Services -/

/-- Another ledger that may hold inputs of a transaction. -/
structure Partner where
  name : String
  /-- The number of coins that it reverts, none if it fails. -/
  revert : Transaction → Option Nat

/-- What a payment relies on. -/
structure Services where
  now : Instant
  prove : Transaction → Except String Transaction
  submit : List UInt8 → Reply
  partners : List Partner

/-! ### Errors -/

/-- Why a payment fails. -/
inductive PaymentError where
  | wallet (error : WalletError)
  | proving (reason : String)
  | submission (error : SubmissionError)
  deriving DecidableEq

def PaymentError.message : PaymentError → String
  | .wallet error => error.message
  | .proving reason => "proving failed: " ++ reason
  | .submission error => error.message

namespace Book

/-! ### Abandoning -/

/-- Asks another ledger to revert a transaction. -/
def askPartner (tx : Transaction) (book : Book) (partner : Partner) : Book :=
  book.note (.revertAsked partner.name tx (partner.revert tx))

/-- Asks every ledger to revert a transaction. -/
def revertEverywhere (services : Services) (book : Book) (tx : Transaction) : Book :=
  services.partners.foldl (askPartner tx) (book.revert tx).2

/-- Reverts a transaction everywhere, and forgets it. -/
def abandon (services : Services) (book : Book) (tx : Transaction) : Book :=
  (book.revertEverywhere services tx).clear tx

/-- Abandons the tracked transactions whose time to live has passed before their outcome is known,
and lists them. -/
def expireStale (services : Services) (book : Book) : List Transaction × Book :=
  let expired := book.tracker.expired services.now
  (expired, expired.foldl (abandon services) book)

/-- Abandons the tracked transactions that failed, and lists them. -/
def abandonFailed (services : Services) (book : Book) : List Transaction × Book :=
  let failed := book.tracker.failed
  (failed, failed.foldl (abandon services) book)

/-! ### Submission -/

/-- What a reply means on the given terms. -/
def judge (terms : Terms) (reply : Reply) : Except SubmissionError Stage :=
  if terms.submissionTimeout < reply.delay then .error (.timeout terms.submissionTimeout)
  else match reply.answer with
    | .error error => .error error
    | .ok reached =>
      if reached.isBelow terms.requiredStage then
        .error (.stageNotReached terms.requiredStage reached)
      else .ok reached

/-- Tracks a transaction, submits it, and abandons it if the submission fails. -/
def submit (terms : Terms) (services : Services) (book : Book) (tx : Transaction) :
    Except SubmissionError Stage × Book :=
  let message := tx.toBytes
  let reply := services.submit message
  -- Tracked first, so that a report of the indexer finds it however fast it comes.
  let book := (book.track tx).note (.submitted message)
  let book := book.note (.waited (min reply.delay terms.submissionTimeout))
  match judge terms reply with
  | .ok stage => (.ok stage, book)
  | .error error => (.error error, book.abandon services tx)

/-! ### Building -/

def prove (services : Services) (tx : Transaction) : Except PaymentError Transaction :=
  (services.prove tx).mapError .proving

/-- Proves a balanced transaction, and reverts it everywhere if that fails. -/
def proveOrRevert (services : Services) (book : Book) (tx : Transaction) :
    Except PaymentError Transaction × Book :=
  match prove services tx with
  | .ok proven => (.ok proven, book)
  | .error error => (.error error, book.revertEverywhere services tx)

/-- Balances a transaction and proves it. -/
def complete (terms : Terms) (services : Services) (ttl : Instant) (book : Book)
    (tx : Transaction) : Except PaymentError Transaction × Book :=
  match book.balance terms ttl tx with
  | (.error error, book) => (.error (.wallet error), book)
  | (.ok balanced, book) => book.proveOrRevert services balanced

/-- The time to live of a transaction that has none of its own. -/
def defaultTtl (terms : Terms) (services : Services) : Instant :=
  services.now.later terms.lifetime

/-- Pays outputs from the wallet. The transaction that comes out is proven and ready to be
submitted. -/
def transfer (terms : Terms) (services : Services) (book : Book) (outputs : List Output)
    (ttl : Option Instant) : Except PaymentError Transaction × Book :=
  let ttl := ttl.getD (defaultTtl terms services)
  let intent := Intent.make ttl ⟨[], outputs⟩ book.bindings.next
  let book := { book with bindings := book.bindings.rest }
  book.complete terms services ttl (Transaction.ofIntent book.wallet.network intent)

/-- Proves one part of a transaction, merges the other into it, and balances the result once. -/
def balanceAndMerge (terms : Terms) (services : Services) (book : Book) (a b : Transaction) :
    Except PaymentError Transaction × Book :=
  match prove services a with
  | .error error => (.error error, book)
  | .ok proven =>
    match proven.merge b with
    | .error error => (.error (.wallet (.transaction error)), book)
    | .ok merged =>
      book.complete terms services (merged.expiry?.getD (defaultTtl terms services)) merged

end Book

end UtxoWallet
