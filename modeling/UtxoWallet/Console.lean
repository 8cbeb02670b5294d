import UtxoWallet.Console.Command
import UtxoWallet.Feed
import UtxoWallet.Payment
import UtxoWallet.Settings
import UtxoWallet.Tracker.Snapshot
import UtxoWallet.Wallet.Snapshot

/-!
# The console

The console works one wallet by commands, with a prover that proves everything and a network that
makes every transaction final unless it is told to reject it. Each line of input that is not blank
gets one line in answer. A command that fails leaves the wallet and its tracked transactions as they
were.
-/

namespace UtxoWallet

open UtxoWallet.Text

namespace Console

/-! ### Sessions -/

/-- A wallet at work, and its settings. -/
structure Session where
  settings : Settings
  book : Book

/-- The state of the console: the settings that every wallet starts from, and the session. -/
structure State where
  base : Settings
  session : Option Session

/-- The console before the first command. -/
def start (base : Settings) : State :=
  ⟨base, none⟩

/-- The supply of bindings, which outlives a session. -/
def State.bindings (state : State) : BindingSource :=
  state.session.elim BindingSource.fresh (·.book.bindings)

/-- The console with a new session, in which nothing is tracked. -/
def State.openSession (state : State) (settings : Settings) (wallet : Wallet) : State :=
  { state with session := some ⟨settings, Book.openWith wallet Tracker.empty state.bindings⟩ }

/-- The console with another book in its session. -/
def State.withBook (state : State) (session : Session) (book : Book) : State :=
  { state with session := some { session with book } }

/-! ### Errors -/

/-- Why a command fails. -/
inductive Error where
  | notInitialized
  | nativeToken (text : String) (error : Hex.Error)
  | settings (error : Settings.Error)
  | feed (error : FeedError)
  | payment (error : PaymentError)
  | snapshot (error : Wallet.SnapshotError)
  deriving DecidableEq

def Error.message : Error → String
  | .notInitialized => "harness is not initialized; call init first"
  | .nativeToken text error => "native_token '" ++ text ++ "' is not hex: " ++ error.message
  | .settings error => error.message
  | .feed error => error.message
  | .payment error => error.message
  | .snapshot error => error.message

/-! ### Services -/

/-- Marks a transaction as proven. -/
def markProven (tx : Transaction) : Except String Transaction :=
  .ok { tx with proven := true }

/-- Makes a transaction final at once, or rejects it. -/
def answerSubmission (reject : Bool) (message : List UInt8) : Reply :=
  { delay := 0
    answer :=
      if reject then .error (.rejected ("stub rejected " ++ message.length.repr ++ " bytes"))
      else .ok .finalized }

/-- What payments rely on in the console. -/
def services (now : Instant) (reject : Bool) : Services :=
  { now, prove := markProven, submit := answerSubmission reject, partners := [] }

/-! ### Answers -/

/-- Amounts by token, as texts. -/
def balancesToJson (balances : OrderedMap TokenType Amount) : Json :=
  .record (balances.entries.map fun (token, amount) => (token.hex, amount.toJson))

/-- A list of texts. -/
def textsToJson (texts : List String) : Json :=
  Json.list Json.text texts

/-- A number that may be absent. -/
def idToJson (id : Option UInt64) : Json :=
  Json.nullable (fun id => .natural id.toNat) id

def identifiersToJson (tx : Transaction) : Json :=
  textsToJson (OrderedSet.toList tx.identifiers)

/-! ### Commands -/

/-- The base settings with what a command gives in their place. -/
def override (base : Settings) (network native : Option String)
    (inputFee outputFee : Option UInt64) : Except Error Settings := do
  let native ← match native with
    | none => pure base.native
    | some text => (TokenType.ofHex text).mapError (.nativeToken text)
  let fee (given : Option UInt64) (fallback : Amount) : Amount :=
    given.elim fallback fun n => ⟨n.toNat, Nat.lt_trans n.toNat_lt (by decide)⟩
  let settings := { base with
    network := network.getD base.network
    native
    fees := ⟨fee inputFee base.fees.input, fee outputFee base.fees.output⟩ }
  settings.validate.mapError .settings
  return settings

/-- Opens a session with an empty wallet. -/
def handleInit (state : State) (owner : String) (network native : Option String)
    (inputFee outputFee : Option UInt64) : Except Error Json × State :=
  match override state.base network native inputFee outputFee with
  | .error error => (.error error, state)
  | .ok settings =>
    (.ok (.record [
        ("public_key", .text owner),
        ("network_id", .text settings.network),
        ("native_token", .text settings.native.hex)]),
      state.openSession settings (Wallet.start owner settings.network))

/-- Takes a report of the indexer in. -/
def handleUpdate (state : State) (session : Session) (notice : Notice) :
    Except Error Json × State :=
  match session.book.take none notice with
  | .error error => (.error (.feed error), state)
  | .ok book =>
    let progress := book.wallet.progress
    (.ok (.record [
        ("applied_id", idToJson progress.applied),
        ("highest_known_id", .natural progress.highest.toNat),
        ("connected", .bool progress.connected),
        ("synced", .bool (progress.isSynced session.settings.syncGap))]),
      state.withBook session book)

/-- Tells what the wallet holds. -/
def handleBalances (session : Session) : Json :=
  let ledger := session.book.wallet.ledger
  .record [
    ("available", balancesToJson ledger.availableBalances),
    ("pending", balancesToJson ledger.pendingBalances),
    ("total", balancesToJson ledger.totalBalances)]

/-- Pays some outputs, and submits the transaction. -/
def handleTransfer (now : Instant) (state : State) (session : Session) (outputs : List Output)
    (ttl : Option Instant) (reject : Bool) : Except Error Json × State :=
  let terms := session.settings.terms
  let services := services now reject
  match session.book.transfer terms services outputs ttl with
  | (.error error, book) => (.error (.payment error), state.withBook session book)
  | (.ok tx, book) =>
    match book.submit terms services tx with
    | (.error error, book) => (.error (.payment (.submission error)), state.withBook session book)
    | (.ok stage, book) =>
      (.ok (.record [
          ("ids", identifiersToJson tx),
          ("stage", stage.toJson),
          ("ttl", Json.nullable Timestamp.toJson tx.expiry?)]),
        state.withBook session book)

/-- Abandons the transactions whose time to live has passed. -/
def handleExpiry (now : Instant) (state : State) (session : Session) : Json × State :=
  let (expired, book) := session.book.expireStale (services now false)
  (.record [("expired", Json.list identifiersToJson expired)], state.withBook session book)

/-- Opens a session with a persisted wallet. -/
def handleRestore (state : State) (session : Session) (text : String) : Except Error Json × State :=
  match Wallet.deserialize text session.settings.network with
  | .error error => (.error (.snapshot error), state)
  | .ok wallet =>
    (.ok (.record [
        ("public_key", .text wallet.owner),
        ("applied_id", idToJson wallet.progress.applied),
        ("available", .natural wallet.ledger.available.size),
        ("pending", .natural wallet.ledger.pending.size)]),
      state.openSession session.settings wallet)

/-- Lists the tracked transactions. -/
def handlePending (session : Session) : Json :=
  .record [
    ("count", .natural session.book.tracker.items.length),
    ("transactions", session.book.tracker.toJson)]

/-- Carries out a command at some time. -/
def handle (now : Instant) (state : State) (command : Command) : Except Error Json × State :=
  match command, state.session with
  | .init owner network native inputFee outputFee, _ =>
    handleInit state owner network native inputFee outputFee
  | .shutdown, _ => (.ok (.record [("shutdown", .bool true)]), { state with session := none })
  | _, none => (.error .notInitialized, state)
  | .applyUpdate notice, some session => handleUpdate state session notice
  | .balances, some session => (.ok (handleBalances session), state)
  | .transfer outputs ttl reject, some session =>
    handleTransfer now state session outputs ttl reject
  | .expireStale pinned, some session =>
    let (answer, state) := handleExpiry (pinned.getD now) state session
    (.ok answer, state)
  | .serializeState, some session =>
    (.ok (.record [("state", .text session.book.wallet.serialize)]), state)
  | .restoreState text, some session => handleRestore state session text
  | .pending, some session => (.ok (handlePending session), state)

/-! ### Lines -/

/-- The answer to a request. -/
def response (id : UInt64) (outcome : Except String Json) : Json :=
  match outcome with
  | .ok result => .record [("id", .natural id.toNat), ("ok", .bool true), ("result", result)]
  | .error message =>
    .record [("id", .natural id.toNat), ("ok", .bool false), ("error", .text message)]

/-- What follows from a line of input. -/
structure Step where
  answer : Option Json
  state : State
  /-- Does the console end here? -/
  stops : Bool

/-- Answers a line of input at some time. -/
def answerLine (now : Instant) (state : State) (line : String) : Step :=
  if line.toList.all isBlank then ⟨none, state, false⟩
  else
    -- Without a request there is no number to answer to; such answers carry the number 0.
    match (Json.read? line).filter (·.isSound Json.maxDepth) with
    | none => ⟨some (response 0 (.error "invalid JSON request")), state, false⟩
    | some json =>
      let json := json.withLastMembers
      match Request.ofJson? json with
      | none =>
        ⟨some (response (Request.idOrZero json) (.error "invalid request envelope")), state, false⟩
      | some request =>
        let (outcome, state) := handle now state request.command
        ⟨some (response request.id (outcome.mapError Error.message)), state,
          request.command matches .shutdown⟩

/-- Answers lines of input until the console ends, all at one time. -/
def answerLines (now : Instant) (state : State) : List String → List Json
  | [] => []
  | line :: rest =>
    let step := answerLine now state line
    step.answer.toList ++ if step.stops then [] else answerLines now step.state rest

/-- The report on settings that the console cannot work with. A line break in the message is
indented like its first line. -/
def settingsReport (error : Settings.Error) : String :=
  let indented := error.message.toList.flatMap fun c =>
    if c = '\n' then ['\n', ' ', ' ', ' ', ' '] else [c]
  "Error: invalid wallet configuration\n\nCaused by:\n    " ++ String.ofList indented ++ "\n"

/-- The settings of the console, from the environment. -/
def settingsOf (env : String → Option String) : Except Settings.Error Settings := do
  let settings ← Settings.ofEnvironment env
  settings.validate
  return settings

end Console

end UtxoWallet
