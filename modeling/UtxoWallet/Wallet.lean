import UtxoWallet.BindingSource
import UtxoWallet.Ledger
import UtxoWallet.Progress
import UtxoWallet.Selection
import UtxoWallet.Transaction.Imbalance

/-!
# The wallet

A wallet belongs to an owner on a network. Its coins change in three ways: the indexer reports
settled transactions; a transaction is balanced from the available coins, which makes them pending;
and a transaction is reverted, which makes those of its inputs that are pending available again.

Each operation gives the wallet after it, or an error; after an error the old wallet is in use.
-/

namespace UtxoWallet

/-! ### Errors -/

/-- Why the stream of the indexer ends before its time. -/
inductive FeedError where
  | subscribe (reason : String)
  | transport (reason : String)
  | decode (reason : String)
  | apply (id : UInt64) (error : LedgerError)
  deriving DecidableEq

def FeedError.message : FeedError → String
  | .subscribe reason => "failed to subscribe to updates: " ++ reason
  | .transport reason => "update stream transport failed: " ++ reason
  | .decode reason => "failed to decode remote update: " ++ reason
  | .apply id error =>
    "failed to apply transaction update " ++ id.toNat.repr ++ ": " ++ error.message

/-- Why a transaction cannot be balanced by the wallet. -/
inductive WalletError where
  | ledger (error : LedgerError)
  | balance (error : BalanceError)
  | transaction (error : TransactionError)
  deriving DecidableEq

def WalletError.message : WalletError → String
  | .ledger error => error.message
  | .balance error => error.message
  | .transaction error => error.message

/-! ### Wallets -/

/-- The state of a wallet. -/
structure Wallet where
  owner : String
  network : String
  /-- The version of the persisted form. -/
  version : UInt32
  ledger : Ledger
  progress : Progress
  deriving DecidableEq

namespace Wallet

/-- The version of the persisted form that this library writes and reads. -/
def currentVersion : UInt32 := 1

def start (owner network : String) : Wallet :=
  { owner, network, version := currentVersion, ledger := Ledger.empty, progress := Progress.initial }

instance : Inhabited Wallet := ⟨start "" ""⟩

/-! ### Reports of the indexer -/

/-- The ledger after a settled transaction, by the route of its status. -/
def settleLedger (ledger : Ledger) (update : Update) : Except LedgerError Ledger :=
  if update.status = .failure then ledger.applyFailed update else ledger.apply update

/-- Takes a report of the indexer in. -/
def applyNotice (wallet : Wallet) : Notice → Except FeedError Wallet
  | .progress highest => .ok { wallet with progress := wallet.progress.advance highest }
  | .transaction update =>
    match settleLedger wallet.ledger update with
    | .error error => .error (.apply update.id error)
    | .ok ledger => .ok { wallet with ledger, progress := wallet.progress.record update.id }

/-- The stream of the indexer is down. -/
def disconnect (wallet : Wallet) : Wallet :=
  { wallet with progress := wallet.progress.disconnect }

/-! ### Balancing -/

/-- What has to be added to a transaction so that it balances and pays its fees. -/
def selectFor (wallet : Wallet) (native : TokenType) (fees : Fees) (tx : Transaction) :
    Except WalletError (Selection Coin) := do
  if tx.network ≠ wallet.network then
    throw (.transaction (.networkMismatch tx.network wallet.network))
  let imbalances ← (tx.imbalancesAfterFees fees native).mapError .balance
  (Selection.ofImbalances wallet.ledger.availableCoins imbalances fees native).mapError .balance

/-- The offer of the balancing intent; the change goes to the owner. -/
def balancingOffer (wallet : Wallet) (selection : Selection Coin) : Offer :=
  { inputs := selection.inputs.map (·.toUtxo)
    outputs := selection.outputs.map fun change =>
      { value := change.value, owner := wallet.owner, token := change.token } }

/-- Adds the balancing intent to a transaction, and makes its inputs pending. -/
def commit (wallet : Wallet) (tx : Transaction) (intent : Intent) :
    Except WalletError (Transaction × Wallet) := do
  let balanced ← (tx.withIntent intent).mapError .transaction
  let keys := intent.inputs.map (·.key)
  let ledger ← (keys.foldlM Ledger.spend wallet.ledger).mapError .ledger
  return (balanced, { wallet with ledger })

/-- Balances a transaction, and pays its fees, from the available coins. A transaction that balances
already stays as it is. The balancing intent draws its binding as soon as there is something to
add. -/
def balance (wallet : Wallet) (native : TokenType) (fees : Fees) (ttl : Instant)
    (tx : Transaction) (bindings : BindingSource) :
    Except WalletError (Transaction × Wallet) × BindingSource :=
  match wallet.selectFor native fees tx with
  | .error error => (.error error, bindings)
  | .ok selection =>
    if selection.isEmpty then (.ok (tx, wallet), bindings)
    else
      let intent := Intent.make ttl (wallet.balancingOffer selection) bindings.next
      (wallet.commit tx intent, bindings.rest)

/-! ### Reverting -/

/-- Makes the coin with a key available again if it is pending, and counts it. -/
def revertKey (state : Ledger × Nat) (key : UtxoKey) : Except LedgerError (Ledger × Nat) :=
  match state.1.pending.get? key with
  | none => .ok state
  | some coin => (state.1.rollback coin.key).map fun ledger => (ledger, state.2 + 1)

/-- Makes the pending inputs of a transaction available again, and counts them. Inputs that the
wallet does not know, or that are settled, are passed over. -/
def revert (wallet : Wallet) (tx : Transaction) : Except LedgerError (Wallet × Nat) :=
  ((tx.inputs.map (·.key)).foldlM revertKey (wallet.ledger, 0)).map fun (ledger, count) =>
    ({ wallet with ledger }, count)

end Wallet

end UtxoWallet
