import UtxoWallet.OrderedMap
import UtxoWallet.Update

/-!
# The ledger

The wallet's coins are available, or pending as inputs of a transaction that is not settled yet.
Each transition gives a new ledger; one that fails leaves the old one in use.

What a transition does to a key is said by the lookups in both maps, `available.get?` and
`pending.get?`.
-/

namespace UtxoWallet

/-- The coins by their keys. -/
abbrev CoinMap := OrderedMap UtxoKey Coin

/-- The coins that can be spent, and those that are being spent. -/
structure Ledger where
  available : CoinMap
  pending : CoinMap
  deriving DecidableEq

/-- The two ways in which a settled transaction reaches the ledger. -/
inductive Outcome where
  | success
  | failure
  deriving DecidableEq

/-- The name of an outcome. -/
def Outcome.text : Outcome → String
  | .success => "success"
  | .failure => "failure"

/-- Why a transition is refused. -/
inductive LedgerError where
  | utxoNotFound (key : UtxoKey)
  /-- An update came to the transition for the other outcome. -/
  | wrongStatus (id : UInt64) (status : Status) (expected : Outcome)
  deriving DecidableEq

def LedgerError.message : LedgerError → String
  | .utxoNotFound key => "UTXO " ++ key.text ++ " not found"
  | .wrongStatus id status expected =>
    "cannot apply transaction " ++ id.toNat.repr ++ " with status " ++ status.text ++ " on the " ++
      expected.text ++ " path"

/-! ### Balances -/

/-- What some coins are worth, token by token. A sum that does not fit stays at the greatest
amount. -/
def balancesOf (coins : List Coin) : OrderedMap TokenType Amount :=
  coins.foldl (fun sums coin =>
    sums.insert coin.token
      (((sums.get? coin.token).getD Amount.zero).addSaturating coin.value)) OrderedMap.empty

/-- Coins behind their keys. -/
def keyed (coins : List Coin) : List (UtxoKey × Coin) :=
  coins.map fun coin => (coin.key, coin)

namespace Ledger

def empty : Ledger :=
  ⟨OrderedMap.empty, OrderedMap.empty⟩

instance : Inhabited Ledger := ⟨empty⟩

/-- The ledger of two lists of coins. Of two coins with one key the later counts, and a key in both
lists is pending. -/
def restore (available pending : List Coin) : Ledger :=
  let pending := OrderedMap.ofList (keyed pending)
  ⟨(OrderedMap.ofList (keyed available)).filter (!pending.contains ·), pending⟩

def availableCoins (ledger : Ledger) : List Coin :=
  ledger.available.values

def pendingCoins (ledger : Ledger) : List Coin :=
  ledger.pending.values

/-- The available coins that are registered for the generation of dust. -/
def dustRegisteredCoins (ledger : Ledger) : List Coin :=
  ledger.availableCoins.filter (·.dustRegistered)

def availableBalances (ledger : Ledger) : OrderedMap TokenType Amount :=
  balancesOf ledger.availableCoins

def pendingBalances (ledger : Ledger) : OrderedMap TokenType Amount :=
  balancesOf ledger.pendingCoins

/-- What the wallet holds if no pending transaction takes effect. -/
def totalBalances (ledger : Ledger) : OrderedMap TokenType Amount :=
  balancesOf (ledger.availableCoins ++ ledger.pendingCoins)

/-! ### Local transitions -/

/-- Moves an available coin to the pending ones. -/
def spend (ledger : Ledger) (key : UtxoKey) : Except LedgerError Ledger :=
  match ledger.available.get? key with
  | none => .error (.utxoNotFound key)
  | some coin => .ok ⟨ledger.available.erase key, ledger.pending.insert key coin⟩

/-- Moves a pending coin back to the available ones. -/
def rollback (ledger : Ledger) (key : UtxoKey) : Except LedgerError Ledger :=
  match ledger.pending.get? key with
  | none => .error (.utxoNotFound key)
  | some coin => .ok ⟨ledger.available.insert key coin, ledger.pending.erase key⟩

/-- Spends the available coin of an unspent output. -/
def spendByKey (ledger : Ledger) (utxo : Utxo) : Except LedgerError Ledger :=
  match ledger.available.get? utxo.key with
  | none => .error (.utxoNotFound utxo.key)
  | some coin => ledger.spend coin.key

/-- Rolls back the pending coin of an unspent output. -/
def rollbackByKey (ledger : Ledger) (utxo : Utxo) : Except LedgerError Ledger :=
  match ledger.pending.get? utxo.key with
  | none => .error (.utxoNotFound utxo.key)
  | some coin => ledger.rollback coin.key

/-! ### Settled transactions -/

/-- The ledger without some keys. -/
def without (ledger : Ledger) (keys : List UtxoKey) : Ledger :=
  ⟨ledger.available.filter (!keys.contains ·), ledger.pending.filter (!keys.contains ·)⟩

/-- Takes the coins that an update reports spent out of the ledger, and puts those that it reports
created into it. Coins that are gone already are no error, so an update may come twice. -/
def apply (ledger : Ledger) (update : Update) : Except LedgerError Ledger :=
  if update.status.isApplied then
    -- Spent coins go first: a coin that is both spent and created stays.
    let rest := ledger.without (update.spent.map (·.key))
    .ok { rest with available := rest.available.insertAll (keyed update.created) }
  else .error (.wrongStatus update.id update.status .success)

/-- Puts the coins that a failed transaction would have spent back to the available ones. -/
def applyFailed (ledger : Ledger) (update : Update) : Except LedgerError Ledger :=
  if update.status.isApplied then .error (.wrongStatus update.id update.status .failure)
  else .ok {
    available := ledger.available.insertAll (keyed update.spent)
    pending := ledger.pending.filter (!(update.spent.map (·.key)).contains ·) }

end Ledger

end UtxoWallet
