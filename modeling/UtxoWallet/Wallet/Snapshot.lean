import UtxoWallet.Update.Format
import UtxoWallet.Wallet

/-!
# Persisted wallets

A wallet is kept as the record `publicKey, state, protocolVersion, appliedId, networkId`, where
`state` is the record `availableUtxos, pendingUtxos` of its coins in key order. A wallet that is
taken up again is disconnected, and knows of no transaction beyond the last one it took in.
-/

namespace UtxoWallet.Wallet

/-- Why a persisted wallet cannot be taken up. -/
inductive SnapshotError where
  | unreadable
  | networkMismatch (expected found : String)
  | unsupportedVersion (version : UInt32)
  deriving DecidableEq

def SnapshotError.message : SnapshotError → String
  | .unreadable => "unreadable persisted state"
  | .networkMismatch expected found =>
    "persisted state belongs to network '" ++ found ++ "', expected '" ++ expected ++ "'"
  | .unsupportedVersion version =>
    "unsupported persisted protocol version " ++ version.toNat.repr

def toJson (wallet : Wallet) : Json :=
  .record [
    ("publicKey", .text wallet.owner),
    ("state", .record [
      ("availableUtxos", Json.list Coin.toJson wallet.ledger.availableCoins),
      ("pendingUtxos", Json.list Coin.toJson wallet.ledger.pendingCoins)]),
    ("protocolVersion", .natural wallet.version.toNat),
    ("appliedId", Json.nullable (fun id => .natural id.toNat) wallet.progress.applied),
    ("networkId", .text wallet.network)]

def ledgerOfJson? (json : Json) : Option Ledger := do
  let [available, pending] ← json.fields? ["availableUtxos", "pendingUtxos"] 2 | none
  return Ledger.restore (← Json.required (Json.list? Coin.ofJson?) available)
    (← Json.required (Json.list? Coin.ofJson?) pending)

/-- Reads the record of a wallet, of whichever network and version. -/
def ofJson? (json : Json) : Option Wallet := do
  let [owner, ledger, version, applied, network] ←
    json.fields? ["publicKey", "state", "protocolVersion", "appliedId", "networkId"] 5 | none
  return {
    owner := ← Json.required Json.text? owner
    ledger := ← Json.required ledgerOfJson? ledger
    version := ← Json.required Json.uint32? version
    progress := Progress.restored (← Json.optional Json.uint64? applied)
    network := ← Json.required Json.text? network }

def serialize (wallet : Wallet) : String :=
  wallet.toJson.write

/-- Takes up a persisted wallet of the expected network. -/
def deserialize (text : String) (network : String) : Except SnapshotError Wallet :=
  match (Json.read? text).bind ofJson? with
  | none => .error .unreadable
  | some wallet =>
    if wallet.network ≠ network then .error (.networkMismatch network wallet.network)
    else if wallet.version ≠ currentVersion then .error (.unsupportedVersion wallet.version)
    else .ok wallet

end UtxoWallet.Wallet
