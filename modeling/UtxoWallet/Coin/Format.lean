import UtxoWallet.Coin
import UtxoWallet.Time.Timestamp

/-!
# Outputs and coins in JSON

An output is the record `value, owner, type`, an unspent output the record `value, owner, type,
intentHash, outputNo`, a coin the record `utxo, meta` with `ctime, registeredForDustGeneration` in
the latter. Amounts are decimal texts, bytes are in hexadecimal, and `ctime` may be null.
-/

namespace UtxoWallet

open UtxoWallet.Text

def Json.bytes? (value : Json) : Option (List UInt8) :=
  value.text?.bind fun text => (Hex.decode text).toOption

namespace Output

def toJson (output : Output) : Json :=
  .record [
    ("value", output.value.toJson),
    ("owner", .text output.owner),
    ("type", .text output.token.hex)]

def ofJson? (json : Json) : Option Output := do
  let [value, owner, token] ← json.fields? ["value", "owner", "type"] 3 | none
  return {
    value := ← Json.required Amount.ofJson? value
    owner := ← Json.required Json.text? owner
    token := ⟨← Json.required Json.bytes? token⟩ }

end Output

namespace Utxo

def toJson (utxo : Utxo) : Json :=
  .record [
    ("value", utxo.value.toJson),
    ("owner", .text utxo.owner),
    ("type", .text utxo.token.hex),
    ("intentHash", .text utxo.key.intentHash.hex),
    ("outputNo", .natural utxo.key.outputNo.toNat)]

def ofJson? (json : Json) : Option Utxo := do
  let [value, owner, token, intentHash, outputNo] ←
    json.fields? ["value", "owner", "type", "intentHash", "outputNo"] 5 | none
  return {
    value := ← Json.required Amount.ofJson? value
    owner := ← Json.required Json.text? owner
    token := ⟨← Json.required Json.bytes? token⟩
    key := {
      intentHash := ⟨← Json.required Json.bytes? intentHash⟩
      outputNo := ← Json.required Json.uint32? outputNo } }

end Utxo

namespace Coin

def metaToJson (createdAt : Option Instant) (dustRegistered : Bool) : Json :=
  .record [
    ("ctime", Json.nullable Timestamp.toJson createdAt),
    ("registeredForDustGeneration", .bool dustRegistered)]

def metaOfJson? (json : Json) : Option (Option Instant × Bool) := do
  let [createdAt, dustRegistered] ←
    json.fields? ["ctime", "registeredForDustGeneration"] 2 | none
  return (← Json.optional Timestamp.ofJson? createdAt, ← Json.required Json.bool? dustRegistered)

def toJson (coin : Coin) : Json :=
  .record [
    ("utxo", coin.toUtxo.toJson),
    ("meta", metaToJson coin.createdAt coin.dustRegistered)]

def ofJson? (json : Json) : Option Coin := do
  let [utxo, info] ← json.fields? ["utxo", "meta"] 2 | none
  let (createdAt, dustRegistered) ← Json.required metaOfJson? info
  return { ← Json.required Utxo.ofJson? utxo with createdAt, dustRegistered }

end Coin

end UtxoWallet
