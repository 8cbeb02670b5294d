import UtxoWallet.Transaction
import UtxoWallet.Wire

/-!
# Transactions as messages

A transaction is sent and kept in the binary format: the network, the intents with their segments,
and whether it is proven. An intent is its time to live, its offer, and the sixteen bytes of its
binding. Segments are written in ascending order but read in any; of two intents in one segment the
later counts.
-/

namespace UtxoWallet

open UtxoWallet.Wire

namespace Output

def encode (output : Output) : List UInt8 :=
  encodeNat output.value.toNat ++ encodeText output.owner ++ encodeBytes output.token.bytes

def decode : Decoder Output := do
  let value ← decodeNat 16
  let owner ← decodeText
  let token ← decodeBytes
  return { value := ⟨value % Amount.size, Nat.mod_lt _ (by decide)⟩, owner, token := ⟨token⟩ }

end Output

namespace Utxo

def encode (utxo : Utxo) : List UInt8 :=
  utxo.toOutput.encode ++ encodeBytes utxo.key.intentHash.bytes ++
    encodeNat utxo.key.outputNo.toNat

def decode : Decoder Utxo := do
  let output ← Output.decode
  let intentHash ← decodeBytes
  let outputNo ← decodeNat 4
  return { output with key := ⟨⟨intentHash⟩, UInt32.ofNat outputNo⟩ }

end Utxo

namespace Offer

def encode (offer : Offer) : List UInt8 :=
  encodeList Utxo.encode offer.inputs ++ encodeList Output.encode offer.outputs

def decode : Decoder Offer := do
  let inputs ← decodeList Utxo.decode
  let outputs ← decodeList Output.decode
  return { inputs, outputs }

end Offer

def Binding.decode : Decoder Binding := fun bytes =>
  match raw 16 bytes with
  | .error reason => .error reason
  | .ok (taken, rest) =>
    if h : taken.length = 16 then .ok (⟨taken, h⟩, rest) else .error .unexpectedEnd

namespace Intent

def encode (intent : Intent) : List UInt8 :=
  encodeInt64 intent.ttl ++ encodeOption Offer.encode intent.offer ++ intent.binding.bytes

def decode : Decoder Intent := do
  let ttl ← decodeInt64
  let offer ← decodeOption Offer.decode
  let binding ← Binding.decode
  return { ttl, offer, binding }

end Intent

namespace Transaction

def encodeEntry (entry : UInt16 × Intent) : List UInt8 :=
  encodeNat entry.1.toNat ++ entry.2.encode

def decodeEntry : Decoder (UInt16 × Intent) := do
  let segment ← decodeNat 2
  let intent ← Intent.decode
  return (UInt16.ofNat segment, intent)

def encode (tx : Transaction) : List UInt8 :=
  encodeText tx.network ++ encodeList encodeEntry tx.intents.entries ++ encodeBool tx.proven

def decode : Decoder Transaction := do
  let network ← decodeText
  let entries ← decodeList decodeEntry
  let proven ← decodeBool
  return { network, intents := OrderedMap.ofList entries, proven }

/-- The message of a transaction. -/
def toBytes (tx : Transaction) : List UInt8 :=
  tx.encode

def ofBytes (bytes : List UInt8) : Except Wire.Error Transaction :=
  decodeMessage decode bytes

/-- The message of a transaction, in hexadecimal. -/
def toHex (tx : Transaction) : String :=
  Text.Hex.encode tx.toBytes

def ofHex (text : String) : Except Wire.Error Transaction :=
  decodeHexMessage decode text

end Transaction

end UtxoWallet
