import UtxoWallet.OrderedSet
import UtxoWallet.Sha256
import UtxoWallet.Transaction
import UtxoWallet.Wire

/-!
# The identity of intents

An intent is identified by the SHA-256 hash of its binding and its fields, and an output by that
hash and its place. In the hashed bytes each list and text stands behind its length, so they tell
all about the intent but whether an empty offer is there.
-/

namespace UtxoWallet

open UtxoWallet.Text UtxoWallet.Wire

/-! ### The bytes that are hashed -/

/-- A list of bytes behind its length. -/
def lengthFirst (bytes : List UInt8) : List UInt8 :=
  littleEndian 8 bytes.length ++ bytes

def Output.hashedBytes (output : Output) : List UInt8 :=
  littleEndian 16 output.value.toNat ++ lengthFirst (utf8 output.owner) ++
    lengthFirst output.token.bytes

def Utxo.hashedBytes (utxo : Utxo) : List UInt8 :=
  utxo.toOutput.hashedBytes ++ lengthFirst utxo.key.intentHash.bytes ++
    littleEndian 4 utxo.key.outputNo.toNat

namespace Intent

/-- What the hashed bytes of every intent begin with. -/
def hashTag : List UInt8 :=
  utf8 "unshielded-intent:"

def hashedBytes (intent : Intent) : List UInt8 :=
  hashTag ++ intent.binding.bytes ++ littleEndian 8 intent.ttl.toUInt64.toNat ++
    littleEndian 8 intent.inputs.length ++ intent.inputs.flatMap Utxo.hashedBytes ++
    littleEndian 8 intent.outputs.length ++ intent.outputs.flatMap Output.hashedBytes

/-- The hash of an intent. -/
def hash (intent : Intent) : IntentHash :=
  ⟨Sha256.hash intent.hashedBytes⟩

/-- The outputs that the intent creates, with their names. A place is a number of 32 bits; there is
no name for an output behind the last place. -/
def created (intent : Intent) : List Utxo :=
  (intent.outputs.take UInt32.size).zipIdx.map fun (output, place) =>
    { output with key := ⟨intent.hash, UInt32.ofNat place⟩ }

end Intent

namespace Transaction

/-- The hashes of the intents, in hexadecimal. -/
def identifiers (tx : Transaction) : OrderedSet String :=
  OrderedSet.ofList (tx.intents.values.map fun intent => intent.hash.hex)

/-- The hash of the intent in the lowest segment, in hexadecimal. -/
def firstIdentifier? (tx : Transaction) : Option String :=
  tx.intents.values.head?.map fun intent => intent.hash.hex

/-- The outputs that the transaction creates, with their names. -/
def created (tx : Transaction) : List Utxo :=
  tx.intents.values.flatMap Intent.created

end Transaction

end UtxoWallet
