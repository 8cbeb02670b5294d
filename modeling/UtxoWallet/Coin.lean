import UtxoWallet.Amount
import UtxoWallet.Text.Hex
import UtxoWallet.Time.Instant

/-!
# Coins

An output gives an amount of one token to an owner. It is named by its key: the hash of the intent
that creates it, and its place among the outputs of that intent. An unspent output together with
what the wallet knows about it is a coin.

Keys are ordered by the bytes of the hash first, then by the place.
-/

namespace UtxoWallet

open UtxoWallet.Text

/-! ### Names -/

/-- A kind of value, such as the token that fees are paid in. -/
structure TokenType where
  bytes : List UInt8
  deriving DecidableEq, Inhabited

/-- The hash of an intent. -/
structure IntentHash where
  bytes : List UInt8
  deriving DecidableEq, Inhabited

/-- The name of an output. -/
structure UtxoKey where
  intentHash : IntentHash
  outputNo : UInt32
  deriving DecidableEq, Inhabited

def TokenType.hex (token : TokenType) : String :=
  Hex.encode token.bytes

def IntentHash.hex (hash : IntentHash) : String :=
  Hex.encode hash.bytes

def UtxoKey.text (key : UtxoKey) : String :=
  key.intentHash.hex ++ "#" ++ Decimal.write key.outputNo.toNat

def TokenType.ofHex (text : String) : Except Hex.Error TokenType :=
  (Hex.decode text).map TokenType.mk

/-! ### The order of names -/

instance : Ord TokenType := ⟨compareOn TokenType.bytes⟩

instance : Ord IntentHash := ⟨compareOn IntentHash.bytes⟩

instance : Ord UtxoKey := ⟨compareLex (compareOn UtxoKey.intentHash) (compareOn UtxoKey.outputNo)⟩

instance : Std.TransOrd TokenType :=
  inferInstanceAs (Std.TransCmp (compareOn TokenType.bytes))

instance : Std.TransOrd IntentHash :=
  inferInstanceAs (Std.TransCmp (compareOn IntentHash.bytes))

instance : Std.TransOrd UtxoKey :=
  inferInstanceAs
    (Std.TransCmp (compareLex (compareOn UtxoKey.intentHash) (compareOn UtxoKey.outputNo)))

instance : Std.LawfulEqOrd TokenType where
  eq_of_compare {s t} h := by
    cases s; cases t
    exact congrArg TokenType.mk (Std.LawfulEqOrd.eq_of_compare h)

instance : Std.LawfulEqOrd IntentHash where
  eq_of_compare {s t} h := by
    cases s; cases t
    exact congrArg IntentHash.mk (Std.LawfulEqOrd.eq_of_compare h)

instance : Std.LawfulEqOrd UtxoKey where
  eq_of_compare {s t} h := by
    obtain ⟨hash, no⟩ := Ordering.then_eq_eq.1 h
    cases s; cases t
    exact congr (congrArg UtxoKey.mk (Std.LawfulEqOrd.eq_of_compare hash))
      (Std.LawfulEqOrd.eq_of_compare no)

/-! ### Outputs and coins -/

/-- An amount of a token for an owner. -/
structure Output where
  value : Amount
  owner : String
  token : TokenType
  deriving DecidableEq, Inhabited

/-- An output with its name. -/
structure Utxo extends Output where
  key : UtxoKey
  deriving DecidableEq, Inhabited

/-- An output that the wallet holds: when it was created, if that is known, and whether it is
registered for the generation of dust. -/
structure Coin extends Utxo where
  createdAt : Option Instant
  dustRegistered : Bool
  deriving DecidableEq, Inhabited

end UtxoWallet
