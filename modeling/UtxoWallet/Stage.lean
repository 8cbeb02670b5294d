import UtxoWallet.Json.Record

/-!
# Stages of a submission

The network accepts a transaction, puts it into a block, and makes the block final. The wallet asks
for one of these stages as the least that it takes for success.
-/

namespace UtxoWallet

/-- How far the network has taken a transaction. -/
inductive Stage where
  | submitted
  | inBlock
  | finalized
  deriving DecidableEq, Inhabited

namespace Stage

/-- The stages in order. -/
def all : List Stage :=
  [.submitted, .inBlock, .finalized]

def text : Stage → String
  | .submitted => "submitted"
  | .inBlock => "in_block"
  | .finalized => "finalized"

/-- The place of a stage in the order. -/
def rank : Stage → Nat
  | .submitted => 0
  | .inBlock => 1
  | .finalized => 2

/-- Does `a` come before `b`? -/
def isBelow (a b : Stage) : Bool :=
  a.rank < b.rank

/-- The stage with a name. -/
def ofText? (name : String) : Option Stage :=
  all.find? fun stage => stage.text = name

/-- The message for a name that no stage has. -/
def unknownMessage (name : String) : String :=
  "unknown submission stage '" ++ name ++ "'"

def toJson (stage : Stage) : Json :=
  .text stage.text

def ofJson? (json : Json) : Option Stage :=
  (json.name? .text).bind ofText?

end Stage

end UtxoWallet
