import UtxoWallet.Update.Format

/-!
# Commands of the console

A line of the console holds one request, an object with an `id`, a `command`, and the arguments of
the command beside them. Of two members with one key the later counts, and members that the command
does not know are passed over.
-/

namespace UtxoWallet.Console

/-- What the console is asked to do. -/
inductive Command where
  | init (owner : String) (network native : Option String) (inputFee outputFee : Option UInt64)
  | applyUpdate (notice : Notice)
  | balances
  | transfer (outputs : List Output) (ttl : Option Instant) (reject : Bool)
  | expireStale (now : Option Instant)
  | serializeState
  | restoreState (text : String)
  | pending
  | shutdown

/-- A command with the number that its answer carries. -/
structure Request where
  id : UInt64
  command : Command

namespace Command

/-- The names of the commands. -/
def names : List String :=
  ["init", "apply_update", "balances", "transfer", "expire_stale", "serialize_state",
    "restore_state", "pending", "shutdown"]

/-- Reads the name of a command, which may be given by its index. -/
def name? : Json → Option String
  | .string name => name
  | .number (.natural index) => names[index]?
  | _ => none

def ofArguments? (name : String) (arguments : Json) : Option Command :=
  match name with
  | "init" => do
    let [owner, network, native, inputFee, outputFee] ← arguments.fields?
      ["public_key", "network_id", "native_token", "input_fee_overhead", "output_fee_overhead"] 5
      | none
    return .init (← Json.required Json.text? owner) (← Json.optional Json.text? network)
      (← Json.optional Json.text? native) (← Json.optional Json.uint64? inputFee)
      (← Json.optional Json.uint64? outputFee)
  | "apply_update" => do
    let [notice] ← arguments.fields? ["update"] 1 | none
    return .applyUpdate (← Json.required (Notice.ofJson? .indexed) notice)
  | "balances" => some .balances
  | "transfer" => do
    let [outputs, ttl, reject] ← arguments.fields? ["outputs", "ttl", "reject"] 2 | none
    return .transfer (← Json.required (Json.list? Output.ofJson?) outputs)
      (← Json.optional Timestamp.ofJson? ttl) (← Json.orElse false Json.bool? reject)
  | "expire_stale" => do
    let [now] ← arguments.fields? ["now"] 1 | none
    return .expireStale (← Json.optional Timestamp.ofJson? now)
  | "serialize_state" => some .serializeState
  | "restore_state" => do
    let [text] ← arguments.fields? ["state"] 1 | none
    return .restoreState (← Json.required Json.text? text)
  | "pending" => some .pending
  | "shutdown" => some .shutdown
  | _ => none

end Command

namespace Request

/-- The `id` of a request that cannot be read, zero if there is none. -/
def idOrZero : Json → UInt64
  | .object members => ((Json.member? "id" members).bind Json.uint64?).getD 0
  | _ => 0

def ofJson? : Json → Option Request
  | .object members => do
    let id ← Json.uint64? (← Json.member? "id" members)
    let name ← Command.name? (← Json.member? "command" members)
    return ⟨id, ← Command.ofArguments? name (.object members)⟩
  | _ => none

end Request

end UtxoWallet.Console
