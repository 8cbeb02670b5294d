import UtxoWallet.Terms
import UtxoWallet.Text.Blank

/-!
# Settings

The settings of a wallet come from variables of the environment. A variable that is absent or blank
leaves its default in place; one that cannot be read is an error, and the first such error in the
order of `Setting` counts. Settings that can be read may still make no sense; `validate` tells.
-/

namespace UtxoWallet

open UtxoWallet.Text

/-- The settings of a wallet. -/
structure Settings where
  network : String
  native : TokenType
  fees : Fees
  /-- How many transactions may be outstanding for the wallet to count as synchronised. -/
  syncGap : UInt64
  ttlSeconds : UInt64
  submissionTimeoutMs : UInt64
  requiredStage : Stage
  deriving DecidableEq

namespace Settings

/-- The settings where nothing is set. -/
def default : Settings :=
  { network := "undeployed"
    native := ⟨List.replicate 32 0⟩
    fees := Fees.free
    syncGap := 50
    ttlSeconds := 3600
    submissionTimeoutMs := 60000
    requiredStage := .inBlock }

instance : Inhabited Settings := ⟨default⟩

/-! ### Variables -/

/-- A setting, named by a variable of the environment. -/
inductive Setting where
  | network
  | nativeToken
  | inputFee
  | outputFee
  | syncGap
  | ttlSeconds
  | submissionTimeoutMs
  | requiredStage
  deriving DecidableEq

namespace Setting

/-- The name of a variable. -/
def name : Setting → String
  | .network => "UNSHIELDED_WALLET_NETWORK_ID"
  | .nativeToken => "UNSHIELDED_WALLET_NATIVE_TOKEN"
  | .inputFee => "UNSHIELDED_WALLET_INPUT_FEE_OVERHEAD"
  | .outputFee => "UNSHIELDED_WALLET_OUTPUT_FEE_OVERHEAD"
  | .syncGap => "UNSHIELDED_WALLET_SYNC_GAP"
  | .ttlSeconds => "UNSHIELDED_WALLET_TX_TTL_SECS"
  | .submissionTimeoutMs => "UNSHIELDED_WALLET_SUBMISSION_TIMEOUT_MS"
  | .requiredStage => "UNSHIELDED_WALLET_REQUIRED_STAGE"

/-- What a variable has to be. -/
def expected : Setting → String
  | .network => "a text"
  | .nativeToken => "a hex-encoded token type"
  | .inputFee | .outputFee | .syncGap | .ttlSeconds | .submissionTimeoutMs =>
    "a non-negative integer"
  | .requiredStage => "one of submitted, in_block, finalized"

end Setting

/-! ### Errors -/

/-- What is wrong with settings. -/
inductive Error where
  | invalidValue (setting : Setting) (value : String)
  | mustNotBeEmpty (setting : Setting)
  | mustBePositive (setting : Setting)
  | outOfRange (setting : Setting)
  deriving DecidableEq

def Error.message : Error → String
  | .invalidValue setting value =>
    setting.name ++ " must be " ++ setting.expected ++ "; got '" ++ value ++ "'"
  | .mustNotBeEmpty setting => setting.name ++ " must not be empty"
  | .mustBePositive setting => setting.name ++ " must be > 0"
  | .outOfRange setting => setting.name ++ " is out of range"

/-! ### Reading the environment -/

/-- Is there nothing but white space? -/
def isBlankText (text : String) : Bool :=
  text.toList.all isBlank

/-- The value of a variable by `read`, or the default if the variable is absent or blank. -/
def lookup (env : String → Option String) (setting : Setting) (default : α)
    (read : String → Option α) : Except Error α :=
  match (env setting.name).filter (!isBlankText ·) with
  | none => .ok default
  | some text =>
    match read text with
    | some value => .ok value
    | none => .error (.invalidValue setting text)

def trimmedNatural? (text : String) : Option Nat :=
  Decimal.read? (trim text.toList)

def trimmedAmount? (text : String) : Option Amount :=
  (trimmedNatural? text).bind Amount.ofNat?

def trimmedUInt64? (text : String) : Option UInt64 :=
  ((trimmedNatural? text).filter (· < UInt64.size)).map UInt64.ofNat

def ofEnvironment (env : String → Option String) : Except Error Settings := do
  let network ← lookup env .network default.network some
  let native ← lookup env .nativeToken default.native fun text => (TokenType.ofHex text).toOption
  let inputFee ← lookup env .inputFee default.fees.input trimmedAmount?
  let outputFee ← lookup env .outputFee default.fees.output trimmedAmount?
  let syncGap ← lookup env .syncGap default.syncGap trimmedUInt64?
  let ttlSeconds ← lookup env .ttlSeconds default.ttlSeconds trimmedUInt64?
  let submissionTimeoutMs ←
    lookup env .submissionTimeoutMs default.submissionTimeoutMs trimmedUInt64?
  let requiredStage ← lookup env .requiredStage default.requiredStage Stage.ofText?
  return {
    network, native, fees := ⟨inputFee, outputFee⟩, syncGap, ttlSeconds, submissionTimeoutMs,
    requiredStage }

/-- Checks that the settings make sense. -/
def validate (settings : Settings) : Except Error Unit :=
  if isBlankText settings.network then .error (.mustNotBeEmpty .network)
  else if settings.native.bytes.isEmpty then .error (.mustNotBeEmpty .nativeToken)
  else if settings.ttlSeconds = 0 then .error (.mustBePositive .ttlSeconds)
  else if settings.submissionTimeoutMs = 0 then .error (.mustBePositive .submissionTimeoutMs)
  else if Int64.maxValue.toInt < settings.ttlSeconds.toNat then .error (.outOfRange .ttlSeconds)
  else .ok ()

end Settings

/-- The terms of payment in some settings. -/
def Settings.terms (settings : Settings) : Terms :=
  { native := settings.native
    fees := settings.fees
    requiredStage := settings.requiredStage
    submissionTimeout := settings.submissionTimeoutMs.toNat
    lifetime := settings.ttlSeconds.toNat }

end UtxoWallet
