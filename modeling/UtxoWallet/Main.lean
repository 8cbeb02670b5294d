import Std.Time.DateTime
import UtxoWallet.Console

/-!
# The console as a program

Settings come from the environment, requests from the standard input, one a line, and answers go to
the standard output.
-/

namespace UtxoWallet.Console

/-- The time of the system clock. -/
def systemTime : IO Instant := do
  let now ← Std.Time.Timestamp.now
  let seconds := now.toSecondsSinceUnixEpoch.toInt
  let nanos := now.toNanosecondsSinceUnixEpoch.toInt - seconds * 1000000000
  return (Instant.ofParts? seconds nanos.toNat).getD Instant.latest

/-- A line without its line break. -/
def withoutLineBreak (line : String) : String :=
  let s := line.toList.reverse
  let s := if s.head? = some '\n' then s.tail else s
  let s := if s.head? = some '\r' then s.tail else s
  String.ofList s.reverse

def readEnvironment : IO (String → Option String) := do
  let settings : List Settings.Setting :=
    [.network, .nativeToken, .inputFee, .outputFee, .syncGap, .ttlSeconds, .submissionTimeoutMs,
      .requiredStage]
  let values ← settings.mapM fun setting => do
    return (setting.name, ← IO.getEnv setting.name)
  return fun name => (values.lookup name).join

/-- Answers line after line. -/
partial def loop (input output : IO.FS.Stream) (state : State) : IO Unit := do
  let line ← input.getLine
  if line.isEmpty then return
  let step := answerLine (← systemTime) state (withoutLineBreak line)
  if let some answer := step.answer then
    output.putStrLn answer.write
    output.flush
  if step.stops then return
  loop input output step.state

/-- Runs the console on the standard streams; the exit code tells whether the settings make sense. -/
def program : IO UInt32 := do
  match settingsOf (← readEnvironment) with
  | .error error =>
    (← IO.getStderr).putStr (settingsReport error)
    return 1
  | .ok settings =>
    loop (← IO.getStdin) (← IO.getStdout) (start settings)
    return 0

end UtxoWallet.Console

/-- Runs the console. -/
def main : IO UInt32 :=
  UtxoWallet.Console.program
