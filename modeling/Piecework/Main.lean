import Piecework.Address
import Piecework.Startup

/-!
# The program

The first word chooses the command, `broker` or `worker`, and the rest are its
arguments. The environment and the one file that a command asks for are read
here; everything else is decided by the start of the command.
-/

namespace Piecework

/-- The environment variables that the commands look at. -/
def environmentNames : List String :=
  "RUST_LOG" :: BrokerArguments.settings.filterMap (·.environment)
    ++ WorkerArguments.settings.filterMap (·.environment)

/-- The environment as far as the commands look at it. -/
def readEnvironment : IO (String → Option String) := do
  let values ← environmentNames.mapM fun name => return (name, ← IO.getEnv name)
  return fun name => (values.lookup name).join

/-- What a path leads to. -/
def readFound (path : String) : IO Found := do
  try
    return .file (← IO.FS.readFile path)
  catch
    | .noFileOrDirectory .. => return .nothing
    | _ => return .unreadable

/-- The surroundings of a command that asks for at most one file. -/
def surroundings (environment : String → Option String) (path : Option String) :
    IO Surroundings := do
  let found ← match path with
    | none => pure .nothing
    | some path => readFound path
  return ⟨environment, fun p => if path = some p then found else .nothing⟩

/-- A made-up name: the host's name and eight hexadecimal digits. -/
def makeUpName : IO String := do
  let host ← try
      pure (← IO.FS.readFile "/etc/hostname").trimAscii.toString
    catch _ => pure "worker"
  let n ← IO.rand 0 (UInt32.size - 1)
  let digits := (List.range 8).map fun i => Json.hexDigit (n / Nat.pow 16 (7 - i) % 16)
  return host ++ "-" ++ String.ofList digits

/-- Start a broker and show what it shows. -/
def startBroker (args : List String) : IO UInt32 := do
  let environment ← readEnvironment
  let path := match BrokerArguments.read environment args with
    | .ok a => some a.config
    | .error _ => none
  let start := BrokerStart.run (← surroundings environment path) args
  if start.warned then
    IO.println ("WARN Config file " ++ path.getD "" ++ " not found, using defaults")
  if let some c := start.config then
    IO.println ("INFO Starting broker with config: " ++ c.shown)
    match Address.ofText c.address with
    | .error e => IO.eprintln ("Error: " ++ e.message)
    | .ok _ => IO.eprintln ("Error: cannot listen on " ++ c.address)
  return UInt32.ofNat start.exitCode

/-- Start a worker and show what it shows. -/
def startWorker (args : List String) : IO UInt32 := do
  let environment ← readEnvironment
  let path := match WorkerArguments.read environment args with
    | .ok a => a.config
    | .error _ => none
  let start := WorkerStart.run (← surroundings environment path) args
  if let some b := start.banner then
    let name ← match b.name with
      | .configured name => pure name
      | .generated => makeUpName
    IO.println ("INFO Polling broker at " ++ b.polling)
    IO.println ("INFO Starting worker " ++ name ++ " (concurrency: "
      ++ Decimal.text b.concurrency ++ ")")
    IO.println "INFO All tasks completed, shutting down"
  return UInt32.ofNat start.exitCode

end Piecework

/-- Run the command that the first word names. -/
def main : List String → IO UInt32
  | "broker" :: args => Piecework.startBroker args
  | "worker" :: args => Piecework.startWorker args
  | _ => do
    IO.eprintln "usage: piecework broker|worker [arguments]"
    return 2
