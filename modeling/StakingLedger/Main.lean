import StakingLedger.Command.Run
import StakingLedger.Store.Text

/-! # The operator's tool

Reads the files that a command line needs, runs it, and writes back the
database.
-/

namespace StakingLedger

/-- Why a file could not be read. A directory opens but does not read, and then no path is named. -/
def FileFault.ofError : IO.Error → FileFault
  | .inappropriateType (some _) .. => .notDirectory
  | .inappropriateType none .. => .directory
  | .invalidArgument .. => .nameTooLong
  | .userError _ => .binary
  | _ => .absent

/-- The text of a file. -/
def readText (path : String) : IO (Except FileFault String) := do
  try
    return .ok (← IO.FS.readFile path)
  catch e =>
    return .error (.ofError e)

/-- The configuration in a file. -/
def readConfig (path : String) : IO (Except CommandError LedgerConfig) := do
  match ← readText path with
  | .error fault => return .error (.unreadable path fault)
  | .ok text => return (Document.ofToml text).mapError .garbled >>= checkedConfig

/-- The database in a file, an empty one if there is no file. -/
def readDatabase (path : String) : IO (Except CommandError Store) := do
  match ← readText path with
  | .error .absent => return .ok {}
  | .error fault => return .error (.ledger (StoreError.backend fault.message).toLedgerError)
  | .ok text =>
    match Store.ofText? text with
    | some store => return .ok store
    | none =>
      return .error (.ledger (StoreError.backend s!"{path} holds no database").toLedgerError)

/-- Runs an invocation on the files around it. -/
def invokeOnFiles (invocation : Invocation) : IO Outcome := do
  match ← readConfig invocation.configPath with
  | .error e => return .failed e
  | .ok config =>
    match ← readDatabase config.dbPath with
    | .error e => return .failed e
    | .ok store =>
      let (outcome, store) := invocation.command.run config store
      IO.FS.writeFile config.dbPath store.text
      return outcome

/-- Runs a command line on the files around it. -/
def runOnFiles (arguments : List String) : IO Outcome :=
  match Request.ofArguments? arguments with
  | some (.run invocation) => invokeOnFiles invocation
  | _ => return (Workspace.run {} arguments).1

end StakingLedger

open StakingLedger in
/-- Runs the command line of the process. -/
def main (arguments : List String) : IO UInt32 := do
  let outcome ← runOnFiles arguments
  IO.print outcome.output
  if let some text := outcome.errorText? then IO.eprintln text
  return UInt32.ofNat outcome.exitCode
