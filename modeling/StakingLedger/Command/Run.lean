import StakingLedger.Command.Arguments
import StakingLedger.Command.Path
import StakingLedger.Command.Report
import StakingLedger.Document.Json
import StakingLedger.Document.Toml.Basic
import StakingLedger.ValidatorSet

/-! # Running commands

A command meets a workspace, the files around it: configurations by path, and
databases. It reads its configuration, opens the database named there (a new
one if there is none), does its task and leaves behind what it committed, even
when it fails later on.
-/

namespace StakingLedger

/-- The files that commands meet, by the shortest paths to them. -/
structure Workspace where
  /-- Configurations, as far as they make sense. -/
  documents : OrderedMap String (Except SyntaxFault Document) := .empty
  databases : OrderedMap String Store := .empty

/-- Why a command fails. -/
inductive CommandError where
  | unreadable (path : String) (fault : FileFault)
  | garbled (fault : SyntaxFault)
  | malformed (fault : ReadError)
  | ledger (fault : LedgerError)
  deriving DecidableEq

def CommandError.message : CommandError → String
  | .unreadable path fault => s!"failed to read config {path}: {fault.message}"
  | .garbled fault => fault.message
  | .malformed fault => fault.message
  | .ledger fault => fault.message

/-- What stands before the first line end of a text: a line feed, or a carriage return and a line
feed. -/
def firstLine (text : String) : String :=
  let characters := text.toList
  let line := characters.takeWhile (· ≠ '\n')
  if line.length < characters.length ∧ line.getLast? = some '\r' then String.ofList line.dropLast
  else String.ofList line

/-- How a command ends. -/
inductive Outcome where
  /-- The task is done; this is shown. -/
  | shown (text : String)
  | failed (cause : CommandError)
  /-- The command line is no command. -/
  | refused
  deriving DecidableEq

namespace Outcome

/-- The exit code. -/
def exitCode : Outcome → Nat
  | shown _ => 0
  | failed _ => 1
  | refused => 2

/-- What goes to standard output. -/
def output : Outcome → String
  | shown text => text
  | _ => ""

/-- The report of a failure. -/
def errorText? : Outcome → Option String
  | failed cause => some ("Error: " ++ cause.message)
  | _ => none

/-- The first line of the report of a failure. -/
def errorLine? (outcome : Outcome) : Option String := outcome.errorText?.map firstLine

end Outcome

/-- The configuration that a document holds, once it is checked. -/
def checkedConfig (d : Document) : Except CommandError LedgerConfig := do
  let config : LedgerConfig ← (readDocument .toml d).mapError .malformed
  config.validate.mapError .ledger
  return config

namespace Workspace

/-- The paths of all files. -/
def paths (w : Workspace) : List String := w.documents.keys ++ w.databases.keys

/-- What stands where: the files, the directories that lead to them, and those that are always
there. -/
def tree (w : Workspace) : FileTree where
  isFile p := w.paths.contains p.text
  isDirectory p := p.isKnownDirectory || w.paths.any (·.startsWith (p.text ++ "/"))

/-- What stands in a configuration file. -/
def document (w : Workspace) (path : String) : Except CommandError Document :=
  match w.tree.locate path with
  | .error fault => .error (.unreadable path fault)
  | .ok place =>
    match w.documents.get? place.text with
    | some (.ok d) => .ok d
    | some (.error fault) => .error (.garbled fault)
    | none =>
      .error (.unreadable path (if w.databases.contains place.text then .binary else .directory))

/-- The content of a database; a new one is empty. -/
def database (w : Workspace) (path : String) : Store :=
  (w.databases.get? (Place.ofPath path).text).getD {}

/-- Leaves a database behind. -/
def keep (w : Workspace) (path : String) (store : Store) : Workspace :=
  { w with databases := w.databases.insert (Place.ofPath path).text store }

end Workspace

namespace Command

/-- The text of a document on lines of its own. -/
def lines (d : Document) : String := d.json ++ "\n"

/-- Lists the validators of a supernet, now or as of a height. -/
def listValidators (s : State) (supernet : EntityId) (height : Option UInt64) :
    Answer (List ValidatorEntry) :=
  match height with
  | some height => s.validatorSetAt supernet height
  | none => (Ledger.root s).validatorSet supernet

/-- Does the task on a store: what is shown, and the store afterwards. -/
def perform (command : Command) (config : LedgerConfig) (store : Store) : Answer String × Store :=
  match command with
  | init =>
    match State.fromGenesis store config.genesis config.staking with
    | .ok s => (.ok "", s.store)
    | .error e => (.error e, store)
  | validators supernet height =>
    (do
      let s ← State.load store
      let entries ← listValidators s supernet height
      return lines (.list (entries.map (·.view))), store)
  | advance target paid =>
    match State.load store with
    | .error e => (.error e, store)
    | .ok s =>
      let rewards := configuredRewards config.staking.reward
      let (answer, s) := (State.advanceTo rewards target paid).run s
      (answer.map fun steps => lines (.list (steps.map (·.document))), s.store)
  | status supernet =>
    (do
      let s ← State.load store
      let figures ← s.status supernet
      return lines figures.document, store)

/-- Does the task on a store: how it ends, and the store afterwards. -/
def run (command : Command) (config : LedgerConfig) (store : Store) : Outcome × Store :=
  match command.perform config store with
  | (.ok text, store) => (.shown text, store)
  | (.error e, store) => (.failed (.ledger e), store)

end Command

namespace Workspace

/-- Runs an invocation: how it ends, and the files afterwards. -/
def invoke (w : Workspace) (invocation : Invocation) : Outcome × Workspace :=
  match w.document invocation.configPath >>= checkedConfig with
  | .error e => (.failed e, w)
  | .ok config =>
    let (outcome, store) := invocation.command.run config (w.database config.dbPath)
    (outcome, w.keep config.dbPath store)

/-- Runs a command line. -/
def run (w : Workspace) (arguments : List String) : Outcome × Workspace :=
  match Request.ofArguments? arguments with
  | none => (.refused, w)
  | some .version => (.shown versionText, w)
  | some (.run invocation) => w.invoke invocation

/-- Runs several command lines in turn over the same files. -/
def runAll (w : Workspace) : List (List String) → List Outcome
  | [] => []
  | arguments :: rest =>
    let (outcome, w) := w.run arguments
    outcome :: w.runAll rest

end Workspace

end StakingLedger
