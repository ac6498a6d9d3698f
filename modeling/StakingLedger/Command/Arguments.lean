import StakingLedger.Identifier

/-! # Command lines

A command line is a list of options, the name of a command and that command's
own options. An option with a value takes the next argument or what follows the
first `=`; no option is given twice. A query for the version is answered at
once. Everything else is refused as a whole, so reading has an answer or none.
-/

namespace StakingLedger

/-- How log records are rendered. -/
inductive LogFormat where
  | json
  | pretty
  deriving DecidableEq

namespace LogFormat

def ofName? : String → Option LogFormat
  | "json" => some .json
  | "pretty" => some .pretty
  | _ => none

/-- The complaint about a name that is no log format. -/
def unknown (name : String) : String := s!"unknown log format '{name}', expected json or pretty"

end LogFormat

/-- A task of the operator's tool. -/
inductive Command where
  /-- Writes the configured genesis into an empty database. -/
  | init
  /-- Lists the validators of a supernet, now or as of a committed height. -/
  | validators (supernet : EntityId) (height : Option UInt64)
  /-- Moves chain time forward; due rewards are paid or go back to the pool. -/
  | advance (target : UInt64) (paid : Bool)
  /-- Shows height, chain time and balances of a supernet. -/
  | status (supernet : EntityId)
  deriving DecidableEq

/-- A command with the options that hold for every command. -/
structure Invocation where
  /-- Where the configuration is. -/
  configPath : String
  logFormat : LogFormat
  command : Command
  deriving DecidableEq

/-- What a command line asks for. -/
inductive Request where
  /-- The name and version of the tool. -/
  | version
  | run (invocation : Invocation)
  deriving DecidableEq

/-- The answer to the request for the version. -/
def versionText : String := "pchain-ledger 0.1.0\n"

/-- How an option is used. -/
inductive OptionForm where
  /-- It stands alone. -/
  | flag
  | value
  /-- It asks for something at once, and what comes after it is not looked at. -/
  | query

/-- The options that may be given somewhere. -/
structure OptionTable where
  /-- The form of an option, by its name behind two dashes. -/
  form? : String → Option OptionForm
  /-- The letters that ask for something behind a single dash. -/
  queries : List Char := []

/-- An option as it is given: its name, and its value if it has one. -/
abbrev GivenOption := String × Option String

namespace CommandLine

/-- Whether an argument begins like an option; a single dash does not. -/
def isOption (argument : String) : Bool :=
  match argument.toList with
  | '-' :: _ :: _ => true
  | _ => false

/-- A long option without its dashes: its name, and the value after the first `=`. -/
def splitOption (text : List Char) : GivenOption :=
  let name := String.ofList (text.takeWhile (· != '='))
  match text.dropWhile (· != '=') with
  | [] => (name, none)
  | _ :: value => (name, some (String.ofList value))

/-- Takes the options from the front of an argument list. What is left begins with an argument
that is no option, with the two dashes that end the options, or with a query. -/
def takeOptions (table : OptionTable) :
    List String → Option (List GivenOption × List String)
  | [] => some ([], [])
  | argument :: rest =>
    match argument.toList with
    | ['-', '-'] => some ([], argument :: rest)
    | '-' :: '-' :: text =>
      let (name, attached) := splitOption text
      match table.form? name, attached, rest with
      | some .query, none, rest => some ([], argument :: rest)
      | some .flag, none, rest =>
        (takeOptions table rest).map fun (options, left) => ((name, none) :: options, left)
      | some .value, some value, rest =>
        (takeOptions table rest).map fun (options, left) => ((name, some value) :: options, left)
      | some .value, none, value :: rest =>
        if isOption value then none
        else (takeOptions table rest).map fun (options, left) =>
          ((name, some value) :: options, left)
      | _, _, _ => none
    | '-' :: letter :: _ => if letter ∈ table.queries then some ([], argument :: rest) else none
    | _ => some ([], argument :: rest)

/-- Takes options, none of them twice. -/
def takeDistinct (table : OptionTable) (arguments : List String) :
    Option (List GivenOption × List String) := do
  let (options, left) ← takeOptions table arguments
  if (options.map Prod.fst).Nodup then some (options, left) else none

/-- Takes options and refuses every other argument. -/
def onlyOptions (table : OptionTable) (arguments : List String) : Option (List GivenOption) :=
  match takeDistinct table arguments with
  | some (options, []) => some options
  | some (options, ["--"]) => some options
  | _ => none

/-- The value of an option, read by `read?`; `none` if the option is not given. A value that
cannot be read refuses the command line. -/
def optionValue {α : Type} (options : List GivenOption) (name : String)
    (read? : String → Option α) : Option (Option α) :=
  match options.lookup name with
  | some (some text) => (read? text).map some
  | _ => some none

/-- The options that stand before the command. -/
def globalOptions : OptionTable where
  form?
    | "config" | "log-format" => some .value
    | "version" => some .query
    | _ => none
  queries := ['V']

/-- Whether an argument asks for the version. -/
def isVersionQuery (argument : String) : Bool :=
  argument = "--version" ∨ argument.toList.take 2 = ['-', 'V']

/-- A command without options. -/
def noOptions : OptionTable where
  form? _ := none

/-- The options of the command that lists validators. -/
def validatorsOptions : OptionTable where
  form?
    | "supernet" | "height" => some .value
    | _ => none

/-- The options of the command that moves time. -/
def advanceOptions : OptionTable where
  form?
    | "to" => some .value
    | "forfeit-rewards" => some .flag
    | _ => none

/-- The options of the command that shows the status. -/
def statusOptions : OptionTable where
  form?
    | "supernet" => some .value
    | _ => none

/-- A word in decimal digits, perhaps after a plus sign. -/
def readWord? (text : String) : Option UInt64 :=
  let digits := match text.toList with
    | '+' :: digits => digits
    | digits => digits
  if digits ≠ [] ∧ digits.all Char.isDigit then
    let n := Nat.ofDigitChars 10 digits 0
    if n < UInt64.size then some (UInt64.ofNat n) else none
  else none

/-- A path is any text but the empty one. -/
def readPath? (text : String) : Option String := if text.isEmpty then none else some text

/-- The supernet that is named, or else the primary network. -/
def supernetOption (options : List GivenOption) : Option EntityId := do
  let supernet ← optionValue options "supernet" fun text => (EntityId.ofText text).toOption
  return supernet.getD .primaryNetwork

/-- A command by its name and the arguments after it. -/
def readCommand? (name : String) (arguments : List String) : Option Command := do
  match name with
  | "init" =>
    let _ ← onlyOptions noOptions arguments
    return .init
  | "validators" =>
    let options ← onlyOptions validatorsOptions arguments
    let supernet ← supernetOption options
    let height ← optionValue options "height" readWord?
    return .validators supernet height
  | "advance" =>
    let options ← onlyOptions advanceOptions arguments
    let target ← optionValue options "to" readWord?
    return .advance (← target) (options.lookup "forfeit-rewards").isNone
  | "status" =>
    let options ← onlyOptions statusOptions arguments
    return .status (← supernetOption options)
  | _ => none

end CommandLine

/-- Reads a command line; `none` refuses it. The options before a query have to make sense, too. -/
def Request.ofArguments? (arguments : List String) : Option Request := do
  let (options, left) ← CommandLine.takeDistinct CommandLine.globalOptions arguments
  let configPath ← CommandLine.optionValue options "config" CommandLine.readPath?
  let logFormat ← CommandLine.optionValue options "log-format" LogFormat.ofName?
  match left with
  | [] => none
  | name :: rest =>
    if CommandLine.isVersionQuery name then return .version
    let command ← CommandLine.readCommand? name rest
    return .run ⟨configPath.getD "ledger.toml", logFormat.getD .json, command⟩

end StakingLedger
