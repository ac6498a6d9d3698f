import StakingLedger.Document.Toml.Value

/-! # Documents in TOML

A file is a sequence of statements: headers of tables and of arrays of tables,
and fields of the table whose header came last. Reading names the line of the
first statement that makes no sense.
-/

namespace StakingLedger

/-- A configuration text that is no document. -/
structure SyntaxFault where
  /-- The line of the first statement that makes no sense. -/
  line : Nat
  deriving DecidableEq

def SyntaxFault.message (fault : SyntaxFault) : String := s!"TOML parse error at line {fault.line}"

namespace Toml

/-- The document read so far, and the table that fields go to. -/
structure Progress where
  document : Document
  table : List String

/-- Opens a table, which may be there already. -/
def openTable : Option Document → Option Document
  | none => some (.object [])
  | some (.object fields) => some (.object fields)
  | some _ => none

/-- Begins a further table of an array. -/
def openItem : Option Document → Option Document
  | none => some (.list [.object []])
  | some (.list items) => some (.list (items ++ [.object []]))
  | some _ => none

/-- Changes the document under a path. -/
def Progress.alter (p : Progress) (path : List String)
    (f : Option Document → Option Document) : Option Progress :=
  (alterPath f path (some p.document)).map fun d => { p with document := d }

/-- Takes one statement, without the end of its line. -/
def readStatement (p : Progress) (text : List Char) : Option (Progress × List Char) :=
  match text with
  | '[' :: '[' :: rest => do
    let (path, rest) ← readPath rest
    let rest ← expect ']' rest
    match rest with
    | ']' :: rest => return ({ (← p.alter path openItem) with table := path }, rest)
    | _ => none
  | '[' :: rest => do
    let (path, rest) ← readPath rest
    let rest ← expect ']' rest
    return ({ (← p.alter path openTable) with table := path }, rest)
  | text => do
    let (path, rest) ← readPath text
    let rest ← expect '=' rest
    let (value, rest) ← readValue rest
    return (← p.alter (p.table ++ path) (fill value), rest)

/-- Takes statements until nothing is left, at most `bound` of them; a failure gives the text from
the statement on that makes no sense. -/
def readStatements : Nat → Progress → List Char → Except (List Char) Document
  | 0, p, text => if skipGap false text = [] then .ok p.document else .error text
  | bound + 1, p, text =>
    match skipGap false text with
    | [] => .ok p.document
    | text =>
      match (readStatement p text).bind fun (p, rest) =>
          (endLine rest).map fun rest => (p, rest) with
      | some (p, rest) => readStatements bound p rest
      | none => .error text

end Toml

/-- Reads a document from the text of a configuration file. -/
def Document.ofToml (text : String) : Except SyntaxFault Document :=
  let all := text.toList
  (Toml.readStatements all.length ⟨.object [], []⟩ all).mapError fun rest =>
    ⟨1 + (all.take (all.length - rest.length)).count '\n'⟩

end StakingLedger
