import StakingLedger.Document.Basic

/-! # Documents as indented JSON

Objects and lists are broken over lines, two spaces deeper at each level; an
empty one stays on its line.
-/

namespace StakingLedger

namespace Document

/-- The four hexadecimal digits of a control character. -/
def controlEscape (c : Char) : List Char :=
  ['\\', 'u', '0', '0', hexDigit (c.toNat / 16), hexDigit (c.toNat % 16)]

/-- A character inside a JSON text. -/
def jsonChar (c : Char) : List Char :=
  match c with
  | '"' => ['\\', '"']
  | '\\' => ['\\', '\\']
  | '\x08' => ['\\', 'b']
  | '\x0c' => ['\\', 'f']
  | '\n' => ['\\', 'n']
  | '\r' => ['\\', 'r']
  | '\t' => ['\\', 't']
  | c => if c.toNat < 32 then controlEscape c else [c]

/-- A text in JSON. -/
def jsonText (s : String) : String := "\"" ++ String.ofList (s.toList.flatMap jsonChar) ++ "\""

/-- The start of a line at a level of nesting. -/
def newline (level : Nat) : String := "\n" ++ "".pushn ' ' (2 * level)

/-- Parts between brackets, a line for each. -/
def block (opening closing : String) (level : Nat) (parts : List String) : String :=
  match parts with
  | [] => opening ++ closing
  | parts =>
    opening ++ newline (level + 1) ++ ("," ++ newline (level + 1)).intercalate parts ++
      newline level ++ closing

/-- A number with some of its digits after the point. -/
def decimalText (mantissa : Int) (places : Nat) : String :=
  let sign := if mantissa < 0 then "-" else ""
  let whole := mantissa.natAbs / powerOfTen places
  let digits := (toString (mantissa.natAbs % powerOfTen places)).toList
  sign ++ toString whole ++ "." ++
    String.ofList (List.replicate (max places 1 - digits.length) '0' ++ digits)

mutual

/-- The JSON text of a document that starts at a level of nesting. -/
def jsonAt (level : Nat) : Document → String
  | null => "null"
  | bool b => if b then "true" else "false"
  | integer n => toString n
  | fraction mantissa places => decimalText mantissa places
  | text s => jsonText s
  | list items => block "[" "]" level (jsonItems (level + 1) items)
  | object fields => block "\x7b" "\x7d" level (jsonFields (level + 1) fields)

/-- The JSON texts of the items of a list. -/
def jsonItems (level : Nat) : List Document → List String
  | [] => []
  | d :: rest => jsonAt level d :: jsonItems level rest

/-- The JSON texts of the fields of an object, with their names. -/
def jsonFields (level : Nat) : List (String × Document) → List String
  | [] => []
  | (name, d) :: rest => (jsonText name ++ ": " ++ jsonAt level d) :: jsonFields level rest

end

/-- The indented JSON text of a document. -/
def json (d : Document) : String := jsonAt 0 d

end Document

end StakingLedger
