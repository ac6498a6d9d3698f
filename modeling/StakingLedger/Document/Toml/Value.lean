import StakingLedger.Bytes.Hex
import StakingLedger.Document.Basic

/-! # Keys and values in TOML

A reader takes what it reads off the front of the characters and gives back the
rest. Values are texts in either kind of quotes, integers of 64 bits, decimal
fractions, truth values, arrays and inline tables. Dates and texts that run
over several lines are not read.
-/

namespace StakingLedger

/-- Takes a value off the front of a text. -/
abbrev Reader (α : Type) := List Char → Option (α × List Char)

namespace Toml

/-- Blanks within a line. -/
def isBlank (c : Char) : Bool := c = ' ' ∨ c = '\t'

/-- Drops the blanks at the front. -/
def skipBlanks (text : List Char) : List Char := text.dropWhile isBlank

/-- Drops blanks, line ends and comments; `inComment` tells that the line is a comment. -/
def skipGap (inComment : Bool) : List Char → List Char
  | [] => []
  | c :: rest =>
    if c = '\n' then skipGap false rest
    else if inComment ∨ isBlank c ∨ c = '\r' then skipGap inComment rest
    else if c = '#' then skipGap true rest
    else c :: rest

/-- Drops what may follow a statement: blanks, a comment and the end of the line. -/
def endLine (text : List Char) : Option (List Char) :=
  match skipBlanks text with
  | [] => some []
  | '\n' :: rest => some rest
  | '\r' :: '\n' :: rest => some rest
  | '#' :: rest => some ((rest.dropWhile (· != '\n')).drop 1)
  | _ => none

/-- Takes an expected character, after blanks. -/
def expect (expected : Char) (text : List Char) : Option (List Char) :=
  match skipBlanks text with
  | c :: rest => if c = expected then some rest else none
  | [] => none

/-! ## Texts -/

/-- The characters that a backslash and a letter stand for. -/
def escaped? : Char → Option Char
  | 'b' => some '\x08'
  | 't' => some '\t'
  | 'n' => some '\n'
  | 'f' => some '\x0c'
  | 'r' => some '\r'
  | '"' => some '"'
  | '\\' => some '\\'
  | _ => none

/-- The character of a code point in hexadecimal digits. -/
def codePoint? (digits : List Char) : Option Char := do
  let values ← digits.mapM hexValue?
  let code := values.foldl (fun n value => 16 * n + value) 0
  if code.isValidChar then some (Char.ofNat code) else none

/-- The rest of a text in double quotes. -/
def quotedRest : Reader (List Char)
  | [] => none
  | '"' :: rest => some ([], rest)
  | '\\' :: 'u' :: a :: b :: c :: d :: rest => do
    let code ← codePoint? [a, b, c, d]
    let (tail, rest) ← quotedRest rest
    return (code :: tail, rest)
  | '\\' :: 'U' :: a :: b :: c :: d :: e :: f :: g :: h :: rest => do
    let code ← codePoint? [a, b, c, d, e, f, g, h]
    let (tail, rest) ← quotedRest rest
    return (code :: tail, rest)
  | '\\' :: letter :: rest => do
    let c ← escaped? letter
    let (tail, rest) ← quotedRest rest
    return (c :: tail, rest)
  | c :: rest =>
    if c = '\\' ∨ (c.toNat < 32 ∧ c ≠ '\t') then none
    else do
      let (tail, rest) ← quotedRest rest
      return (c :: tail, rest)

/-- The rest of a text in single quotes, which knows no escapes. -/
def literalRest : Reader (List Char)
  | [] => none
  | '\'' :: rest => some ([], rest)
  | c :: rest =>
    if c.toNat < 32 ∧ c ≠ '\t' then none
    else do
      let (tail, rest) ← literalRest rest
      return (c :: tail, rest)

/-! ## Keys -/

/-- The characters of a key without quotes. -/
def isBareKey (c : Char) : Bool := c.isAlphanum ∨ c = '_' ∨ c = '-'

/-- One key. -/
def readKey (text : List Char) : Option (String × List Char) :=
  match skipBlanks text with
  | '"' :: rest => (quotedRest rest).map fun (key, rest) => (String.ofList key, rest)
  | '\'' :: rest => (literalRest rest).map fun (key, rest) => (String.ofList key, rest)
  | text =>
    match text.takeWhile isBareKey with
    | [] => none
    | key => some (String.ofList key, text.dropWhile isBareKey)

/-- Keys with points between them, at most `bound` of them. -/
def readPathWithin : Nat → Reader (List String)
  | 0, _ => none
  | bound + 1, text => do
    let (key, rest) ← readKey text
    match expect '.' rest with
    | none => return ([key], rest)
    | some rest =>
      let (path, rest) ← readPathWithin bound rest
      return (key :: path, rest)

/-- Keys with points between them. -/
def readPath (text : List Char) : Option (List String × List Char) :=
  readPathWithin text.length text

/-! ## Numbers -/

/-- The characters of a number or a truth value. -/
def isWord (c : Char) : Bool := c.isAlphanum ∨ c = '_' ∨ c = '-' ∨ c = '+' ∨ c = '.'

/-- Digits of a base, single underscores between them. -/
def digitsValue? (base : Nat) (digits : List Char) : Option Nat := do
  let groups := digits.splitOn '_'
  if groups.any List.isEmpty then none
  let values ← groups.flatten.mapM hexValue?
  if values.all (· < base) then some (values.foldl (fun n value => base * n + value) 0) else none

/-- The value of digits that begin with no needless zero. -/
def decimalValue? (digits : List Char) : Option Nat :=
  match digits with
  | '0' :: _ :: _ => none
  | digits => digitsValue? 10 digits

/-- An integer that fits in 64 bits with its sign. -/
def integer? (n : Int) : Option Document :=
  if Int64.minValue.toInt ≤ n ∧ n ≤ Int64.maxValue.toInt then some (.integer n) else none

/-- A number without sign, as mantissa and decimal places. -/
def unsigned? (digits : List Char) : Option (Nat × Nat) :=
  match digits.splitOn '.' with
  | [whole] => (decimalValue? whole).map fun n => (n, 0)
  | [whole, fraction] => do
    let n ← decimalValue? whole
    let f ← digitsValue? 10 fraction
    let places := (fraction.filter (· != '_')).length
    return (n * powerOfTen places + f, places)
  | _ => none

/-- A number with a sign. -/
def signed? (sign : Int) (digits : List Char) : Option Document := do
  let (mantissa, places) ← unsigned? digits
  if places = 0 then integer? (sign * mantissa) else some (.fraction (sign * mantissa) places)

/-- What a word stands for. -/
def ofWord? (word : List Char) : Option Document :=
  match word with
  | ['t', 'r', 'u', 'e'] => some (.bool true)
  | ['f', 'a', 'l', 's', 'e'] => some (.bool false)
  | '0' :: 'x' :: digits => do integer? (← digitsValue? 16 digits)
  | '0' :: 'o' :: digits => do integer? (← digitsValue? 8 digits)
  | '0' :: 'b' :: digits => do integer? (← digitsValue? 2 digits)
  | '+' :: digits => signed? 1 digits
  | '-' :: digits => signed? (-1) digits
  | digits => signed? 1 digits

/-! ## Building objects -/

/-- Sets a field in its place, or behind the others. -/
def setField (name : String) (value : Document) :
    List (String × Document) → List (String × Document)
  | [] => [(name, value)]
  | (key, d) :: rest =>
    if key = name then (key, value) :: rest else (key, d) :: setField name value rest

/-- Changes what stands under a path by `f`. Objects on the way are made where there is nothing;
in a list the way goes on in the last object. -/
def alterPath (f : Option Document → Option Document) :
    List String → Option Document → Option Document
  | [], found => f found
  | key :: path, none => (alterPath f path none).map fun d => .object [(key, d)]
  | key :: path, some (.object fields) =>
    (alterPath f path (fields.lookup key)).map fun d => .object (setField key d fields)
  | key :: path, some (.list items) =>
    match items.getLast? with
    | some (.object fields) =>
      (alterPath f path (fields.lookup key)).map fun d =>
        .list (items.dropLast ++ [.object (setField key d fields)])
    | _ => none
  | _ :: _, some _ => none

/-- Puts a value where nothing stands yet. -/
def fill (value : Document) : Option Document → Option Document
  | none => some value
  | some _ => none

/-! ## Values -/

mutual

/-- A value, nested at most `depth` deep. -/
def readValueWithin : Nat → Reader Document
  | 0, _ => none
  | depth + 1, text =>
    match skipBlanks text with
    | '"' :: rest => (quotedRest rest).map fun (s, rest) => (.text (String.ofList s), rest)
    | '\'' :: rest => (literalRest rest).map fun (s, rest) => (.text (String.ofList s), rest)
    | '[' :: rest => (readItems depth rest).map fun (items, rest) => (.list items, rest)
    | '\x7b' :: rest =>
      match expect '\x7d' rest with
      | some rest => some (.object [], rest)
      | none => readEntries depth (.object []) rest
    | text => (ofWord? (text.takeWhile isWord)).map fun d => (d, text.dropWhile isWord)

/-- The items of an array up to its closing bracket. -/
def readItems : Nat → Reader (List Document)
  | 0, _ => none
  | depth + 1, text =>
    match skipGap false text with
    | ']' :: rest => some ([], rest)
    | text => do
      let (item, rest) ← readValueWithin depth text
      match skipGap false rest with
      | ',' :: rest =>
        let (items, rest) ← readItems depth rest
        return (item :: items, rest)
      | ']' :: rest => return ([item], rest)
      | _ => none

/-- The entries of an inline table up to its closing brace, added to the ones before. -/
def readEntries : Nat → Document → Reader Document
  | 0, _, _ => none
  | depth + 1, table, text => do
    let (path, rest) ← readPath text
    let rest ← expect '=' rest
    let (value, rest) ← readValueWithin depth rest
    let table ← alterPath (fill value) path (some table)
    match skipBlanks rest with
    | ',' :: rest => readEntries depth table rest
    | '\x7d' :: rest => return (table, rest)
    | _ => none

end

/-- A value. -/
def readValue (text : List Char) : Option (Document × List Char) :=
  readValueWithin (2 * text.length + 1) text

end Toml

end StakingLedger
