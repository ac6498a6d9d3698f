import StakingLedger.Bytes.Hex
import StakingLedger.Document.Basic
import StakingLedger.OrderedMap

/-! # Documents from JSON

A reader takes what it reads off the front of the characters and gives back the
rest. A number is an integer only if it is written as one, without a point and
without an exponent; a negative zero is none either. The fields of an object
come in the order of their names, and of two fields of one name the last counts.
-/

namespace StakingLedger

namespace Json

/-- Drops the blanks and line ends at the front. -/
def skipSpace (text : List Char) : List Char :=
  text.dropWhile fun c => c = ' ' ∨ c = '\t' ∨ c = '\n' ∨ c = '\r'

/-! ## Texts -/

/-- The characters that a backslash and a letter stand for. -/
def escaped? : Char → Option Char
  | '"' => some '"'
  | '\\' => some '\\'
  | '/' => some '/'
  | 'b' => some '\x08'
  | 'f' => some '\x0c'
  | 'n' => some '\n'
  | 'r' => some '\r'
  | 't' => some '\t'
  | _ => none

/-- The number that hexadecimal digits spell. -/
def codeUnit? (digits : List Char) : Option Nat := do
  let values ← digits.mapM hexValue?
  return values.foldl (fun n value => 16 * n + value) 0

/-- The character of a code point. -/
def scalar? (code : Nat) : Option Char :=
  if code.isValidChar then some (Char.ofNat code) else none

/-- The character of a pair of surrogates. -/
def paired? (high low : Nat) : Option Char :=
  if 0xD800 ≤ high ∧ high < 0xDC00 ∧ 0xDC00 ≤ low ∧ low < 0xE000 then
    scalar? (0x10000 + 0x400 * (high - 0xD800) + (low - 0xDC00))
  else none

/-- The rest of a text up to its closing quote. -/
def textRest : List Char → Option (List Char × List Char)
  | [] => none
  | '"' :: rest => some ([], rest)
  | '\\' :: 'u' :: a :: b :: c :: d :: rest => do
    let unit ← codeUnit? [a, b, c, d]
    match scalar? unit, rest with
    | some c, rest =>
      let (tail, rest) ← textRest rest
      return (c :: tail, rest)
    | none, '\\' :: 'u' :: e :: f :: g :: h :: rest =>
      let c ← paired? unit (← codeUnit? [e, f, g, h])
      let (tail, rest) ← textRest rest
      return (c :: tail, rest)
    | none, _ => none
  | '\\' :: letter :: rest => do
    let c ← escaped? letter
    let (tail, rest) ← textRest rest
    return (c :: tail, rest)
  | c :: rest =>
    if c = '\\' ∨ c.toNat < 32 then none
    else do
      let (tail, rest) ← textRest rest
      return (c :: tail, rest)

/-! ## Numbers and names -/

/-- The characters of a number or a name. -/
def isWord (c : Char) : Bool := c.isAlphanum ∨ c = '-' ∨ c = '+' ∨ c = '.'

/-- The value of decimal digits, of which there has to be one. -/
def digits? (digits : List Char) : Option Nat :=
  if digits ≠ [] ∧ digits.all Char.isDigit then some (Nat.ofDigitChars 10 digits 0) else none

/-- An exponent of at most three digits, with or without a sign. -/
def exponent? (text : List Char) : Option Int := do
  let (sign, digits) : Int × List Char := match text with
    | '+' :: digits => (1, digits)
    | '-' :: digits => (-1, digits)
    | digits => (1, digits)
  let n ← digits? digits
  if n < 1000 then some (sign * n) else none

/-- A number with so many decimal places, which may be negative. -/
def scaled (mantissa places : Int) : Document :=
  if 0 < places then .fraction mantissa places.toNat
  else .fraction (mantissa * powerOfTen ((-places).toNat + 1)) 1

/-- A number without its sign. -/
def unsigned? (sign : Int) (text : List Char) : Option Document := do
  let whole := text.takeWhile Char.isDigit
  let n ← digits? whole
  let rest := text.dropWhile Char.isDigit
  let (fraction, rest) := match rest with
    | '.' :: rest => (some (rest.takeWhile Char.isDigit), rest.dropWhile Char.isDigit)
    | rest => (none, rest)
  let mantissa ← match fraction with
    | some digits => (digits? digits).map fun f => n * powerOfTen digits.length + f
    | none => some n
  let places : Int := (fraction.getD []).length
  match rest with
  | [] =>
    if fraction.isNone ∧ ¬(sign < 0 ∧ n = 0) then return .integer (sign * n)
    else return scaled (sign * mantissa) places
  | letter :: power =>
    if letter = 'e' ∨ letter = 'E' then
      return scaled (sign * mantissa) (places - (← exponent? power))
    else none

/-- What a word stands for. -/
def ofWord? (word : List Char) : Option Document :=
  match word with
  | ['n', 'u', 'l', 'l'] => some .null
  | ['t', 'r', 'u', 'e'] => some (.bool true)
  | ['f', 'a', 'l', 's', 'e'] => some (.bool false)
  | '-' :: digits => unsigned? (-1) digits
  | digits => unsigned? 1 digits

/-! ## Values -/

mutual

/-- A value, at most `bound` values deep and wide. -/
def readValue : Nat → List Char → Option (Document × List Char)
  | 0, _ => none
  | bound + 1, text =>
    match skipSpace text with
    | '"' :: rest => (textRest rest).map fun (s, rest) => (.text (String.ofList s), rest)
    | '[' :: rest =>
      match skipSpace rest with
      | ']' :: rest => some (.list [], rest)
      | rest => (readItems bound rest).map fun (items, rest) => (.list items, rest)
    | '\x7b' :: rest =>
      match skipSpace rest with
      | '\x7d' :: rest => some (.object [], rest)
      | rest => (readFields bound .empty rest).map fun (fields, rest) =>
        (.object fields.entries, rest)
    | text => (ofWord? (text.takeWhile isWord)).map fun d => (d, text.dropWhile isWord)

/-- The items of a list up to its closing bracket. -/
def readItems : Nat → List Char → Option (List Document × List Char)
  | 0, _ => none
  | bound + 1, text => do
    let (item, rest) ← readValue bound text
    match skipSpace rest with
    | ',' :: rest =>
      let (items, rest) ← readItems bound rest
      return (item :: items, rest)
    | ']' :: rest => return ([item], rest)
    | _ => none

/-- The fields of an object up to its closing brace, added to the ones before. -/
def readFields : Nat → OrderedMap String Document → List Char →
    Option (OrderedMap String Document × List Char)
  | 0, _, _ => none
  | bound + 1, fields, text =>
    match skipSpace text with
    | '"' :: rest => do
      let (name, rest) ← textRest rest
      match skipSpace rest with
      | ':' :: rest =>
        let (value, rest) ← readValue bound rest
        let fields := fields.insert (String.ofList name) value
        match skipSpace rest with
        | ',' :: rest => readFields bound fields rest
        | '\x7d' :: rest => return (fields, rest)
        | _ => none
      | _ => none
    | _ => none

end

end Json

/-- Reads a document from its text in JSON. -/
def Document.ofJson? (text : String) : Option Document :=
  let characters := text.toList
  match Json.readValue (2 * characters.length + 1) characters with
  | some (d, rest) => if Json.skipSpace rest = [] then some d else none
  | none => none

end StakingLedger
