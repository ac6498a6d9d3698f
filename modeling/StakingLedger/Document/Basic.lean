import StakingLedger.Identifier

/-! # Documents

Configurations and answers are documents: null, truth values, numbers, texts,
lists and objects. A type with a document form is written to a document and
read from one; reading says what is wrong with a document that does not fit.
-/

namespace StakingLedger

/-- A value of a data format for humans and tools. -/
inductive Document where
  | null
  | bool (value : Bool)
  | integer (value : Int)
  /-- A number that is not written as an integer. -/
  | fraction (mantissa : Int) (places : Nat)
  | text (value : String)
  | list (items : List Document)
  | object (fields : List (String × Document))
  deriving Inhabited

/-- Ten to the power of a number of decimal places. -/
def powerOfTen : Nat → Nat
  | 0 => 1
  | places + 1 => 10 * powerOfTen places

/-- Why a document does not fit a type. -/
inductive ReadError where
  /-- A value of another type, or one out of range. -/
  | invalid
  | missingField (name : String)
  | unknownVariant (name : String) (expected : List String)
  | invalidLength (length : Nat) (expected : String)
  | identifier (cause : IdError)
  deriving DecidableEq

/-- A name between accents. -/
def accented (name : String) : String := "`" ++ name ++ "`"

/-- The names of a choice: two are joined by "or", more are listed. -/
def oneOf : List String → String
  | [] => "there are no variants"
  | [a] => "expected " ++ accented a
  | [a, b] => "expected " ++ accented a ++ " or " ++ accented b
  | names => "expected one of " ++ ", ".intercalate (names.map accented)

def ReadError.message : ReadError → String
  | .invalid => "invalid"
  | .missingField name => "missing field " ++ accented name
  | .unknownVariant name expected => "unknown variant " ++ accented name ++ ", " ++ oneOf expected
  | .invalidLength length expected => s!"invalid length {length}, expected {expected}"
  | .identifier cause => cause.message

/-- The answer of reading a document. -/
abbrev Reading (α : Type) := Except ReadError α

/-- The data format that a document comes from. Formats differ in how much they put up with. -/
inductive Dialect where
  /-- A list has no more items than are asked for, and the content of a bare name is null. -/
  | json
  /-- Further items of a list are ignored. The first entry of a table says which name it is, and
  the content of a bare name is an empty table or list. -/
  | toml
  deriving DecidableEq

/-- A type with a document form. -/
class DocumentForm (α : Type) where
  toDocument : α → Document
  readDocument : Dialect → Document → Reading α

export DocumentForm (toDocument readDocument)

/-- Reads a document in JSON. -/
def ofDocument {α : Type} [DocumentForm α] (d : Document) : Reading α := readDocument .json d

namespace Document

/-- The value of a field of an object. -/
def field? (d : Document) (name : String) : Option Document :=
  match d with
  | object fields => fields.lookup name
  | _ => none

/-- A natural number below `limit`. -/
def natural (limit : Nat) (d : Document) : Reading Nat :=
  match d with
  | integer n => if 0 ≤ n ∧ n < limit then .ok n.toNat else .error .invalid
  | _ => .error .invalid

end Document

instance : DocumentForm Bool where
  toDocument := .bool
  readDocument
    | _, .bool b => .ok b
    | _, _ => .error .invalid

instance : DocumentForm String where
  toDocument := .text
  readDocument
    | _, .text s => .ok s
    | _, _ => .error .invalid

instance : DocumentForm UInt8 where
  toDocument n := .integer n.toNat
  readDocument _ d := UInt8.ofNat <$> d.natural UInt8.size

instance : DocumentForm UInt32 where
  toDocument n := .integer n.toNat
  readDocument _ d := UInt32.ofNat <$> d.natural UInt32.size

instance : DocumentForm UInt64 where
  toDocument n := .integer n.toNat
  readDocument _ d := UInt64.ofNat <$> d.natural UInt64.size

instance {α : Type} [DocumentForm α] : DocumentForm (List α) where
  toDocument items := .list (items.map toDocument)
  readDocument
    | dialect, .list items => items.mapM (readDocument dialect)
    | _, _ => .error .invalid

/-- An absent value is null. -/
instance {α : Type} [DocumentForm α] : DocumentForm (Option α) where
  toDocument
    | none => .null
    | some a => toDocument a
  readDocument
    | _, .null => .ok none
    | dialect, d => some <$> readDocument dialect d

/-- A pair is a list of two. -/
instance {α β : Type} [DocumentForm α] [DocumentForm β] : DocumentForm (α × β) where
  toDocument p := .list [toDocument p.1, toDocument p.2]
  readDocument
    | dialect, .list (a :: b :: rest) =>
      if dialect = .json ∧ !rest.isEmpty then .error .invalid
      else do return (← readDocument dialect a, ← readDocument dialect b)
    | _, _ => .error .invalid

instance : DocumentForm EntityId where
  toDocument id := .text id.hex
  readDocument
    | _, .text s => (EntityId.ofText s).mapError .identifier
    | _, _ => .error .invalid

instance : DocumentForm NodeId where
  toDocument id := .text id.hex
  readDocument
    | _, .text s => (NodeId.ofText s).mapError .identifier
    | _, _ => .error .invalid

end StakingLedger
