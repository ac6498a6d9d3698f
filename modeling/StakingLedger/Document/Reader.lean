import StakingLedger.Document.Basic

/-! # Readers of records and choices

A record is read from an object, or from the list of its fields in the order in
which they are declared. In an object the fields that are present are read
first, by name; only then does a missing field count, the first one declared.
Fields that the record does not have are ignored.
-/

namespace StakingLedger

/-- Where the fields of a record are taken from. -/
structure FieldSource where
  /-- The format of the fields. -/
  dialect : Dialect
  /-- The field of a position and name. -/
  find? : Nat → String → Option Document
  /-- The error of its absence. -/
  absent : Nat → String → ReadError
  /-- Whether an absent optional field counts as null. -/
  absentIsNull : Bool

/-- Reads the fields of a record one after the other. -/
structure RecordReader (α : Type) where
  /-- The names of the fields, as declared. -/
  names : List String
  /-- Reads one field only to see whether it fits. -/
  check : Dialect → String → Document → Reading Unit
  /-- Reads all fields, the first one at the given position. -/
  build : Nat → FieldSource → Reading α

namespace RecordReader

variable {α β : Type}

/-- A field that must be there. -/
def field [DocumentForm α] (name : String) : RecordReader α where
  names := [name]
  check dialect n d :=
    if n = name then (fun (_ : α) => ()) <$> readDocument dialect d else .ok ()
  build position source :=
    match source.find? position name with
    | some d => readDocument source.dialect d
    | none => .error (source.absent position name)

/-- A field that has a value of its own when it is absent. -/
def fieldOr [DocumentForm α] (name : String) (value : α) : RecordReader α :=
  { (field name : RecordReader α) with
    build := fun position source =>
      match source.find? position name with
      | some d => readDocument source.dialect d
      | none => .ok value }

/-- A field that may be absent from an object. -/
def optional [DocumentForm α] (name : String) : RecordReader (Option α) :=
  { (field name : RecordReader (Option α)) with
    build := fun position source =>
      match source.find? position name with
      | some d => readDocument source.dialect d
      | none => if source.absentIsNull then .ok none else .error (source.absent position name) }

/-- A record without fields. -/
def pure (value : α) : RecordReader α := ⟨[], fun _ _ _ => .ok (), fun _ _ => .ok value⟩

/-- The fields of `f`, then those of `x`. -/
def seq (f : RecordReader (α → β)) (x : RecordReader α) : RecordReader β where
  names := f.names ++ x.names
  check dialect n d := do
    f.check dialect n d
    x.check dialect n d
  build position source := do
    let g ← f.build position source
    let a ← x.build (position + f.names.length) source
    return g a

instance : Applicative RecordReader where
  pure := pure
  seq f x := f.seq (x ())

/-- Reads a record from an object. -/
def ofFields (r : RecordReader α) (dialect : Dialect) (fields : List (String × Document)) :
    Reading α := do
  let byName := r.names.mergeSort (fun a b => decide (a ≤ b))
  byName.forM fun name =>
    match fields.lookup name with
    | some d => r.check dialect name d
    | none => .ok ()
  r.build 0 ⟨dialect, fun _ name => fields.lookup name, fun _ name => .missingField name, true⟩

/-- Reads a record from the list of its fields; `kind` names the record. -/
def ofItems (r : RecordReader α) (kind : String) (dialect : Dialect) (items : List Document) :
    Reading α := do
  let expected := s!"struct {kind} with {r.names.length} elements"
  let value ← r.build 0
    ⟨dialect, fun position _ => items[position]?,
      fun position _ => .invalidLength position expected, false⟩
  if dialect = .json ∧ r.names.length < items.length then
    throw (.invalidLength items.length "fewer elements in array")
  return value

/-- Reads a record; `kind` names it. -/
def read (r : RecordReader α) (kind : String) (dialect : Dialect) : Document → Reading α
  | .object fields => r.ofFields dialect fields
  | .list items => r.ofItems kind dialect items
  | _ => .error .invalid

end RecordReader

/-- The entry of an object that says which case it is. -/
def Dialect.case? : Dialect → List (String × Document) → Option (String × Document)
  | .json, [entry] => some entry
  | .json, _ => none
  | .toml, fields => fields.head?

/-- Whether a document is what stands under a bare name. -/
def Dialect.isEmptyContent : Dialect → Document → Bool
  | .json, .null | .toml, .object [] | .toml, .list [] => true
  | _, _ => false

/-- Reads one of finitely many names: a text, or an object that has nothing under the name. -/
def readName {α : Type} (names : List (String × α)) (dialect : Dialect) (d : Document) :
    Reading α :=
  let choose (name : String) : Reading α :=
    match names.lookup name with
    | some value => .ok value
    | none => .error (.unknownVariant name (names.map Prod.fst))
  match d with
  | .text name => choose name
  | .object fields =>
    match dialect.case? fields with
    | some (name, content) => do
      let value ← choose name
      if dialect.isEmptyContent content then return value else throw .invalid
    | none => .error .invalid
  | _ => .error .invalid

/-- Reads a choice with content: an object with one field, named for the case. -/
def readCase {α : Type} (cases : List (String × (Dialect → Document → Reading α)))
    (dialect : Dialect) (d : Document) : Reading α :=
  let choose (name : String) : Reading (Dialect → Document → Reading α) :=
    match cases.lookup name with
    | some read => .ok read
    | none => .error (.unknownVariant name (cases.map Prod.fst))
  match d with
  | .text name => do
    let _ ← choose name
    throw .invalid
  | .object fields =>
    match dialect.case? fields with
    | some (name, content) => do
      let read ← choose name
      read dialect content
    | none => .error .invalid
  | _ => .error .invalid

/-- Reads the fields of a case, which have to stand in an object. -/
def RecordReader.readFields {α : Type} (r : RecordReader α) (dialect : Dialect) :
    Document → Reading α
  | .object fields => r.ofFields dialect fields
  | _ => .error .invalid

end StakingLedger
