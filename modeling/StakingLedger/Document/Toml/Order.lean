import StakingLedger.Document.Basic

/-! # The order of a TOML file

A file in TOML cannot write every document as it is. There is no null, so a
field without a value is left out; and the tables inside a table come after its
plain values, since whatever follows a header belongs to that header.
-/

namespace StakingLedger.Document

/-- Whether a document is an object. -/
def isObject : Document → Bool
  | object _ => true
  | _ => false

/-- Whether a document is written under headers of its own: an object, or a list of objects. -/
def hasHeader : Document → Bool
  | object _ => true
  | list items => !items.isEmpty && items.all isObject
  | _ => false

mutual

/-- The document as a file in TOML gives it back. -/
def fileOrder : Document → Document
  | object fields =>
    let fields := orderFields fields
    object (fields.filter (fun field => !field.2.hasHeader) ++ fields.filter (·.2.hasHeader))
  | list items => list (if items.all isObject then orderItems items else items)
  | d => d

/-- The items of a list, each one as a file gives it back. -/
def orderItems : List Document → List Document
  | [] => []
  | d :: rest => fileOrder d :: orderItems rest

/-- The fields that have a value, as a file gives the values back. -/
def orderFields : List (String × Document) → List (String × Document)
  | [] => []
  | (_, null) :: rest => orderFields rest
  | (name, d) :: rest => (name, fileOrder d) :: orderFields rest

end

end StakingLedger.Document
