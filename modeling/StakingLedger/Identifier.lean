import StakingLedger.Bytes.Hex

/-! # Identifiers

Transactions, supernets, chains, assets and owners share one kind of 32-byte
identifier; nodes have identifiers of 20 bytes. Both are ordered bytewise and
written in hexadecimal. Reading drops every leading `0x` (and, for a node,
every leading `NodeID-` before that).
-/

namespace StakingLedger

/-- A byte string of length `n`. -/
structure FixedBytes (n : Nat) where
  toList : Bytes
  length_toList : toList.length = n
  deriving DecidableEq

namespace FixedBytes

variable {n : Nat}

instance : Ord (FixedBytes n) := ⟨compareOn toList⟩

instance : Std.TransOrd (FixedBytes n) := inferInstanceAs (Std.TransCmp (compareOn toList))

instance : Std.LawfulEqOrd (FixedBytes n) where
  eq_of_compare {a b} h := by
    have hlist : a.toList = b.toList := Std.LawfulEqCmp.eq_of_compare h
    cases a; cases b; cases hlist; rfl

/-- The bytes as a fixed-width value, when there are `n` of them. -/
def ofList? (n : Nat) (bytes : Bytes) : Option (FixedBytes n) :=
  if h : bytes.length = n then some ⟨bytes, h⟩ else none

def hex (a : FixedBytes n) : String := Bytes.hex a.toList

/-- All bytes zero. -/
def zero (n : Nat) : FixedBytes n := ⟨List.replicate n 0, List.length_replicate⟩

instance : Inhabited (FixedBytes n) := ⟨zero n⟩

end FixedBytes

/-- Identifies a transaction, supernet, chain, asset or owner. -/
abbrev EntityId := FixedBytes 32

/-- Identifies a node. -/
abbrev NodeId := FixedBytes 20

instance : Std.TransOrd EntityId := FixedBytes.instTransOrd

instance : Std.LawfulEqOrd EntityId := FixedBytes.instLawfulEqOrd

instance : Std.TransOrd NodeId := FixedBytes.instTransOrd

instance : Std.LawfulEqOrd NodeId := FixedBytes.instLawfulEqOrd

/-- Why bytes or a text denote no identifier. -/
inductive IdError where
  | wrongLength (kind : String) (expected actual : Nat)
  | notHex (cause : HexError)
  deriving DecidableEq

def IdError.message : IdError → String
  | .wrongLength kind expected actual => s!"expected {expected} bytes for {kind}, got {actual}"
  | .notHex cause => cause.message

/-- Drops `head` from the front of a text as often as it stands there. -/
def trimLeading (head : List Char) (text : List Char) : List Char :=
  if _h : head ≠ [] ∧ head.isPrefixOf text then trimLeading head (text.drop head.length) else text
termination_by text.length
decreasing_by
  have hle := (List.isPrefixOf_iff_prefix.mp _h.2).length_le
  have hpos := List.length_pos_iff.mpr _h.1
  simp only [List.length_drop]
  omega

namespace EntityId

/-- The primary network, and the primary asset, have the zero identifier. -/
def primaryNetwork : EntityId := FixedBytes.zero 32

def isPrimaryNetwork (id : EntityId) : Bool := id == primaryNetwork

/-- The bytes of an identifier, exactly 32 of them. -/
def ofBytes (bytes : Bytes) : Except IdError EntityId :=
  match FixedBytes.ofList? 32 bytes with
  | some id => .ok id
  | none => .error (.wrongLength "Id" 32 bytes.length)

/-- Reads hexadecimal text, dropping every leading `0x`. -/
def ofText (text : String) : Except IdError EntityId := do
  let bytes ← (Bytes.ofHexDigits (trimLeading ['0', 'x'] text.toList)).mapError .notHex
  ofBytes bytes

/-- The number in the last eight bytes, zeros before it. -/
def ofWord (n : UInt64) : EntityId :=
  ⟨List.replicate 24 0 ++ wordBytes n, by simp⟩

/-- The form of an identifier inside a debugging text. -/
def debugText (id : EntityId) : String := s!"Id({id.hex})"

end EntityId

namespace NodeId

/-- The bytes of an identifier, exactly 20 of them. -/
def ofBytes (bytes : Bytes) : Except IdError NodeId :=
  match FixedBytes.ofList? 20 bytes with
  | some id => .ok id
  | none => .error (.wrongLength "NodeId" 20 bytes.length)

/-- Reads hexadecimal text, dropping every leading `NodeID-` and then every leading `0x`. -/
def ofText (text : String) : Except IdError NodeId := do
  let digits := trimLeading ['0', 'x'] (trimLeading "NodeID-".toList text.toList)
  let bytes ← (Bytes.ofHexDigits digits).mapError .notHex
  ofBytes bytes

/-- The text of a node identifier. -/
def text (id : NodeId) : String := s!"NodeID-{id.hex}"

/-- The form of an identifier inside a debugging text. -/
def debugText (id : NodeId) : String := s!"NodeId({id.hex})"

end NodeId

end StakingLedger
