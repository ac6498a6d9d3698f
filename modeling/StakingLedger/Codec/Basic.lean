import StakingLedger.Identifier

/-! # The canonical byte form

Every persisted record has one byte form. Words are written in base 256, least
significant byte first; a sequence is preceded by its length in compact form; a
choice is preceded by a tag. Reading takes a value off the front of a byte
string, and a whole record is read only if nothing is left over. Compact
lengths have to be written in the shortest way, so that no value has two forms.
They have 32 bits, so a value with a longer sequence in it has no form at all.
-/

namespace StakingLedger

/-- The byte form of a type of values. -/
class Codec (α : Type) where
  /-- Writes a value. -/
  encode : α → Bytes
  /-- Reads one value from the front, with the bytes after it. -/
  decode : Bytes → Option (α × Bytes)
  /-- Whether every length in the byte form of a value can be written. -/
  fits : α → Bool := fun _ => true

namespace Codec

variable {α β : Type}

/-- Reads a value that has to fill the bytes. -/
def decodeAll [Codec α] (bytes : Bytes) : Option α :=
  match decode bytes with
  | some (value, []) => some value
  | _ => none

/-- Takes `n` bytes off the front. -/
def splitBytes (n : Nat) (bytes : Bytes) : Option (Bytes × Bytes) :=
  if n ≤ bytes.length then some (bytes.take n, bytes.drop n) else none

/-- A word of `width` bytes, least significant byte first. -/
def decodeWord (width : Nat) (bytes : Bytes) : Option (Nat × Bytes) := do
  let (digits, rest) ← splitBytes width bytes
  return (ofLittleEndian digits, rest)

instance : Codec UInt8 where
  encode n := [n]
  decode
    | [] => none
    | n :: rest => some (n, rest)

instance : Codec UInt32 where
  encode n := littleEndian 4 n.toNat
  decode bytes := (decodeWord 4 bytes).map fun (n, rest) => (UInt32.ofNat n, rest)

instance : Codec UInt64 where
  encode n := littleEndian 8 n.toNat
  decode bytes := (decodeWord 8 bytes).map fun (n, rest) => (UInt64.ofNat n, rest)

/-- A truth value is one byte, zero or one. -/
instance : Codec Bool where
  encode b := [if b then 1 else 0]
  decode
    | 0 :: rest => some (false, rest)
    | 1 :: rest => some (true, rest)
    | _ => none

/-- An optional value is preceded by zero when absent and by one when present. -/
instance [Codec α] : Codec (Option α) where
  encode
    | none => [0]
    | some a => 1 :: encode a
  decode
    | 0 :: rest => some (none, rest)
    | 1 :: rest => do
      let (a, rest) ← decode rest
      return (some a, rest)
    | _ => none
  fits a? := a?.all fits

instance (n : Nat) : Codec (FixedBytes n) where
  encode a := a.toList
  decode bytes := do
    let (taken, rest) ← splitBytes n bytes
    let a ← FixedBytes.ofList? n taken
    return (a, rest)

instance [Codec α] [Codec β] : Codec (α × β) where
  encode p := encode p.1 ++ encode p.2
  decode bytes := do
    let (a, rest) ← decode bytes
    let (b, rest) ← decode rest
    return ((a, b), rest)
  fits p := fits p.1 && fits p.2

/-- The numbers below this one have a compact form of one byte. -/
def oneByteLimit : Nat := 64

/-- The numbers below this one have a compact form of at most two bytes. -/
def twoByteLimit : Nat := 16384

/-- The numbers below this one have a compact form of at most four bytes. -/
def fourByteLimit : Nat := 1073741824

/-- The numbers below this one have a compact form. -/
def compactLimit : Nat := 4294967296

/-- A number of 32 bits in one, two, four or five bytes; the low two bits of the first byte tell
which. -/
def encodeCompact (n : Nat) : Bytes :=
  if n < oneByteLimit then littleEndian 1 (4 * n)
  else if n < twoByteLimit then littleEndian 2 (4 * n + 1)
  else if n < fourByteLimit then littleEndian 4 (4 * n + 2)
  else 3 :: littleEndian 4 n

/-- Reads a compact number and refuses one that a shorter form could hold. -/
def decodeCompact (bytes : Bytes) : Option (Nat × Bytes) :=
  match bytes with
  | [] => none
  | first :: tail =>
    match first.toNat % 4 with
    | 0 => some (first.toNat / 4, tail)
    | 1 => do
      let (word, rest) ← decodeWord 2 bytes
      if oneByteLimit ≤ word / 4 then some (word / 4, rest) else none
    | 2 => do
      let (word, rest) ← decodeWord 4 bytes
      if twoByteLimit ≤ word / 4 then some (word / 4, rest) else none
    | _ =>
      if first = 3 then do
        let (word, rest) ← decodeWord 4 tail
        if fourByteLimit ≤ word then some (word, rest) else none
      else none

/-- A byte string is preceded by its length. -/
instance : Codec Bytes where
  encode bytes := encodeCompact bytes.length ++ bytes
  decode bytes := do
    let (length, rest) ← decodeCompact bytes
    splitBytes length rest
  fits bytes := decide (bytes.length < compactLimit)

/-- A text is the byte string of its UTF-8 form. -/
instance : Codec String where
  encode text := encode text.toUTF8.data.toList
  decode bytes := do
    let (utf8, rest) ← (decode bytes : Option (Bytes × Bytes))
    let text ← String.fromUTF8? ⟨utf8.toArray⟩
    return (text, rest)
  fits text := fits text.toUTF8.data.toList

/-- The byte form through another type whose values correspond to these. -/
@[reducible] def via [Codec α] (pack : α → β) (unpack : β → α) : Codec β where
  encode b := encode (unpack b)
  decode bytes := (decode bytes).map fun (a, rest) => (pack a, rest)
  fits b := fits (unpack b)

/-- The form of finitely many values, one byte each. -/
@[reducible] def tags (tag : α → UInt8) (all : List α) : Codec α where
  encode a := [tag a]
  decode
    | [] => none
    | first :: rest => (all.find? (fun a => tag a == first)).map fun a => (a, rest)

end Codec

/-- The canonical bytes of a record. -/
def toCanonical {α : Type} [Codec α] (value : α) : Bytes := Codec.encode value

end StakingLedger
