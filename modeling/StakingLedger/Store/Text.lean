import StakingLedger.Bytes.Hex
import StakingLedger.Store.Basic

/-! # Stores as text

A store is kept in a file as one line for each entry, in key order: the key and
the value in hexadecimal with a blank between them.
-/

namespace StakingLedger

namespace Store

/-- The line of an entry. -/
def entryLine (entry : Bytes × Bytes) : String := s!"{entry.1.hex} {entry.2.hex}\n"

/-- The text of a store. -/
def text (store : Store) : String := String.join (store.entries.entries.map entryLine)

/-- Reads the line of an entry. -/
def readLine? (line : List Char) : Option (Bytes × Bytes) :=
  match line.splitOn ' ' with
  | [key, value] => do
    let k ← (Bytes.ofHexDigits key).toOption
    let v ← (Bytes.ofHexDigits value).toOption
    return (k, v)
  | _ => none

/-- Reads a store from its text. -/
def ofText? (text : String) : Option Store := do
  let lines := (text.toList.splitOn '\n').filter (!·.isEmpty)
  let entries ← lines.mapM readLine?
  return ⟨.ofList entries⟩

end Store

end StakingLedger
