import StakingLedger.Bytes.Word

/-! # Hexadecimal text

Bytes are written as two lower-case digits each and read from digits of either
case. A text of an odd number of bytes is refused before its digits are looked
at; then the first character that is no digit is named, by its first UTF-8 byte.
-/

namespace StakingLedger

/-- Why a text is no hexadecimal byte string. -/
inductive HexError where
  /-- The text has an odd number of UTF-8 bytes. -/
  | oddLength
  /-- The byte at `position` is no hexadecimal digit. -/
  | invalidDigit (byte : UInt8) (position : Nat)
  deriving DecidableEq

/-- The digit of a value below sixteen, in lower case. -/
def hexDigit (n : Nat) : Char :=
  if n < 10 then Char.ofNat (48 + n) else Char.ofNat (87 + n)

/-- The value of a hexadecimal digit of either case. -/
def hexValue? (c : Char) : Option Nat :=
  if '0' ≤ c ∧ c ≤ '9' then some (c.toNat - 48)
  else if 'a' ≤ c ∧ c ≤ 'f' then some (c.toNat - 87)
  else if 'A' ≤ c ∧ c ≤ 'F' then some (c.toNat - 55)
  else none

/-- Two digits for every byte. -/
def Bytes.hexDigits (bytes : Bytes) : List Char :=
  bytes.flatMap fun b => [hexDigit (b.toNat / 16), hexDigit (b.toNat % 16)]

/-- The lower-case hexadecimal text of a byte string. -/
def Bytes.hex (bytes : Bytes) : String := String.ofList bytes.hexDigits

/-- The value of the digit `c`, which stands at byte `position` of the text. -/
def readHexDigit (position : Nat) (c : Char) : Except HexError Nat :=
  match hexValue? c with
  | some value => .ok value
  | none => .error (.invalidDigit ((String.utf8EncodeChar c).headD 0) position)

/-- Reads digits in pairs; `position` is the byte offset of the first one. -/
def readHexPairs (position : Nat) : List Char → Except HexError Bytes
  | [] => .ok []
  | [c] => do
    let _ ← readHexDigit position c
    .error .oddLength
  | high :: low :: rest => do
    let h ← readHexDigit position high
    let l ← readHexDigit (position + 1) low
    let tail ← readHexPairs (position + 2) rest
    return UInt8.ofNat (16 * h + l) :: tail

/-- The number of UTF-8 bytes of the characters. -/
def utf8Length : List Char → Nat
  | [] => 0
  | c :: rest => c.utf8Size + utf8Length rest

/-- Reads the bytes that hexadecimal digits of either case spell. -/
def Bytes.ofHexDigits (text : List Char) : Except HexError Bytes :=
  if utf8Length text % 2 = 1 then .error .oddLength else readHexPairs 0 text

def Bytes.ofHex (text : String) : Except HexError Bytes := Bytes.ofHexDigits text.toList

/-- The inside of a quoted character: controls and the quote are escaped. -/
def quotedChar (c : Char) : String :=
  match c with
  | '\x00' => "\\0"
  | '\t' => "\\t"
  | '\n' => "\\n"
  | '\r' => "\\r"
  | '\'' => "\\'"
  | '\\' => "\\\\"
  | c =>
    if c.toNat < 32 ∨ (127 ≤ c.toNat ∧ c.toNat ≤ 160) ∨ c.toNat = 173 then
      "\\u\x7b" ++ String.ofList (Nat.toDigits 16 c.toNat) ++ "\x7d"
    else c.toString

def HexError.message : HexError → String
  | .oddLength => "Odd number of digits"
  | .invalidDigit byte position =>
    s!"Invalid character '{quotedChar (Char.ofNat byte.toNat)}' at position {position}"

end StakingLedger
