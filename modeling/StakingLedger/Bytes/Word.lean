/-! # Bytes and words

Byte strings are lists, compared lexicographically. A word of fixed width is
written in base 256, least or most significant digit first.
-/

namespace StakingLedger

/-- A byte string. -/
abbrev Bytes := List UInt8

instance : Std.TransOrd Bytes := inferInstanceAs (Std.TransOrd (List UInt8))

instance : Std.LawfulEqOrd Bytes := inferInstanceAs (Std.LawfulEqOrd (List UInt8))

/-- The number of values that `width` bytes have. -/
def valueCount : Nat → Nat
  | 0 => 1
  | width + 1 => 256 * valueCount width

/-- The low `width` digits of `n` in base 256, least significant first. -/
def littleEndian : Nat → Nat → Bytes
  | 0, _ => []
  | width + 1, n => UInt8.ofNat n :: littleEndian width (n / 256)

/-- The number whose base-256 digits are given, least significant first. -/
def ofLittleEndian : Bytes → Nat
  | [] => 0
  | digit :: rest => digit.toNat + 256 * ofLittleEndian rest

/-- The low `width` digits of `n` in base 256, most significant first. -/
def bigEndian (width n : Nat) : Bytes := (littleEndian width n).reverse

/-- The number whose base-256 digits are given, most significant first. -/
def ofBigEndian (digits : Bytes) : Nat := ofLittleEndian digits.reverse

@[simp] theorem length_littleEndian (width n : Nat) : (littleEndian width n).length = width := by
  induction width generalizing n with
  | zero => rfl
  | succ width ih => simp [littleEndian, ih]

@[simp] theorem length_bigEndian (width n : Nat) : (bigEndian width n).length = width := by
  simp [bigEndian]

theorem ofLittleEndian_littleEndian (width n : Nat) (h : n < valueCount width) :
    ofLittleEndian (littleEndian width n) = n := by
  induction width generalizing n with
  | zero =>
    have hzero : n = 0 := by simpa [valueCount] using h
    rw [hzero]
    rfl
  | succ width ih =>
    have hhigh : n / 256 < valueCount width := by
      simp only [valueCount] at h
      omega
    simp only [littleEndian, ofLittleEndian, ih _ hhigh, UInt8.toNat_ofNat']
    exact Nat.mod_add_div n 256

theorem ofBigEndian_bigEndian (width n : Nat) (h : n < valueCount width) :
    ofBigEndian (bigEndian width n) = n := by
  simp [ofBigEndian, bigEndian, ofLittleEndian_littleEndian width n h]

/-- A 64-bit word, most significant byte first, so that byte order is number order. -/
def wordBytes (n : UInt64) : Bytes := bigEndian 8 n.toNat

@[simp] theorem length_wordBytes (n : UInt64) : (wordBytes n).length = 8 := by
  simp [wordBytes]

end StakingLedger
