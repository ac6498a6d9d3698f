import StakingLedger.Bytes.Word

/-! # The order of words

Words of one width that are written most significant byte first are ordered as
byte strings just as they are ordered as numbers. Every byte string of the
width is such a word.
-/

namespace StakingLedger

/-- Of two byte strings the fronts of equal length decide first. -/
theorem Bytes.compare_append {a b : Bytes} (h : a.length = b.length) (c d : Bytes) :
    compare (a ++ c) (b ++ d) = (compare a b).then (compare c d) := by
  induction a generalizing b with
  | nil =>
      rw [List.eq_nil_of_length_eq_zero h.symm]
      rw [Std.ReflOrd.compare_self, Ordering.eq_then]
      rfl
  | cons x a ih =>
      cases b with
      | nil => cases h
      | cons y b =>
          rw [List.cons_append, List.cons_append, List.compare_cons_cons, List.compare_cons_cons,
            ih (Nat.succ.inj h), Ordering.then_assoc]

theorem bigEndian_succ (width n : Nat) :
    bigEndian (width + 1) n = bigEndian width (n / 256) ++ [UInt8.ofNat n] := by
  rw [bigEndian, littleEndian, List.reverse_cons]
  rfl

theorem compare_lastDigits (a b : Nat) :
    compare [UInt8.ofNat a] [UInt8.ofNat b] = compare (a % 256) (b % 256) := by
  rw [List.compare_cons_cons, Std.ReflOrd.compare_self, Ordering.then_eq]
  change compareOfLessAndEq (UInt8.ofNat a) (UInt8.ofNat b) = compareOfLessAndEq (a % 256) (b % 256)
  unfold compareOfLessAndEq
  simp only [UInt8.lt_iff_toNat_lt, ← UInt8.toNat_inj, UInt8.toNat_ofNat']

/-- The high digits of two numbers decide their order, and then the last digits. -/
theorem compare_div_then_mod (a b : Nat) :
    (compare (a / 256) (b / 256)).then (compare (a % 256) (b % 256)) = compare a b := by
  rcases Nat.lt_trichotomy (a / 256) (b / 256) with h | h | h
  · rw [Nat.compare_eq_lt.mpr h, Ordering.lt_then, eq_comm, Nat.compare_eq_lt]
    omega
  · rw [Nat.compare_eq_eq.mpr h, Ordering.eq_then]
    rcases Nat.lt_trichotomy (a % 256) (b % 256) with h' | h' | h'
    · rw [Nat.compare_eq_lt.mpr h', eq_comm, Nat.compare_eq_lt]
      omega
    · rw [Nat.compare_eq_eq.mpr h', eq_comm, Nat.compare_eq_eq]
      omega
    · rw [Nat.compare_eq_gt.mpr h', eq_comm, Nat.compare_eq_gt]
      omega
  · rw [Nat.compare_eq_gt.mpr h, Ordering.gt_then, eq_comm, Nat.compare_eq_gt]
    omega

theorem compare_bigEndian {width a b : Nat} (ha : a < valueCount width) (hb : b < valueCount width) :
    compare (bigEndian width a) (bigEndian width b) = compare a b := by
  induction width generalizing a b with
  | zero =>
      unfold valueCount at ha hb
      rw [show a = b by omega, Std.ReflOrd.compare_self, Std.ReflOrd.compare_self]
  | succ width ih =>
      unfold valueCount at ha hb
      rw [bigEndian_succ, bigEndian_succ, Bytes.compare_append (by simp), ih (by omega) (by omega),
        compare_lastDigits, compare_div_then_mod]

-- The other byte order would not do.
example : compare (bigEndian 2 255) (bigEndian 2 256) = .lt ∧
    compare (littleEndian 2 255) (littleEndian 2 256) = .gt := by decide

theorem bigEndian_inj {width a b : Nat} (ha : a < valueCount width) (hb : b < valueCount width)
    (h : bigEndian width a = bigEndian width b) : a = b := by
  rw [← ofBigEndian_bigEndian width a ha, h, ofBigEndian_bigEndian width b hb]

theorem compare_wordBytes (a b : UInt64) :
    compare (wordBytes a) (wordBytes b) = compare a.toNat b.toNat :=
  compare_bigEndian a.toNat_lt b.toNat_lt

theorem wordBytes_inj {a b : UInt64} (h : wordBytes a = wordBytes b) : a = b :=
  UInt64.toNat_inj.mp (@bigEndian_inj 8 _ _ a.toNat_lt b.toNat_lt h)

theorem ofBigEndian_wordBytes (n : UInt64) : UInt64.ofNat (ofBigEndian (wordBytes n)) = n := by
  rw [wordBytes, ofBigEndian_bigEndian 8 n.toNat n.toNat_lt, UInt64.ofNat_toNat]

/-! ## Every byte string is a word -/

theorem ofLittleEndian_lt (digits : Bytes) : ofLittleEndian digits < valueCount digits.length := by
  induction digits with
  | nil => exact Nat.one_pos
  | cons digit rest ih =>
      have hdigit := digit.toNat_lt
      simp only [ofLittleEndian, List.length_cons, valueCount]
      omega

theorem littleEndian_ofLittleEndian (digits : Bytes) :
    littleEndian digits.length (ofLittleEndian digits) = digits := by
  induction digits with
  | nil => rfl
  | cons digit rest ih =>
      have hdigit := digit.toNat_lt
      have hhigh : (digit.toNat + 256 * ofLittleEndian rest) / 256 = ofLittleEndian rest := by
        omega
      have hlow : UInt8.ofNat (digit.toNat + 256 * ofLittleEndian rest) = digit := by
        rw [← UInt8.toNat_inj, UInt8.toNat_ofNat']
        omega
      rw [List.length_cons, ofLittleEndian, littleEndian, hhigh, hlow, ih]

theorem exists_bigEndian {width : Nat} {bytes : Bytes} (h : bytes.length = width) :
    ∃ n, n < valueCount width ∧ bytes = bigEndian width n := by
  have hlt := ofLittleEndian_lt bytes.reverse
  have hback := littleEndian_ofLittleEndian bytes.reverse
  rw [List.length_reverse, h] at hlt hback
  refine ⟨ofLittleEndian bytes.reverse, hlt, ?_⟩
  rw [bigEndian, hback, List.reverse_reverse]

theorem exists_wordBytes {bytes : Bytes} (h : bytes.length = 8) : ∃ n, bytes = wordBytes n := by
  obtain ⟨n, hlt, rfl⟩ := exists_bigEndian h
  refine ⟨UInt64.ofNat n, ?_⟩
  rw [wordBytes, UInt64.toNat_ofNat_of_lt' hlt]

end StakingLedger
