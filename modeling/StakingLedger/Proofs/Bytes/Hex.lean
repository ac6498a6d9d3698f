import Mathlib.Tactic.IntervalCases
import StakingLedger.Bytes.Hex

/-! # What hexadecimal text spells

Two digits spell a byte, the one of the sixteens first, each of them in either
case. Reading succeeds on exactly the texts that spell a byte string, and gives
the bytes that they spell; the written form is one of these texts.
-/

namespace StakingLedger

/-! ## Digits -/

/-- The digits in the order of their values, in lower case. -/
def lowerHexDigits : List Char :=
  ['0', '1', '2', '3', '4', '5', '6', '7', '8', '9', 'a', 'b', 'c', 'd', 'e', 'f']

/-- The digits in the order of their values, in upper case. -/
def upperHexDigits : List Char :=
  ['0', '1', '2', '3', '4', '5', '6', '7', '8', '9', 'A', 'B', 'C', 'D', 'E', 'F']

/-- The character is the digit of a value, in lower or in upper case. -/
def IsHexDigit (c : Char) (value : Nat) : Prop :=
  lowerHexDigits[value]? = some c ∨ upperHexDigits[value]? = some c

namespace IsHexDigit

variable {c : Char} {value : Nat}

theorem lt (h : IsHexDigit c value) : value < 16 :=
  h.elim (fun h => (List.getElem?_eq_some_iff.mp h).1) fun h => (List.getElem?_eq_some_iff.mp h).1

theorem mem (h : IsHexDigit c value) : c ∈ lowerHexDigits ++ upperHexDigits :=
  List.mem_append.mpr (h.imp List.mem_of_getElem? List.mem_of_getElem?)

theorem utf8Size_eq (h : IsHexDigit c value) : c.utf8Size = 1 := by
  have hascii : (lowerHexDigits ++ upperHexDigits).all (fun c => c.utf8Size == 1) = true := rfl
  exact beq_iff_eq.mp (List.all_eq_true.mp hascii c h.mem)

end IsHexDigit

theorem isHexDigit_hexDigit {n : Nat} (h : n < 16) : IsHexDigit (hexDigit n) n := by
  left
  interval_cases n <;> rfl

theorem exists_code_between {c first last : Char} (h : first ≤ c ∧ c ≤ last) :
    ∃ code, c = Char.ofNat code ∧ c.toNat = code ∧ first.toNat ≤ code ∧ code ≤ last.toNat :=
  ⟨c.toNat, (Char.ofNat_toNat c).symm, rfl, h.1, h.2⟩

theorem hexValue?_eq_some_iff {c : Char} {value : Nat} :
    hexValue? c = some value ↔ IsHexDigit c value := by
  constructor
  · intro h
    unfold hexValue? at h
    split at h
    next hrange =>
      obtain ⟨code, rfl, hcode, hfirst, hlast⟩ := exists_code_between hrange
      rw [hcode] at h
      change 48 ≤ code at hfirst
      change code ≤ 57 at hlast
      left
      interval_cases code <;> cases h <;> rfl
    split at h
    next hrange =>
      obtain ⟨code, rfl, hcode, hfirst, hlast⟩ := exists_code_between hrange
      rw [hcode] at h
      change 97 ≤ code at hfirst
      change code ≤ 102 at hlast
      left
      interval_cases code <;> cases h <;> rfl
    split at h
    next hrange =>
      obtain ⟨code, rfl, hcode, hfirst, hlast⟩ := exists_code_between hrange
      rw [hcode] at h
      change 65 ≤ code at hfirst
      change code ≤ 70 at hlast
      right
      interval_cases code <;> cases h <;> rfl
    next => cases h
  · intro h
    have hlt := h.lt
    rcases h with h | h <;> interval_cases value <;> cases h <;> rfl

theorem readHexDigit_eq_ok_iff {position value : Nat} {c : Char} :
    readHexDigit position c = .ok value ↔ IsHexDigit c value := by
  rw [← hexValue?_eq_some_iff]
  unfold readHexDigit
  cases hexValue? c with
  | none => exact iff_of_false nofun nofun
  | some v => rw [Except.ok.injEq, Option.some.injEq]

/-! ## Bytes -/

/-- The digits spell the bytes: two for each byte, the one of the sixteens first. -/
inductive Spells : List Char → Bytes → Prop
  | nil : Spells [] []
  | cons {high low : Char} {byte : UInt8} {digits : List Char} {bytes : Bytes}
      (hhigh : IsHexDigit high (byte.toNat / 16)) (hlow : IsHexDigit low (byte.toNat % 16))
      (hrest : Spells digits bytes) : Spells (high :: low :: digits) (byte :: bytes)

namespace Spells

variable {high low : Char} {h l : Nat} {digits : List Char} {bytes bytes' : Bytes}

/-- A pair of digits in front spells one more byte. -/
theorem pair (hhigh : IsHexDigit high h) (hlow : IsHexDigit low l) (hrest : Spells digits bytes) :
    Spells (high :: low :: digits) (UInt8.ofNat (16 * h + l) :: bytes) := by
  have hh := hhigh.lt
  have hl := hlow.lt
  have hbyte : (UInt8.ofNat (16 * h + l)).toNat = 16 * h + l :=
    UInt8.toNat_ofNat_of_lt' (by change _ < 256; omega)
  refine .cons ?_ ?_ hrest
  · rwa [hbyte, show (16 * h + l) / 16 = h by omega]
  · rwa [hbyte, show (16 * h + l) % 16 = l by omega]

theorem length_eq (h : Spells digits bytes) : digits.length = 2 * bytes.length := by
  induction h with
  | nil => rfl
  | cons _ _ _ ih =>
      simp only [List.length_cons, ih]
      omega

theorem isHexDigit (h : Spells digits bytes) : ∀ c ∈ digits, ∃ value, IsHexDigit c value := by
  induction h with
  | nil => exact fun c hc => absurd hc List.not_mem_nil
  | cons hhigh hlow _ ih =>
      intro c hc
      rcases List.mem_cons.mp hc with rfl | hc
      · exact ⟨_, hhigh⟩
      rcases List.mem_cons.mp hc with rfl | hc
      · exact ⟨_, hlow⟩
      · exact ih c hc

/-- Every even number of digits spells something. -/
theorem exists_of_length {n : Nat} (hlength : digits.length = 2 * n)
    (hdigits : ∀ c ∈ digits, ∃ value, IsHexDigit c value) :
    ∃ bytes, Spells digits bytes ∧ bytes.length = n := by
  induction n generalizing digits with
  | zero =>
      rw [List.eq_nil_of_length_eq_zero hlength]
      exact ⟨[], .nil, rfl⟩
  | succ n ih =>
      match digits, hlength, hdigits with
      | high :: low :: rest, hlength, hdigits =>
        obtain ⟨h, hhigh⟩ := hdigits high List.mem_cons_self
        obtain ⟨l, hlow⟩ := hdigits low (List.mem_cons_of_mem _ List.mem_cons_self)
        have hshorter : rest.length = 2 * n := by
          simp only [List.length_cons] at hlength
          omega
        obtain ⟨bytes, hrest, hn⟩ := ih hshorter
          fun c hc => hdigits c (List.mem_cons_of_mem _ (List.mem_cons_of_mem _ hc))
        exact ⟨_, hrest.pair hhigh hlow, congrArg (· + 1) hn⟩

theorem utf8Length_eq (h : Spells digits bytes) : utf8Length digits = 2 * bytes.length := by
  induction h with
  | nil => rfl
  | cons hhigh hlow _ ih =>
      simp only [utf8Length, hhigh.utf8Size_eq, hlow.utf8Size_eq, ih, List.length_cons]
      omega

theorem of_readHexPairs {position : Nat} (h : readHexPairs position digits = .ok bytes) :
    Spells digits bytes := by
  fun_induction readHexPairs position digits generalizing bytes with
  | case1 position =>
      cases h
      exact .nil
  | case2 position c =>
      cases hc : readHexDigit position c with
      | error e => rw [hc] at h; cases h
      | ok value => rw [hc] at h; cases h
  | case3 position high low rest ih =>
      cases hhigh : readHexDigit position high with
      | error e => rw [hhigh] at h; cases h
      | ok value =>
        cases hlow : readHexDigit (position + 1) low with
        | error e => rw [hhigh, hlow] at h; cases h
        | ok value' =>
          cases htail : readHexPairs (position + 2) rest with
          | error e => rw [hhigh, hlow, htail] at h; cases h
          | ok tail =>
            rw [hhigh, hlow, htail] at h
            cases h
            exact (ih htail).pair (readHexDigit_eq_ok_iff.mp hhigh) (readHexDigit_eq_ok_iff.mp hlow)

theorem readHexPairs_eq (h : Spells digits bytes) (position : Nat) :
    readHexPairs position digits = .ok bytes := by
  induction h generalizing position with
  | nil => rfl
  | @cons high low byte digits bytes hhigh hlow hrest ih =>
      have hbyte : UInt8.ofNat (16 * (byte.toNat / 16) + byte.toNat % 16) = byte := by
        rw [Nat.div_add_mod, UInt8.ofNat_toNat]
      unfold readHexPairs
      rw [readHexDigit_eq_ok_iff.mpr hhigh, readHexDigit_eq_ok_iff.mpr hlow, ih]
      exact congrArg (fun b => Except.ok (b :: bytes)) hbyte

/-- The written form spells the bytes. -/
theorem hexDigits (bytes : Bytes) : Spells bytes.hexDigits bytes := by
  induction bytes with
  | nil => exact .nil
  | cons byte bytes ih =>
      have hlt := byte.toNat_lt
      exact .cons (isHexDigit_hexDigit (by omega)) (isHexDigit_hexDigit (by omega)) ih

end Spells

/-- What is read is what is spelled. -/
theorem Bytes.ofHexDigits_eq_ok_iff {text : List Char} {bytes : Bytes} :
    Bytes.ofHexDigits text = .ok bytes ↔ Spells text bytes := by
  unfold Bytes.ofHexDigits
  constructor
  · intro h
    split at h
    · cases h
    · exact .of_readHexPairs h
  · intro h
    rw [if_neg (by rw [h.utf8Length_eq]; omega)]
    exact h.readHexPairs_eq 0

example : Bytes.ofHexDigits ['0', 'a', 'F', 'f'] = .ok [10, 255] := by decide

end StakingLedger
