import StakingLedger.Error.Basic

/-! # Checked amounts

Amounts, weights and times are 64-bit words. A sum that leaves the range and a
difference below zero are errors that name the quantity.
-/

namespace StakingLedger

/-- Adds two amounts; `what` names the sum in the error. -/
def checkedAdd (a b : UInt64) (what : String) : Answer UInt64 :=
  if a.toNat + b.toNat < UInt64.size then .ok (a + b) else .error (.overflow (.sum what a b))

/-- Subtracts an amount; `what` names the difference in the error. -/
def checkedSub (a b : UInt64) (what : String) : Answer UInt64 :=
  if b ≤ a then .ok (a - b) else .error (.underflow (.difference what a b))

/-- The difference of two amounts, zero when it would be negative. -/
def saturatingSub (a b : UInt64) : UInt64 := if b ≤ a then a - b else 0

/-- The product of two amounts, the greatest word when it does not fit. -/
def saturatingMul (a b : UInt64) : UInt64 :=
  if a.toNat * b.toNat < UInt64.size then a * b else UInt64.ofNat (UInt64.size - 1)

theorem checkedAdd_eq_ok_iff {a b c : UInt64} {what : String} :
    checkedAdd a b what = .ok c ↔ a.toNat + b.toNat = c.toNat := by
  unfold checkedAdd
  split
  next hfits =>
    rw [Except.ok.injEq, ← UInt64.toNat_inj, UInt64.toNat_add, Nat.mod_eq_of_lt hfits]
  next hlarge =>
    have hc := c.toNat_lt_size
    constructor
    · intro h; cases h
    · intro h; omega

theorem checkedAdd_eq_error_iff {a b : UInt64} {what : String} {e : LedgerError} :
    checkedAdd a b what = .error e ↔
      UInt64.size ≤ a.toNat + b.toNat ∧ e = .overflow (.sum what a b) := by
  unfold checkedAdd
  split
  next hfits => simp [Nat.not_le.mpr hfits]
  next hlarge => simp [Nat.le_of_not_lt hlarge, eq_comm]

theorem checkedSub_eq_ok_iff {a b c : UInt64} {what : String} :
    checkedSub a b what = .ok c ↔ a.toNat = c.toNat + b.toNat := by
  unfold checkedSub
  split
  next hle =>
    have hnat : b.toNat ≤ a.toNat := UInt64.le_iff_toNat_le.mp hle
    rw [Except.ok.injEq, ← UInt64.toNat_inj, UInt64.toNat_sub_of_le _ _ hle]
    omega
  next hlarge =>
    have hnat : ¬ b.toNat ≤ a.toNat := fun h => hlarge (UInt64.le_iff_toNat_le.mpr h)
    constructor
    · intro h; cases h
    · intro h; omega

end StakingLedger
