import StakingLedger.Proofs.ValidatorSet.SameChange

/-! # Weight changes add like integers

A change is kept in place and others are added to it one by one. The integers
that the changes stand for are summed with a bound on the magnitude: a sum beyond
it is refused, and the sum so far is kept. The two go together call by call, from
whichever form of zero the series starts.
-/

namespace StakingLedger.WeightChange

variable {c r : WeightChange} {decrease : Bool} {amount : UInt64} {changes : List WeightChange}

/-! ## One call -/

/-- A sum that is given takes the place of the change, and a refused one leaves it. -/
theorem run_addInPlace (decrease : Bool) (amount : UInt64) (c : WeightChange) :
    (addInPlace decrease amount).run c =
      match c.add decrease amount with
      | .ok r => (.ok (), r)
      | .error e => (.error e, c) := by
  -- The computation starts with reading the change, and each of its branches is then a run of
  -- writes.
  change Edit.run (if c.decrease = decrease then (_ : Edit Unit) else _) c = _
  unfold add
  by_cases hsame : c.decrease = decrease
  · rw [if_pos hsame, if_pos hsame]
    by_cases hfits : c.amount.toNat + amount.toNat < UInt64.size
    · rw [if_pos hfits, if_pos hfits]
      rfl
    · rw [if_neg hfits, if_neg hfits]
      rfl
  · rw [if_neg hsame, if_neg hsame]
    by_cases hle : amount ≤ c.amount
    · rw [if_pos hle, if_pos hle]
      rfl
    · rw [if_neg hle, if_neg hle]
      rfl

/-- The only failure there is. -/
theorem error_of_add {e : LedgerError} (h : c.add decrease amount = .error e) :
    e = .overflow (.weightChange c.amount amount) := by
  unfold add at h
  split at h
  · split at h
    · cases h
    · exact (Except.error.inj h).symm
  · split at h <;> cases h

/-- A call whose exact sum fits in a word leaves that sum. -/
theorem exists_run_addInPlace
    (hfits : (c.toInt + toInt ⟨decrease, amount⟩).natAbs < UInt64.size) :
    ∃ r, (addInPlace decrease amount).run c = (.ok (), r) ∧
      r.toInt = c.toInt + toInt ⟨decrease, amount⟩ := by
  obtain ⟨r, hr⟩ := exists_add_iff.mpr hfits
  refine ⟨r, ?_, toInt_add hr⟩
  rw [run_addInPlace, hr]

/-- Any other call fails, and leaves what it found. -/
theorem run_addInPlace_of_large
    (hlarge : ¬ (c.toInt + toInt ⟨decrease, amount⟩).natAbs < UInt64.size) :
    (addInPlace decrease amount).run c =
      (.error (.overflow (.weightChange c.amount amount)), c) := by
  rw [run_addInPlace]
  cases h : c.add decrease amount with
  | ok r => exact absurd (exists_add_iff.mp ⟨r, h⟩) hlarge
  | error e => rw [error_of_add h]

/-! ## A series of calls -/

/-- Sums integers in turn. A sum whose magnitude does not fit in a word is refused, and the sum so
far is kept. Answers with what was accepted, and with the sum in the end. -/
def boundedSum (n : Int) : List Int → List Bool × Int
  | [] => ([], n)
  | m :: rest =>
    if (n + m).natAbs < UInt64.size then
      (true :: (boundedSum (n + m) rest).1, (boundedSum (n + m) rest).2)
    else (false :: (boundedSum n rest).1, (boundedSum n rest).2)

theorem run_addEach_cons (d : WeightChange) (rest : List WeightChange) (c : WeightChange) :
    (addEach (d :: rest)).run c =
      (((addInPlace d.decrease d.amount).run c).1 ::
          ((addEach rest).run ((addInPlace d.decrease d.amount).run c).2).1,
        ((addEach rest).run ((addInPlace d.decrease d.amount).run c).2).2) := by
  unfold addEach
  rw [List.mapM_cons]
  rfl

/-- The calls of a series are accepted and refused as the integers are, and leave the same sum. -/
theorem addEach_eq_boundedSum (c : WeightChange) (changes : List WeightChange) :
    (((addEach changes).run c).1.map Except.isOk, ((addEach changes).run c).2.toInt) =
      boundedSum c.toInt (changes.map toInt) := by
  induction changes generalizing c with
  | nil => rfl
  | cons d rest ih =>
      rw [run_addEach_cons, List.map_cons, List.map_cons, boundedSum]
      split
      next hfits =>
        obtain ⟨r, hrun, hvalue⟩ := exists_run_addInPlace hfits
        rw [hrun, ← show r.toInt = c.toInt + d.toInt from hvalue, ← ih r]
        rfl
      next hlarge =>
        rw [run_addInPlace_of_large hlarge, ← ih c]
        rfl

/-- Adding several changes in turn gives an answer just if every call succeeds, and then what the
calls leave. -/
theorem addAll_eq_ok_iff : c.addAll changes = .ok r ↔
    ((addEach changes).run c).1.all Except.isOk = true ∧ ((addEach changes).run c).2 = r := by
  -- A call that fails leaves its target alone, and the series goes on without it.
  induction changes generalizing c with
  | nil => exact ⟨fun h => ⟨rfl, Except.ok.inj h⟩, fun h => congrArg Except.ok h.2⟩
  | cons d rest ih =>
      have hstep : c.addAll (d :: rest) =
          c.add d.decrease d.amount >>= fun next => next.addAll rest := rfl
      rw [hstep, bind_eq_ok_iff, run_addEach_cons, run_addInPlace]
      cases c.add d.decrease d.amount with
      | ok next =>
          constructor
          · rintro ⟨_, hnext, hrest⟩
            cases hnext
            exact ih.mp hrest
          · exact fun h => ⟨next, rfl, ih.mpr h⟩
      | error e =>
          constructor
          · rintro ⟨_, hnext, _⟩
            cases hnext
          · rintro ⟨hall, _⟩
            cases hall

/-- A series all of whose calls succeed leaves the sum of its changes. -/
theorem toInt_addEach (h : ((addEach changes).run c).1.all Except.isOk = true) :
    ((addEach changes).run c).2.toInt = c.toInt + (changes.map toInt).sum :=
  toInt_addAll (addAll_eq_ok_iff.mpr ⟨h, rfl⟩)

/-- Changes add like integers, whatever change a series of calls starts from. The calls succeed and
fail as the bounded sums of the integers do and leave the same number; a single call leaves the
exact sum if that fits in a word, and otherwise fails and leaves what it found; what is left is no
change just if the number is zero; and two series that succeed with the same sum, other than zero,
leave the same record. -/
theorem addEach_like_integers (c : WeightChange) (changes : List WeightChange) :
    (((addEach changes).run c).1.map Except.isOk, ((addEach changes).run c).2.toInt) =
        boundedSum c.toInt (changes.map toInt) ∧
      (∀ decrease amount,
        if (c.toInt + toInt ⟨decrease, amount⟩).natAbs ≤ 2 ^ 64 - 1 then
          ∃ r, (addInPlace decrease amount).run c = (.ok (), r) ∧
            r.toInt = c.toInt + toInt ⟨decrease, amount⟩
        else (addInPlace decrease amount).run c =
          (.error (.overflow (.weightChange c.amount amount)), c)) ∧
      (((addEach changes).run c).2.isZero = true ↔
        (boundedSum c.toInt (changes.map toInt)).2 = 0) ∧
      ∀ c' changes', ((addEach changes).run c).1.all Except.isOk = true →
        ((addEach changes').run c').1.all Except.isOk = true →
        c.toInt + (changes.map toInt).sum = c'.toInt + (changes'.map toInt).sum →
        c.toInt + (changes.map toInt).sum ≠ 0 →
        ((addEach changes).run c).2 = ((addEach changes').run c').2 := by
  have hsums := addEach_eq_boundedSum c changes
  refine ⟨hsums, fun decrease amount => ?_, ?_, fun c' changes' hok hok' hsame hnonzero => ?_⟩
  · split
    next hfits => exact exists_run_addInPlace (Nat.lt_succ_of_le hfits)
    next hlarge => exact run_addInPlace_of_large fun hfits => hlarge (Nat.le_of_lt_succ hfits)
  · rw [isZero_iff, ← hsums]
  · have hvalue := toInt_addEach hok
    rw [← hvalue] at hsame hnonzero
    rw [← toInt_addEach hok'] at hsame
    refine eq_of_toInt hsame ?_
    rw [Bool.eq_false_iff]
    exact fun hzero => hnonzero (isZero_iff.mp hzero)

/-- From the other form of zero a gain leads where a larger one does that is taken back in part, and
a gain on top of the largest is refused. -/
theorem addEach_like_integers_gain :
    ((addEach [⟨false, 5⟩]).run ⟨true, 0⟩).2 = ((addEach [⟨true, 3⟩]).run ⟨false, 8⟩).2 ∧
      (addInPlace false 1).run ⟨false, 18446744073709551615⟩ =
        (.error (.overflow (.weightChange 18446744073709551615 1)),
          ⟨false, 18446744073709551615⟩) := by
  obtain ⟨_, _, _, hsame⟩ := addEach_like_integers ⟨true, 0⟩ [⟨false, 5⟩]
  obtain ⟨_, hcall, _⟩ := addEach_like_integers ⟨false, 18446744073709551615⟩ []
  have hlarge := hcall false 1
  rw [if_neg (by decide)] at hlarge
  exact ⟨hsame ⟨false, 8⟩ [⟨true, 3⟩] (by decide) (by decide) (by decide) (by decide), hlarge⟩

end StakingLedger.WeightChange
