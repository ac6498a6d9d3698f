import StakingLedger.Amount

/-! # Weight changes

The change of a validator's weight at one height is kept as a direction and a
magnitude. Changes add like signed numbers; a sum whose magnitude does not fit
in a word is an error.
-/

namespace StakingLedger

/-- A signed change of weight. -/
structure WeightChange where
  /-- The weight goes down. -/
  decrease : Bool
  amount : UInt64
  deriving DecidableEq

namespace WeightChange

/-- No change. -/
def zero : WeightChange := ⟨false, 0⟩

instance : Inhabited WeightChange := ⟨zero⟩

/-- The signed number that a change stands for. -/
def toInt (c : WeightChange) : Int :=
  if c.decrease then -(c.amount.toNat : Int) else (c.amount.toNat : Int)

/-- Adds another change. Where the two cancel the direction stays what it was. -/
def add (c : WeightChange) (decrease : Bool) (amount : UInt64) : Answer WeightChange :=
  if c.decrease = decrease then
    if c.amount.toNat + amount.toNat < UInt64.size then .ok ⟨c.decrease, c.amount + amount⟩
    else .error (.overflow (.weightChange c.amount amount))
  else if amount ≤ c.amount then .ok ⟨c.decrease, c.amount - amount⟩
  else .ok ⟨decrease, amount - c.amount⟩

/-- A computation on the change at hand that may fail; what it wrote before a failure stays
written. -/
abbrev Edit := ExceptT LedgerError (StateM WeightChange)

/-- Runs a computation: its answer, and the change after it. -/
def Edit.run {α : Type} (action : Edit α) (c : WeightChange) : Answer α × WeightChange := action c

/-- Adds another change to the one at hand. -/
def addInPlace (decrease : Bool) (amount : UInt64) : Edit Unit := do
  let c ← get
  if c.decrease = decrease then
    if c.amount.toNat + amount.toNat < UInt64.size then
      modify fun c => { c with amount := c.amount + amount }
    else throw (.overflow (.weightChange c.amount amount))
  else if amount ≤ c.amount then
    modify fun c => { c with amount := c.amount - amount }
  else
    modify fun c => { c with amount := amount - c.amount }
    modify fun c => { c with decrease := decrease }

/-- Adds several changes to the one at hand, each of them whether or not those before it could be
added. -/
def addEach (changes : List WeightChange) : StateM WeightChange (List (Answer Unit)) :=
  changes.mapM fun d => (addInPlace d.decrease d.amount).run

/-- Adds several changes in turn. -/
def addAll (c : WeightChange) (changes : List WeightChange) : Answer WeightChange :=
  changes.foldlM (fun c d => c.add d.decrease d.amount) c

def isZero (c : WeightChange) : Bool := c.amount == 0

end WeightChange

end StakingLedger
