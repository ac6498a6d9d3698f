/-! # Kinds and priorities of stakers

A priority is the kind of a staker together with its phase. Among stakers that
change state at the same time it decides who comes first: pending validators
before their delegators, so that a delegator is never promoted before its
validator, and current delegators before their validators, so that a delegator
retires first.
-/

namespace StakingLedger

/-- The kind of commitment that a staking transaction makes. -/
inductive StakerKind where
  | primaryValidator
  | primaryDelegator
  | permissionedValidator
  | permissionlessValidator
  | permissionlessDelegator
  deriving DecidableEq, Inhabited

/-- The set a staker belongs to. -/
inductive Phase where
  | current
  | pending
  deriving DecidableEq, Inhabited

/-- Kind and phase of a staker, as the tie-break of the staker order. -/
inductive Priority where
  | primaryNetworkValidatorPending
  | primaryNetworkDelegatorPending
  | supernetPermissionlessValidatorPending
  | supernetPermissionlessDelegatorPending
  | supernetPermissionedValidatorPending
  | supernetPermissionedValidatorCurrent
  | supernetPermissionlessDelegatorCurrent
  | supernetPermissionlessValidatorCurrent
  | primaryNetworkDelegatorCurrent
  | primaryNetworkValidatorCurrent
  deriving DecidableEq, Inhabited

namespace StakerKind

def isDelegator : StakerKind → Bool
  | .primaryDelegator | .permissionlessDelegator => true
  | _ => false

def isValidator (kind : StakerKind) : Bool := !kind.isDelegator

def all : List StakerKind :=
  [.primaryValidator, .primaryDelegator, .permissionedValidator, .permissionlessValidator,
    .permissionlessDelegator]

end StakerKind

namespace Priority

def all : List Priority :=
  [.primaryNetworkValidatorPending, .primaryNetworkDelegatorPending,
    .supernetPermissionlessValidatorPending, .supernetPermissionlessDelegatorPending,
    .supernetPermissionedValidatorPending, .supernetPermissionedValidatorCurrent,
    .supernetPermissionlessDelegatorCurrent, .supernetPermissionlessValidatorCurrent,
    .primaryNetworkDelegatorCurrent, .primaryNetworkValidatorCurrent]

/-- The rank of a priority, from 1 to 10; a lower rank comes first. -/
def rank : Priority → Nat
  | .primaryNetworkValidatorPending => 1
  | .primaryNetworkDelegatorPending => 2
  | .supernetPermissionlessValidatorPending => 3
  | .supernetPermissionlessDelegatorPending => 4
  | .supernetPermissionedValidatorPending => 5
  | .supernetPermissionedValidatorCurrent => 6
  | .supernetPermissionlessDelegatorCurrent => 7
  | .supernetPermissionlessValidatorCurrent => 8
  | .primaryNetworkDelegatorCurrent => 9
  | .primaryNetworkValidatorCurrent => 10

theorem rank_inj {p q : Priority} (h : p.rank = q.rank) : p = q := by
  cases p <;> cases q <;> simp_all [rank]

instance : Ord Priority := ⟨compareOn rank⟩

instance : Std.TransOrd Priority := inferInstanceAs (Std.TransCmp (compareOn rank))

instance : Std.LawfulEqOrd Priority where
  eq_of_compare h := by
    change compare (rank _) (rank _) = .eq at h
    exact rank_inj (Std.LawfulEqCmp.eq_of_compare h)

/-- The priority of a kind of staker while it is pending. -/
def pending : StakerKind → Priority
  | .primaryValidator => .primaryNetworkValidatorPending
  | .primaryDelegator => .primaryNetworkDelegatorPending
  | .permissionlessValidator => .supernetPermissionlessValidatorPending
  | .permissionlessDelegator => .supernetPermissionlessDelegatorPending
  | .permissionedValidator => .supernetPermissionedValidatorPending

/-- The priority of the same kind in the current phase. -/
def toCurrent : Priority → Priority
  | .primaryNetworkValidatorPending => .primaryNetworkValidatorCurrent
  | .primaryNetworkDelegatorPending => .primaryNetworkDelegatorCurrent
  | .supernetPermissionlessValidatorPending => .supernetPermissionlessValidatorCurrent
  | .supernetPermissionlessDelegatorPending => .supernetPermissionlessDelegatorCurrent
  | .supernetPermissionedValidatorPending => .supernetPermissionedValidatorCurrent
  | p => p

/-- The priority of a kind of staker while it is current. -/
def current (kind : StakerKind) : Priority := (pending kind).toCurrent

def kind : Priority → StakerKind
  | .primaryNetworkValidatorPending | .primaryNetworkValidatorCurrent => .primaryValidator
  | .primaryNetworkDelegatorPending | .primaryNetworkDelegatorCurrent => .primaryDelegator
  | .supernetPermissionlessValidatorPending
  | .supernetPermissionlessValidatorCurrent => .permissionlessValidator
  | .supernetPermissionlessDelegatorPending
  | .supernetPermissionlessDelegatorCurrent => .permissionlessDelegator
  | .supernetPermissionedValidatorPending
  | .supernetPermissionedValidatorCurrent => .permissionedValidator

/-- The pending priorities are the ones ranked up to 5. -/
def isPending (p : Priority) : Bool := p.rank ≤ 5

def isCurrent (p : Priority) : Bool := !p.isPending

def isValidator (p : Priority) : Bool := p.kind.isValidator

def isDelegator (p : Priority) : Bool := p.kind.isDelegator

/-- Validators that a supernet's owner admits; they earn no reward. -/
def isPermissioned (p : Priority) : Bool := p.kind == .permissionedValidator

@[simp] theorem kind_pending (k : StakerKind) : (pending k).kind = k := by cases k <;> rfl

@[simp] theorem kind_toCurrent (p : Priority) : p.toCurrent.kind = p.kind := by cases p <;> rfl

@[simp] theorem isCurrent_toCurrent (p : Priority) : p.toCurrent.isCurrent = true := by
  cases p <;> rfl

end Priority

end StakingLedger
