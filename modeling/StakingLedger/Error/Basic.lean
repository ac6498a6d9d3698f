import StakingLedger.Error.Cause

/-! # Ledger errors

An absence (`notFound`) is recoverable and often just an answer; every other
kind is fatal to the operation that raised it. Each kind has a stable code, and
its text is a fixed lead followed by the wording of the cause.
-/

namespace StakingLedger

/-- Why a ledger operation failed. -/
inductive LedgerError where
  /-- A queried entity does not exist. -/
  | notFound (what : Missing)
  /-- The parent of a layer cannot be resolved. -/
  | missingParent (block : EntityId)
  /-- A caller broke a documented precondition. -/
  | invariantViolation (breach : Breach)
  /-- A supply, reward or weight left the representable range. -/
  | overflow (what : Overflow)
  /-- A supply, reward or weight would be negative. -/
  | underflow (what : Underflow)
  /-- Persisted bytes mean nothing. -/
  | decode (fault : Malformed)
  /-- The store itself failed. -/
  | backend (text : String)
  /-- A staker record is impossible in itself. -/
  | invalidStaker (fault : StakerFault)
  /-- A transaction does not apply. -/
  | invalidTransaction (fault : TransactionFault)
  /-- A configuration value is out of range. -/
  | invalidConfig (fault : ConfigFault)
  deriving DecidableEq

namespace LedgerError

def isNotFound : LedgerError → Bool
  | .notFound _ => true
  | _ => false

/-- The stable, machine-readable name of the kind of error. -/
def code : LedgerError → String
  | .notFound _ => "STATE_NOT_FOUND"
  | .missingParent _ => "STATE_MISSING_PARENT"
  | .invariantViolation _ => "STATE_INVARIANT_VIOLATION"
  | .overflow _ => "STATE_OVERFLOW"
  | .underflow _ => "STATE_UNDERFLOW"
  | .decode _ => "STATE_DECODE_ERROR"
  | .backend _ => "STATE_BACKEND_ERROR"
  | .invalidStaker _ => "STATE_INVALID_STAKER"
  | .invalidTransaction _ => "STATE_INVALID_TRANSACTION"
  | .invalidConfig _ => "STATE_INVALID_CONFIG"

/-- The text shown for an error. -/
def message : LedgerError → String
  | .notFound what => "Not found: " ++ what.message
  | .missingParent block => "Missing parent state: " ++ block.hex
  | .invariantViolation breach => "Invariant violation: " ++ breach.message
  | .overflow what => "Arithmetic overflow: " ++ what.message
  | .underflow what => "Arithmetic underflow: " ++ what.message
  | .decode fault => "Decode error: " ++ fault.message
  | .backend text => "State backend error: " ++ text
  | .invalidStaker fault => "Invalid staker: " ++ fault.message
  | .invalidTransaction fault => "Invalid transaction: " ++ fault.message
  | .invalidConfig fault => "Invalid configuration: " ++ fault.message

/-- The error of a kind given by its name, with a reason in words; the reason of a missing parent
is an identifier. -/
def ofKind? (kind text : String) : Option LedgerError :=
  match kind with
  | "NotFound" => some (.notFound (.stated text))
  | "MissingParentState" => (EntityId.ofText text).toOption.map .missingParent
  | "InvariantViolation" => some (.invariantViolation (.stated text))
  | "Overflow" => some (.overflow (.stated text))
  | "Underflow" => some (.underflow (.stated text))
  | "Decode" => some (.decode (.stated text))
  | "Backend" => some (.backend text)
  | "InvalidStaker" => some (.invalidStaker (.stated text))
  | "InvalidTransaction" => some (.invalidTransaction (.stated text))
  | "InvalidConfig" => some (.invalidConfig (.stated text))
  | _ => none

end LedgerError

/-- The answer of an operation that may fail. -/
abbrev Answer (α : Type) := Except LedgerError α

/-- An absent value is the error that names what was looked for. -/
def orNotFound {α : Type} (value : Option α) (what : Missing) : Answer α :=
  match value with
  | some a => .ok a
  | none => .error (.notFound what)

/-- A failure of the key-value store. -/
inductive StoreError where
  | backend (text : String)
  | encode (text : String)
  | decode (text : String)
  | notFound
  deriving DecidableEq

/-- How the ledger reports a failure of its store. -/
def StoreError.toLedgerError : StoreError → LedgerError
  | .backend text => .backend ("backend error: " ++ text)
  | .encode text => .backend ("encode error: " ++ text)
  | .decode text => .decode (.stated text)
  | .notFound => .notFound .storageRecord

/-- The store failure of a kind given by its name. -/
def StoreError.ofKind? (kind text : String) : Option StoreError :=
  match kind with
  | "Backend" => some (.backend text)
  | "Encode" => some (.encode text)
  | "Decode" => some (.decode text)
  | "NotFound" => some .notFound
  | _ => none

end StakingLedger
