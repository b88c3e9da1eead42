import OrdinalMap.Check

/-! # Faults

The causes for which an operation stops before its end. The state keeps what
the operation did up to that point. A `Breach` stands for a condition that
the operations maintain among themselves: no sequence of them meets one.
-/

namespace OrdinalMap

set_option autoImplicit false

inductive Breach where
  | positionInUse
  | positionVacant
  | sizeMismatch
  | sizeUnderflow
  | missingSlot
  | unwrittenSlot
  deriving DecidableEq, Repr

inductive Fault where
  | bitOutOfBounds (index : Nat)
  | bucketMismatch
  | indexOutOfBounds (length index : Nat)
  | indexOverflow
  | vacantPosition (index : Nat)
  | recededPastBegin
  | pastEnd (index stop : Nat)
  | rangeReversed (first stop : Nat)
  | erasedVacant
  | unlawfulDomain
  | refused (refusal : Refusal)
  /-- A function given by the caller stopped with a message of its own. -/
  | raised (message : String)
  | breach (cause : Breach)
  deriving DecidableEq, Repr

def Breach.message : Breach → String
  | positionInUse => "position already holds an entry"
  | positionVacant => "position holds no entry"
  | sizeMismatch => "live count out of sync with occupancy"
  | sizeUnderflow => "attempt to subtract with overflow"
  | missingSlot => "position has no slot"
  | unwrittenSlot => "slot holds no value"

def Fault.message : Fault → String
  | bitOutOfBounds i => "Bit index " ++ toString i ++ " out of bounds"
  | bucketMismatch => "BUCKET_COUNT must match bucket_count(BIT_COUNT)."
  | indexOutOfBounds n i => "index out of bounds: the len is " ++ toString n ++ " but the index is " ++ toString i
  | indexOverflow => "attempt to add with overflow"
  | vacantPosition i => "no live entry at position " ++ toString i
  | recededPastBegin => "receded past begin"
  | pastEnd i e => "index " ++ toString i ++ " past end " ++ toString e
  | rangeReversed f e => "range start " ++ toString f ++ " after end " ++ toString e
  | erasedVacant => "erase_at on a vacant position"
  | unlawfulDomain => "key domain ordinals must be 0..COUNT in VALUES order"
  | refused ⟨_, .stop message⟩ => message
  | refused ⟨_, .abort⟩ => "aborted"
  | raised message => message
  | breach cause => cause.message

/-- What a function given by the caller returns; its own message is the fault. -/
def raising {α : Type} : Except String α → Except Fault α
  | .ok a => .ok a
  | .error message => .error (.raised message)

end OrdinalMap
