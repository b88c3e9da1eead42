import OrdinalMap.Text

/-! # Failed requirements and what becomes of them

An operation that requires something of its arguments (that a key has an
entry, that every key comes exactly once) names the requirement that failed.
A policy decides what follows: what is logged, and how the operation ends.
-/

namespace OrdinalMap

set_option autoImplicit false

inductive CheckError where
  | outOfRange (ordinal size : Nat)
  | duplicateEntries
  | missingEntries
  deriving DecidableEq, Repr

namespace CheckError

def message : CheckError → String
  | outOfRange ordinal size =>
    "no entry for key with ordinal " ++ toString ordinal ++ " (map holds " ++ toString size ++ " entries)"
  | duplicateEntries => "duplicate enum entries"
  | missingEntries => "missing enum entries"

def text : CheckError → Text
  | outOfRange ordinal size => .record "OutOfRange" [("ordinal", .nat ordinal), ("size", .nat size)]
  | duplicateEntries => .record "DuplicateEnumEntries" []
  | missingEntries => .record "MissingEnumEntries" []

end CheckError

inductive LogLevel where
  | trace
  | debug
  | error
  deriving DecidableEq, Repr

structure LogLine where
  level : LogLevel
  message : String
  deriving DecidableEq, Repr

/-- How a refused operation ends: a message to whoever asked for it, or the
end of the whole process. -/
inductive Ending where
  | stop (message : String)
  | abort
  deriving DecidableEq, Repr

structure Refusal where
  log : List LogLine
  ending : Ending
  deriving DecidableEq, Repr

/-- The answer to a failed requirement, given the place of the call that
required it. There is no way to go on. -/
structure Policy where
  refuse : (site : String) → CheckError → Refusal

namespace Policy

def failedAt (site : String) (e : CheckError) : String :=
  "enum map check failed at " ++ site ++ ": " ++ e.message

def stopping : Policy where
  refuse site e :=
    { log := [⟨.debug, failedAt site e⟩], ending := .stop (e.message ++ " at " ++ site) }

def aborting : Policy where
  refuse site e := { log := [⟨.error, failedAt site e⟩], ending := .abort }

end Policy

end OrdinalMap
