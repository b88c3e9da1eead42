import OrdinalMap.Table.Walk

/-! # Loans

Entries that a writable walk yields are lent: whoever holds one may write to
it as long as the table stays borrowed, also while the walk goes on. Nothing
here prevents two loans of one entry; that the walk never makes them is what
keeps the holders apart.
-/

namespace OrdinalMap

set_option autoImplicit false

inductive LoanCall (ν : Type) where
  | pull (e : End)
  | write (loan : Nat) (v : ν)

/-- A lent entry: its ordinal, and the value that its holder found there or
wrote last. -/
structure Loan (ν : Type) where
  ordinal : Nat
  value : ν
  deriving DecidableEq, Repr

/-- A table that is walked over, with the loans made so far, first to last. -/
structure Lending {κ : Type} (D : Domain κ) (ν : Type) where
  table : Table D ν
  walk : Walk .writable
  loans : List (Loan ν)

namespace Lending

variable {κ ν : Type} {D : Domain κ}

def pull (e : End) (s : Lending D ν) : Except Fault (Option (Entry κ ν)) × Lending D ν :=
  match (Walk.ends s.table).pull e s.walk with
  | .ok (some entry) walk =>
    (.ok (some entry), { s with walk, loans := s.loans ++ [⟨entry.ordinal, entry.value⟩] })
  | .ok none walk => (.ok none, { s with walk })
  | .error f walk => (.error f, { s with walk })

/-- Writes to the table through a loan. Without the loan there is nothing to
write through. -/
def write (loan : Nat) (v : ν) (s : Lending D ν) : Except Fault (Option (Entry κ ν)) × Lending D ν :=
  match s.loans[loan]? with
  | none => (.ok none, s)
  | some l =>
    match Table.modifyAt l.ordinal (fun _ => v) s.table with
    | .ok _ table => (.ok none, { s with table, loans := s.loans.set loan { l with value := v } })
    | .error f table => (.error f, { s with table })

def perform : LoanCall ν → Lending D ν → Except Fault (Option (Entry κ ν)) × Lending D ν
  | .pull e => pull e
  | .write loan v => write loan v

def run : List (LoanCall ν) → Lending D ν → List (Except Fault (Option (Entry κ ν))) × Lending D ν
  | [], s => ([], s)
  | c :: cs, s =>
    let (r, s) := perform c s
    let (rs, s) := run cs s
    (r :: rs, s)

end Lending

namespace Table

variable {κ ν : Type} {D : Domain κ}

def lend (cs : List (LoanCall ν)) : Action D ν (List (Except Fault (Option (Entry κ ν)))) := fun t =>
  match Walk.ofTable .writable t with
  | .ok walk =>
    let (rs, s) := Lending.run cs { table := t, walk, loans := [] }
    .ok rs s.table
  | .error f => .error f t

end Table

end OrdinalMap
