import OrdinalMap.Table

/-! # Looking up keys

The value of a key, to read it or to change it in place. `require` and
`modifyRequired` want an entry, and leave it to a policy what happens if
there is none.
-/

namespace OrdinalMap.Table

set_option autoImplicit false

variable {κ ν : Type} {D : Domain κ}

def contains (t : Table D ν) (k : κ) : Bool := t.holds (D.ordinal k)

def multiplicity (t : Table D ν) (k : κ) : Nat := (t.contains k).toNat

def get? (t : Table D ν) (k : κ) : Except Fault (Option ν) :=
  if t.contains k then (t.valueAt (D.ordinal k)).map some else .ok none

def absent (P : Policy) (site : String) (t : Table D ν) (k : κ) : Fault :=
  .refused (P.refuse site (.outOfRange (D.ordinal k) t.size))

def require (P : Policy) (site : String) (t : Table D ν) (k : κ) : Except Fault ν :=
  if t.contains k then t.valueAt (D.ordinal k) else .error (t.absent P site k)

def modify? (k : κ) (f : ν → ν) : Action D ν (Option ν) := do
  if (← get).contains k then return some (← modifyAt (D.ordinal k) f)
  return none

def modifyRequired (P : Policy) (site : String) (k : κ) (f : ν → ν) : Action D ν ν := do
  let t ← get
  unless t.contains k do throw (t.absent P site k)
  modifyAt (D.ordinal k) f

end OrdinalMap.Table
