import OrdinalMap.Index
import OrdinalMap.Bitmap.Scan
import OrdinalMap.Cursor

/-! # Positions that skip unselected indices

A `Skip` walks the indices below `stop` that a selection accepts. `stop`
itself is the position past the last index, and `beforeBegin` the one before
the first; neither can be read. A selection comes with its own scans in both
directions. The linear scans test one index after the other; those of a
bitmap go by buckets.
-/

namespace OrdinalMap

set_option autoImplicit false

structure Selection where
  test : Nat → Bool
  /-- The first selected index from `start` on and below `stop`, or `stop`. -/
  next : (start stop : Nat) → Nat
  /-- The last selected index below `before`. -/
  prev? : (before : Nat) → Option Nat

namespace Selection

def scanUp (test : Nat → Bool) : (count start : Nat) → Option Nat
  | 0, _ => none
  | count + 1, start => if test start then some start else scanUp test count (start + 1)

def scanDown (test : Nat → Bool) : Nat → Option Nat
  | 0 => none
  | i + 1 => if test i then some i else scanDown test i

def linear (test : Nat → Bool) : Selection where
  test := test
  next start stop := (scanUp test (stop - start) start).getD stop
  prev? := scanDown test

end Selection

def Bitmap.selection {n : Nat} (b : Bitmap n) : Selection where
  test := b.contains
  next start stop := ((b.next? start).filter (· < stop)).getD stop
  prev? := b.prev?

inductive Access where
  | readOnly
  | writable
  deriving DecidableEq, Repr

/-- A position for the given access. `sought` is the index at which an
element was last asked for, zero at first. -/
structure Skip (a : Access) where
  index : Nat
  stop : Nat
  sought : Nat := 0
  deriving DecidableEq, Repr

namespace Skip

variable {a a' : Access}

def ofIndex (index stop : Nat) : Except Fault (Skip a) :=
  if index ≤ stop then .ok { index, stop } else .error (.pastEnd index stop)

def firstFrom (sel : Selection) (start stop : Nat) : Except Fault (Skip a) :=
  ofIndex (if start < stop then sel.next start stop else stop) stop

def isOutOfRange (p : Skip a) : Bool := decide (p.stop ≤ p.index)

def advance (sel : Selection) (p : Skip a) : Skip a :=
  let start := nextIndex p.index
  { p with index := if start < p.stop then sel.next start p.stop else p.stop }

def recede (sel : Selection) (p : Skip a) : Except Fault (Skip a) :=
  if p.index = beforeBegin then .error .recededPastBegin
  else .ok { p with index := (sel.prev? (min p.index p.stop)).getD beforeBegin }

def motion (sel : Selection) : Motion (Skip a) where
  advance := advance sel
  recede := recede sel

/-- Positions are the same if index and bound are; what they were last asked
for and what may be done there do not matter. -/
def same (p : Skip a) (q : Skip a') : Bool := p.index == q.index && p.stop == q.stop

def seek (p : Skip a) : Skip a := { p with sought := p.index }

def toReadOnly (p : Skip .writable) : Skip .readOnly where
  index := p.index
  stop := p.stop
  sought := p.sought

/-- The text of a position, given those of its selection and of the source
of its elements. -/
def text (selection source : Text) (p : Skip a) : Text :=
  .record "DenseSkip"
    [("predicate", selection), ("provider", source), ("index", .nat p.index), ("end", .nat p.stop)]

end Skip

end OrdinalMap
