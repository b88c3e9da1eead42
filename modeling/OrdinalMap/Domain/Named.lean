import OrdinalMap.Domain
import OrdinalMap.Textual

/-! # Domains of named keys

Keys given by their names. The regular domain of a list of names numbers
them in their order. Each of the other domains breaks one part of what a
lawful domain promises.
-/

namespace OrdinalMap

set_option autoImplicit false

structure Member where
  name : String
  ordinal : Nat
  deriving DecidableEq, Repr

instance : Textual Member := ⟨fun m => .ok (.word m.name)⟩

namespace Domain

def number (names : List String) : List Member := names.zipIdx.map fun p => ⟨p.1, p.2⟩

/-- The regular domain of a list of names. -/
def named (names : List String) (h : names.length < indexBound) : Domain Member where
  count := names.length
  values := number names
  ordinal := Member.ordinal
  count_lt := h
  capacity_lt := h

def swapped : Domain Member where
  count := 2
  values := [⟨"B", 1⟩, ⟨"A", 0⟩]
  ordinal := Member.ordinal

/-- Every ordinal lies past the occupancy, though not past the slots. -/
def wide : Domain Member where
  count := 2
  values := [⟨"A", 2⟩, ⟨"B", 3⟩]
  ordinal := Member.ordinal
  slots := 4

def shared : Domain Member where
  count := 2
  values := [⟨"A", 0⟩, ⟨"B", 0⟩]
  ordinal := Member.ordinal

/-- An ordinal is left out, and the last one is past the list of keys. -/
def gap : Domain Member where
  count := 2
  values := [⟨"A", 0⟩, ⟨"B", 2⟩]
  ordinal := Member.ordinal
  slots := 3
  capacity := 3

/-- There is no slot for the last ordinal. -/
def shortSlots : Domain Member where
  count := 3
  values := number ["A", "B", "C"]
  ordinal := Member.ordinal
  slots := 2

/-- The last key is not listed. -/
def shortList : Domain Member where
  count := 3
  values := number ["A", "B"]
  ordinal := Member.ordinal

/-- There are more keys than counted. -/
def lowCount : Domain Member where
  count := 2
  values := number ["A", "B", "C"]
  ordinal := Member.ordinal
  slots := 3
  capacity := 3

/-- There are fewer keys than counted. -/
def highCount : Domain Member where
  count := 4
  values := number ["A", "B", "C"]
  ordinal := Member.ordinal
  slots := 3
  capacity := 3

end Domain

end OrdinalMap
