import OrdinalMap.Fault

/-! # Value slots

A slot stores at most one value. Whether a stored value still counts is not
the slot's concern: a table records that in its occupancy, and a slot of an
erased entry may keep its old value.
-/

namespace OrdinalMap

set_option autoImplicit false

inductive Slot (ν : Type) where
  | unwritten
  | held (value : ν)
  deriving DecidableEq, Repr

/-- What has to be done about a value of the type when it is given up: nothing, so that
it is left where it is, or to run a function, which may stop with a message. -/
class Disposal (ν : Type) where
  glue : Option (ν → Except String Unit)

namespace Disposal

def needed (ν : Type) [Disposal ν] : Bool := (glue : Option (ν → Except String Unit)).isSome

/-- Gives up a value. Whether or not that comes to its end, the value is gone. -/
def dispose {ν : Type} [Disposal ν] (v : ν) : Except Fault Unit :=
  match (glue : Option (ν → Except String Unit)) with
  | none => .ok ()
  | some run => raising (run v)

end Disposal

instance : Disposal Int64 := ⟨none⟩

instance : Disposal Nat := ⟨none⟩

instance : Disposal Bool := ⟨none⟩

instance : Disposal Float := ⟨none⟩

instance : Disposal String := ⟨some fun _ => .ok ()⟩

namespace Slot

variable {ν : Type}

/-- A written slot holds the new value, whatever it held before. -/
def write (_ : Slot ν) (v : ν) : Slot ν := held v

def peek : Slot ν → Except Fault ν
  | unwritten => .error (.breach .unwrittenSlot)
  | held v => .ok v

def modify (f : ν → ν) : Slot ν → Except Fault (Slot ν)
  | unwritten => .error (.breach .unwrittenSlot)
  | held v => .ok (held (f v))

def take : Slot ν → Except Fault (ν × Slot ν)
  | unwritten => .error (.breach .unwrittenSlot)
  | held v => .ok (v, unwritten)

def dispose [Disposal ν] : Slot ν → Except Fault (Slot ν)
  | unwritten => .error (.breach .unwrittenSlot)
  | held v => (Disposal.dispose v).map fun _ => unwritten

end Slot

/-- A way of copying values. It has a state of its own, and may fault. -/
abbrev Copier (σ ν : Type) : Type := σ → ν → Except Fault ν × σ

def Copier.exact {ν : Type} : Copier Unit ν := fun s v => (.ok v, s)

end OrdinalMap
