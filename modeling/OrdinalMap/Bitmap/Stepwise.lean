import OrdinalMap.Bitmap
import OrdinalMap.Index

/-! # The scans of a bitmap step by step

The two scans as loops over machine words. Every bucket is asked for by its number,
and every sum, difference and shift is checked. A loop has as many rounds as there are
buckets, and stops without a result if they are not enough. A scan that is repeated
walks through the members, upwards or downwards.
-/

namespace OrdinalMap

set_option autoImplicit false

/-- Why a computation on machine words stops before its end. -/
inductive Trap where
  | bucketOutOfBounds (length index : Nat)
  | shiftOverflow (amount : Nat)
  | wordOverflow
  | unfinished
  deriving DecidableEq, Repr

abbrev Stepwise : Type → Type := Except Trap

namespace Stepwise

/-- A sum or a product, if it is a word. -/
def word (i : Nat) : Stepwise Nat := if i < indexBound then pure i else throw .wordOverflow

def minus (i j : Nat) : Stepwise Nat := if j ≤ i then pure (i - j) else throw .wordOverflow

def shiftLeft (x : BitVec 8) (amount : Nat) : Stepwise (BitVec 8) :=
  if amount < 8 then pure (x <<< amount) else throw (.shiftOverflow amount)

/-- `width` ones from place `start` on. All eight are not made by a shift. -/
def onesMask (start width : Nat) : Stepwise (BitVec 8) := do
  if 8 ≤ width then return .allOnes 8
  let power ← shiftLeft 1 width
  shiftLeft (power - 1) start

/-- Takes steps until one gives a result, but no more than `limit` of them. -/
def loop {σ α : Type} (step : σ → Stepwise (σ ⊕ α)) : (limit : Nat) → σ → Stepwise α
  | 0, _ => throw .unfinished
  | limit + 1, s => do
    match ← step s with
    | .inl s => loop step limit s
    | .inr a => return a

/-- Goes on to the next number until there is none, and gives the numbers on the way. If
there are more than `limit`, it stops without a result. -/
def follow (next : Nat → Stepwise (Option Nat)) : (limit : Nat) → Option Nat → Stepwise (List Nat)
  | _, none => return []
  | 0, some _ => throw .unfinished
  | limit + 1, some i => do
    let rest ← follow next limit (← next i)
    return i :: rest

end Stepwise

namespace Bitmap

open Stepwise

variable {n : Nat}

def bucket (b : Bitmap n) (g : Nat) : Stepwise (BitVec 8) :=
  if h : g < bucketCount n then pure b.buckets[g] else throw (.bucketOutOfBounds (bucketCount n) g)

/-- What a scan still has to look at: some bits of a bucket, and the buckets after it. -/
structure Scan where
  bucket : Nat
  bits : BitVec 8
  deriving DecidableEq, Repr

def stepUp (b : Bitmap n) : Scan → Stepwise (Scan ⊕ Option Nat)
  | ⟨g, x⟩ => do
    if x ≠ 0 then
      let first ← word (g * 8)
      let i ← word (first + x.ctz.toNat)
      return .inr (if i < n then some i else none)
    let g ← word (g + 1)
    if bucketCount n ≤ g then return .inr none
    let x ← b.bucket g
    return .inl ⟨g, x⟩

def scanUp (b : Bitmap n) (start : Nat) : Stepwise (Option Nat) := do
  if n ≤ start then return none
  let x ← b.bucket (start / 8)
  let mask ← shiftLeft (.allOnes 8) (start % 8)
  loop b.stepUp (bucketCount n) ⟨start / 8, x &&& mask⟩

def stepDown (b : Bitmap n) : Scan → Stepwise (Scan ⊕ Option Nat)
  | ⟨g, x⟩ => do
    if x ≠ 0 then
      let first ← word (g * 8)
      let last ← word (first + 7)
      let i ← minus last x.clz.toNat
      return .inr (some i)
    if g = 0 then return .inr none
    let g ← minus g 1
    let x ← b.bucket g
    return .inl ⟨g, x⟩

def scanDown (b : Bitmap n) (before : Nat) : Stepwise (Option Nat) := do
  let before := min before n
  if before = 0 then return none
  let last ← minus before 1
  let x ← b.bucket (last / 8)
  let width ← word (last % 8 + 1)
  let mask ← onesMask 0 width
  loop b.stepDown (bucketCount n) ⟨last / 8, x &&& mask⟩

/-- The upward scan again and again, each time from the index after the one found last. -/
def ascend (b : Bitmap n) (limit : Nat) : Stepwise (List Nat) := do
  follow (fun i => do b.scanUp (← word (i + 1))) limit (← b.scanUp 0)

/-- The downward scan from the largest word, then from each index that was found. -/
def descend (b : Bitmap n) (limit : Nat) : Stepwise (List Nat) := do
  follow b.scanDown limit (← b.scanDown beforeBegin)

end Bitmap

end OrdinalMap
