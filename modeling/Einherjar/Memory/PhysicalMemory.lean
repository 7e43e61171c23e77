import Einherjar.Lib.DoublyLinked

/-! The allocator of `physical-memory.c`: descriptors of memory ranges on two tail queues, and
what one call of `heap_alloc` or `heap_free` does to them. -/
namespace Einherjar.Memory
open Einherjar.Lib.TailQueue

inductive RangeList where
  | freeMemoryRanges | usedMemoryRanges
  deriving DecidableEq

/-- `struct memory_range` without its link field. -/
structure MemoryRange where
  baseAddress : BitVec 32
  size : BitVec 32

def sizeofMemoryRange : BitVec 32 := 16

/-- The allocator's memory. A descriptor is known by its address; `heap` is the address of
the next descriptor. -/
structure HeapState where
  links : Links RangeList (BitVec 32)
  range : BitVec 32 → MemoryRange
  heap : BitVec 32

/-- `TAILQ_INSERT_TAIL(&used_memory_ranges, place, next)`: a `place` of 0 is NULL in the link that
gets it. -/
def insertUsed (links : Links RangeList (BitVec 32)) (place : BitVec 32) :
    Links RangeList (BitVec 32) :=
  let inserted := insertTail links .usedMemoryRanges place
  if place = 0 then inserted.store (links.tqhLast .usedMemoryRanges) none else inserted

namespace HeapState

/-- `TAILQ_REMOVE` from one list and `TAILQ_INSERT_TAIL` to another. -/
def move (s : HeapState) (source target : RangeList) (d : BitVec 32) : HeapState :=
  { s with links := insertTail (remove s.links source d) target d }

def setRange (s : HeapState) (d : BitVec 32) (r : MemoryRange) : HeapState :=
  { s with range := Function.update s.range d r }

/-- Cut a chunk off the top of the range `memRange` and give it a new descriptor. -/
def split (s : HeapState) (memRange size : BitVec 32) : HeapState :=
  let r := s.range memRange
  let s := s.setRange memRange { r with size := r.size - size }
  let place := s.heap
  let s := { s with heap := s.heap + sizeofMemoryRange }
  let s := s.setRange place
    { baseAddress := (s.range memRange).baseAddress + (s.range memRange).size, size := size }
  { s with links := insertUsed s.links place }

end HeapState

/-- The result is the address of the chunk or NULL. The fuel bounds each of the two loops. -/
def heapAlloc (fuel : ℕ) (s : HeapState) (size : BitVec 32) : Option (BitVec 32 × HeapState) :=
  if size = 0 ∨ isEmpty s.links .freeMemoryRanges then some (0, s)
  else
    -- First round: matching for the exact space
    match findFrom s.links (fun d => (s.range d).size = size) fuel
      (first s.links .freeMemoryRanges) with
    | none => none
    | some (some memRange) =>
      some ((s.range memRange).baseAddress, s.move .freeMemoryRanges .usedMemoryRanges memRange)
    | some none =>
      -- Second round: First-fit method
      match findFrom s.links (fun d => size ≤ (s.range d).size) fuel
        (first s.links .freeMemoryRanges) with
      | none => none
      | some (some memRange) =>
        some (((s.split memRange size).range s.heap).baseAddress, s.split memRange size)
      | some none => some (0, s)

/-- The loop of `heap_free`, which reads the link of a descriptor after it has moved it. -/
def heapFreeLoop (address : BitVec 32) :
    ℕ → HeapState → Option (BitVec 32) → Option HeapState
  | 0, _, _ => none
  | _ + 1, s, none => some s
  | fuel + 1, s, some memRange =>
    let s := if (s.range memRange).baseAddress = address then
        s.move .usedMemoryRanges .freeMemoryRanges memRange
      else s
    heapFreeLoop address fuel s (s.links.load (.next memRange))

def heapFree (fuel : ℕ) (s : HeapState) (address : BitVec 32) : Option HeapState :=
  if address = 0 then some s
  else heapFreeLoop address fuel s (first s.links .usedMemoryRanges)

/-- The two lists, with the descriptors on them in order. -/
structure Lists (s : HeapState) (fs us : List (BitVec 32)) : Prop where
  free : Tailq s.links .freeMemoryRanges fs
  used : Tailq s.links .usedMemoryRanges us
  disjoint : ∀ d ∈ fs, d ∉ us

/-- What a call of `heap_alloc` does: result, state and the lists after it. A first fit comes to
these lists if the bump pointer is not NULL and not at a descriptor that is listed. -/
inductive Allocates (s : HeapState) (fs us : List (BitVec 32)) (size : BitVec 32) :
    BitVec 32 → HeapState → List (BitVec 32) → List (BitVec 32) → Prop
  | refused (h : size = 0 ∨ ∀ d ∈ fs, (s.range d).size < size) :
      Allocates s fs us size 0 s fs us
  | exactFit {xs ys : List (BitVec 32)} {d : BitVec 32} (hsize : size ≠ 0)
      (hfs : fs = xs ++ d :: ys) (hxs : ∀ y ∈ xs, (s.range y).size ≠ size)
      (hd : (s.range d).size = size) :
      Allocates s fs us size (s.range d).baseAddress
        (s.move .freeMemoryRanges .usedMemoryRanges d) (xs ++ ys) (us ++ [d])
  | firstFit {xs ys : List (BitVec 32)} {d : BitVec 32} (hsize : size ≠ 0)
      (hfs : fs = xs ++ d :: ys) (hexact : ∀ y ∈ fs, (s.range y).size ≠ size)
      (hxs : ∀ y ∈ xs, (s.range y).size < size)
      (hd : size < (s.range d).size) :
      Allocates s fs us size ((s.range d).baseAddress + ((s.range d).size - size))
        (s.split d size) fs (us ++ [s.heap])

/-- What a call of `heap_free` does. -/
inductive Frees (s : HeapState) (fs us : List (BitVec 32)) (address : BitVec 32) :
    HeapState → List (BitVec 32) → List (BitVec 32) → Prop
  | nothing (h : address = 0 ∨ ∀ d ∈ us, (s.range d).baseAddress ≠ address) :
      Frees s fs us address s fs us
  | released {xs ys : List (BitVec 32)} {d : BitVec 32} (haddress : address ≠ 0)
      (hus : us = xs ++ d :: ys) (hxs : ∀ y ∈ xs, (s.range y).baseAddress ≠ address)
      (hd : (s.range d).baseAddress = address) :
      Frees s fs us address (s.move .usedMemoryRanges .freeMemoryRanges d) (fs ++ [d]) (xs ++ ys)

end Einherjar.Memory
