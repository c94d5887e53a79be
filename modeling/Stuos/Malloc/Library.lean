import Stuos.Malloc.LinkedListItem

/-!
# The allocator

`library.c`: a first-fit allocator over the list of regions.  Free regions are joined
lazily, while the search passes them, and the heap is expanded when nothing fits.
`_malloc_expand_heap` is a parameter: from the end of the heap and the number of bytes
asked for, the number of bytes mapped.

The two nested loops of the search take the end of the heap as a bound on their rounds,
which is more than there can be regions.
-/

namespace Stuos.Malloc

open Stuos.Lib

/-- `struct MemoryAllocator`, with the memory it lives in. -/
structure Heap where
  mem : Mem
  head : Nat
  tail : Nat
  heapEnd : Nat

/-- `_malloc_expand_heap`. -/
abbrev Expand := Nat → Nat → Nat

def expandHeap (h : Heap) (requestedBytes : Nat) (expand : Expand) :
    Except Halt (Bool × Heap) :=
  let actualNeededBytes := u64 (requestedBytes + 16)
  let allocated := expand h.heapEnd actualNeededBytes
  let oldHeapEnd := h.heapEnd
  let h := { h with heapEnd := u64 (h.heapEnd + allocated) }
  if allocated < actualNeededBytes then .ok (false, h)
  else do
    let r ← lliInsertAfter h.mem h.tail oldHeapEnd h.tail
    .ok (true, { h with mem := r.1, tail := r.2 })

/-- `while(lli_try_merge_after(cursor, &allocator.tail)) {}`. -/
def mergeLoop (cursor : Nat) : Nat → Heap → Except Halt Heap
  | 0, _ => .error .endless
  | rounds + 1, h => do
    let r ← lliTryMergeAfter h.mem cursor h.tail
    let h := { h with mem := r.2.1, tail := r.2.2 }
    if r.1 then mergeLoop cursor rounds h else .ok h

/-- The search from `cursor` on: the region found, and the heap afterwards. -/
def findLoop (size : Nat) : Nat → Heap → Nat → Except Halt (Option Nat × Heap)
  | 0, _, _ => .error .endless
  | rounds + 1, h, cursor =>
    if cursor = 0 then .ok (none, h)
    else do
      let h ← mergeLoop cursor (h.heapEnd + 1) h
      let regionSize ← lliRegionSize h.mem cursor h.heapEnd
      let free ← lliIsFree h.mem cursor
      if size ≤ regionSize ∧ free = true then .ok (some cursor, h)
      else findLoop size rounds h (next h.mem cursor)

/-- The size of the last region, if it is free. -/
def lastSize (h : Heap) : Except Halt Nat := do
  let free ← lliIsFree h.mem h.tail
  if free then lliRegionSize h.mem h.tail h.heapEnd else .ok 0

/-- Expanding the heap once no region fits. -/
def makeFree (h : Heap) (size : Nat) (expand : Expand) : Except Halt (Nat × Heap) := do
  let oldLastItemPtr := h.tail
  let last ← lastSize h
  let remainingToRequest := u64 (size + 2 ^ 64 - last)
  let e ← expandHeap h remainingToRequest expand
  if e.1 = false then .ok (0, e.2)
  else do
    let r ← lliTryMergeAfter e.2.mem oldLastItemPtr e.2.tail
    let h := { e.2 with mem := r.2.1, tail := r.2.2 }
    ensure (isFree h.mem h.tail = true) .hcf
    let regionSize ← lliRegionSize h.mem h.tail h.heapEnd
    ensure (size ≤ regionSize) .hcf
    .ok (h.tail, h)

def findOrMakeFree (h : Heap) (size : Nat) (expand : Expand) : Except Halt (Nat × Heap) := do
  let r ← findLoop size (h.heapEnd + 1) h h.head
  match r.1 with
  | some cursor => .ok (cursor, r.2)
  | none => makeFree r.2 size expand

def initMemoryAllocator (mem : Mem) (heapStart : Nat) (expand : Expand) : Except Halt Heap := do
  let allocatedInitialMemory := expand heapStart 16
  let heapEnd := u64 (heapStart + allocatedInitialMemory)
  ensure (16 ≤ allocatedInitialMemory) .hcf
  .ok { mem := lliNew mem 0 heapStart, head := heapStart, tail := heapStart, heapEnd := heapEnd }

/-- The rest of `malloc` once a region is found: mark it, split off what is left. -/
def reserve (h : Heap) (size reservedMetadataPtr : Nat) : Except Halt (Nat × Heap) := do
  let mem ← lliMarkAs h.mem reservedMetadataPtr false
  let reservedSize ← lliRegionSize mem reservedMetadataPtr h.heapEnd
  let reservedData ← lliRegionStart mem reservedMetadataPtr
  if u64 (size + 16) ≤ reservedSize then do
    let r ← lliInsertAfter mem reservedMetadataPtr (u64 (reservedData + size)) h.tail
    .ok (reservedData, { h with mem := r.1, tail := r.2 })
  else .ok (reservedData, { h with mem := mem })

/-- A request in multiples of `MALLOC_ALIGNMENT`. -/
def alignSize (size : Nat) : Nat := u64 (u64 (size + 15) / 16 * 16)

def malloc (h : Heap) (size : Nat) (expand : Expand) : Except Halt (Nat × Heap) :=
  if size = 0 then .ok (0, h)
  else do
    let r ← findOrMakeFree h (alignSize size) expand
    if r.1 = 0 then .ok (0, r.2) else reserve r.2 (alignSize size) r.1

/-- The header in front of a data pointer. -/
def headerOf (ptr : Nat) : Nat := u64 (ptr + 2 ^ 64 - 16)

def free (h : Heap) (ptr : Nat) : Except Halt Heap :=
  if ptr = 0 then .ok h
  else do
    let mem ← lliMarkAs h.mem (headerOf ptr) true
    .ok { h with mem := mem }

def realloc (h : Heap) (ptr size : Nat) (expand : Expand) : Except Halt (Nat × Heap) := do
  let r ← malloc h size expand
  if ptr = 0 ∨ r.1 = 0 then .ok r
  else do
    let currSize ← lliRegionSize r.2.mem (headerOf ptr) r.2.heapEnd
    let smallest := if currSize > size then size else currSize
    let h := { r.2 with mem := r.2.mem.write r.1 (r.2.mem.read ptr smallest) }
    let h ← free h ptr
    .ok (r.1, h)

end Stuos.Malloc
