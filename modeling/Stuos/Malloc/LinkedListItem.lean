import Stuos.Lib.Bytes
import Stuos.Lib.Halt
import Stuos.Lib.Tiling

/-!
# List items of the allocator

`linked_list_item.c`: a region of the heap begins with a header, a `struct
LinkedListItem` of 16 bytes, that holds the address of the next header (or 0), whether
the region is free, and a canary.  The
functions work on the bytes of memory; `Header m a next free` says what the header at
`a` holds, and `Linked m z l` that the headers at the addresses of `l` form a list that
ends in `z`.

Each function has one lemma here that says what it returns on a well-formed header and
which bytes it changes; nothing below unfolds them.
-/

namespace Stuos.Malloc

open Stuos.Lib

/-- `HCF`, or a loop of the model that did not come to an end. -/
inductive Halt
  | hcf
  | endless
  deriving DecidableEq, Repr

/-- `LL_CANARY`. -/
def llCanary : Nat := 0xDEADBEEF

/-! ### The fields -/

def next (m : Mem) (self : Nat) : Nat := leVal (m.read self 8)
def isFree (m : Mem) (self : Nat) : Bool := m (self + 8) != 0
def canary (m : Mem) (self : Nat) : Nat := leVal (m.read (self + 12) 4)

def setNext (m : Mem) (self v : Nat) : Mem := m.write self (leBytes 8 v)
def setIsFree (m : Mem) (self : Nat) (v : Bool) : Mem :=
  m.write (self + 8) [if v then 1 else 0]
def setCanary (m : Mem) (self v : Nat) : Mem := m.write (self + 12) (leBytes 4 v)

/-! ### The functions -/

def assertInvariant (m : Mem) (self : Nat) : Except Halt Unit :=
  ensure (canary m self = llCanary) .hcf

def getNext (m : Mem) (self : Nat) : Except Halt Nat := do
  assertInvariant m self
  .ok (next m self)

def lliNew (m : Mem) (next output : Nat) : Mem :=
  setCanary (setIsFree (setNext m output next) output true) output llCanary

def destroy (m : Mem) (self : Nat) : Mem :=
  setNext (setCanary m self 0xABABABAB) self 0xCAFECAFECAFECAFE

def lliIsFree (m : Mem) (self : Nat) : Except Halt Bool := do
  assertInvariant m self
  .ok (isFree m self)

def lliMarkAs (m : Mem) (self : Nat) (free : Bool) : Except Halt Mem := do
  assertInvariant m self
  .ok (setIsFree m self free)

def lliRegionStart (m : Mem) (self : Nat) : Except Halt Nat := do
  assertInvariant m self
  .ok (u64 (self + 16))

/-- The difference of the two pointers is an `int64_t`. -/
def lliRegionSize (m : Mem) (self heapEnd : Nat) : Except Halt Nat := do
  assertInvariant m self
  let regionStartPtr ← lliRegionStart m self
  let regionEndPtr := if next m self = 0 then heapEnd else next m self
  let regionSizeBytes := u64 (regionEndPtr + 2 ^ 64 - regionStartPtr)
  ensure (regionSizeBytes < 2 ^ 63) .hcf
  .ok regionSizeBytes

/-- The memory and the last item afterwards. -/
def lliInsertAfter (m : Mem) (self toInsertAddr lastItem : Nat) : Except Halt (Mem × Nat) := do
  let afterAddr ← getNext m self
  ensure (toInsertAddr ≠ 0) .hcf
  let start ← lliRegionStart m self
  ensure (start ≤ toInsertAddr) .hcf
  let m := lliNew (setNext m self toInsertAddr) afterAddr toInsertAddr
  if afterAddr = 0 then .ok (m, toInsertAddr)
  else do
    let start ← lliRegionStart m toInsertAddr
    ensure (start ≤ afterAddr) .hcf
    .ok (m, lastItem)

/-- Whether a merge was made, the memory and the last item afterwards. -/
def lliTryMergeAfter (m : Mem) (self lastItem : Nat) : Except Halt (Bool × Mem × Nat) := do
  let toDestroy ← getNext m self
  if toDestroy = 0 then .ok (false, m, lastItem)
  else if isFree m self = false ∨ isFree m toDestroy = false then .ok (false, m, lastItem)
  else do
    let afterRemovedAddr ← getNext m toDestroy
    let m := setNext m self afterRemovedAddr
    let lastItem := if toDestroy = lastItem then self else lastItem
    .ok (true, destroy m toDestroy, lastItem)

/-! ### Headers -/

/-- What the header at `a` holds. -/
structure Header (m : Mem) (a nextAddr : Nat) (free : Bool) : Prop where
  next : next m a = nextAddr
  free : isFree m a = free
  canary : canary m a = llCanary

theorem Header.frame {m m' : Mem} {a nextAddr : Nat} {free : Bool} (h : Header m a nextAddr free)
    (hm : ∀ i, a ≤ i → i < a + 16 → m' i = m i) : Header m' a nextAddr free where
  next := by
    rw [← h.next, Malloc.next, Malloc.next, Mem.read_congr]
    exact fun i h1 h2 => hm i h1 (by omega)
  free := by
    rw [← h.free, isFree, isFree, hm (a + 8) (by omega) (by omega)]
  canary := by
    rw [← h.canary, Malloc.canary, Malloc.canary, Mem.read_congr]
    exact fun i h1 h2 => hm i (by omega) (by omega)

/-- The two memories agree except on the header at `a`. -/
def SameBut (a : Nat) (m m' : Mem) : Prop := ∀ i, i < a ∨ a + 16 ≤ i → m' i = m i

theorem SameBut.trans {a : Nat} {m m' m'' : Mem} (h : SameBut a m m') (h' : SameBut a m' m'') :
    SameBut a m m'' :=
  fun i hi => (h' i hi).trans (h i hi)

theorem sameBut_setNext (m : Mem) (a v : Nat) : SameBut a m (setNext m a v) := by
  intro i hi
  rcases hi with hi | hi
  · exact Mem.write_of_lt m _ hi
  · exact Mem.write_of_ge m _ (by rw [leBytes_length]; omega)

theorem sameBut_setIsFree (m : Mem) (a : Nat) (v : Bool) : SameBut a m (setIsFree m a v) := by
  intro i hi
  rcases hi with hi | hi
  · exact Mem.write_of_lt m _ (by omega)
  · exact Mem.write_of_ge m _ (by simp only [List.length_singleton]; omega)

theorem sameBut_setCanary (m : Mem) (a v : Nat) : SameBut a m (setCanary m a v) := by
  intro i hi
  rcases hi with hi | hi
  · exact Mem.write_of_lt m _ (by omega)
  · exact Mem.write_of_ge m _ (by rw [leBytes_length]; omega)

theorem header_setNext {m : Mem} {a nextAddr : Nat} {free : Bool} (h : Header m a nextAddr free)
    {v : Nat} (hv : v < 2 ^ 64) : Header (setNext m a v) a v free where
  next := by
    rw [Malloc.next, setNext]
    have hr := Mem.read_write_self m a (leBytes 8 v)
    rw [leBytes_length] at hr
    rw [hr, leVal_leBytes 8 v (by omega)]
  free := by
    rw [← h.free, isFree, isFree, setNext,
      Mem.write_of_ge m _ (by have := leBytes_length 8 v; omega)]
  canary := by
    rw [← h.canary, Malloc.canary, Malloc.canary, setNext,
      Mem.read_write_of_disjoint m _ (by rw [leBytes_length]; omega)]

theorem header_setIsFree {m : Mem} {a nextAddr : Nat} {free : Bool}
    (h : Header m a nextAddr free) (v : Bool) : Header (setIsFree m a v) a nextAddr v where
  next := by
    rw [← h.next, Malloc.next, Malloc.next, setIsFree,
      Mem.read_write_of_disjoint m _ (by omega)]
  free := by
    rw [isFree, setIsFree, Mem.write_of_mem m _ (by omega) (by simp)]
    cases v <;> simp
  canary := by
    rw [← h.canary, Malloc.canary, Malloc.canary, setIsFree,
      Mem.read_write_of_disjoint m _ (by simp only [List.length_singleton]; omega)]

theorem header_lliNew (m : Mem) {nextAddr : Nat} (hv : nextAddr < 2 ^ 64) (a : Nat) :
    Header (lliNew m nextAddr a) a nextAddr true where
  next := by
    rw [Malloc.next, lliNew, setCanary, setIsFree, setNext,
      Mem.read_write_of_disjoint _ _ (by omega), Mem.read_write_of_disjoint _ _ (by omega)]
    have hr := Mem.read_write_self m a (leBytes 8 nextAddr)
    rw [leBytes_length] at hr
    rw [hr, leVal_leBytes 8 nextAddr (by omega)]
  free := by
    rw [isFree, lliNew, setCanary, Mem.write_of_lt _ _ (by omega), setIsFree,
      Mem.write_of_mem _ _ (by omega) (by simp)]
    simp
  canary := by
    rw [Malloc.canary, lliNew, setCanary]
    have hr := Mem.read_write_self (setIsFree (setNext m a nextAddr) a true) (a + 12)
      (leBytes 4 llCanary)
    rw [leBytes_length] at hr
    rw [hr, leVal_leBytes 4 llCanary (by decide)]

theorem sameBut_lliNew (m : Mem) (nextAddr a : Nat) : SameBut a m (lliNew m nextAddr a) :=
  ((sameBut_setNext m a nextAddr).trans (sameBut_setIsFree _ a true)).trans
    (sameBut_setCanary _ a llCanary)

theorem sameBut_destroy (m : Mem) (a : Nat) : SameBut a m (destroy m a) :=
  (sameBut_setCanary m a _).trans (sameBut_setNext _ a _)

theorem Header.sameBut {m m' : Mem} {a b nextAddr : Nat} {free : Bool}
    (h : Header m b nextAddr free) (hm : SameBut a m m')
    (hab : b + 16 ≤ a ∨ a + 16 ≤ b) : Header m' b nextAddr free :=
  h.frame fun i h1 h2 => hm i (by omega)

/-! ### What the functions return -/

section

variable {m : Mem} {a nextAddr : Nat} {free : Bool}

theorem assertInvariant_eq (h : Header m a nextAddr free) : assertInvariant m a = .ok () :=
  ensure_of h.canary _

theorem getNext_eq (h : Header m a nextAddr free) : getNext m a = .ok nextAddr := by
  rw [getNext, assertInvariant_eq h, ok_bind, h.next]

theorem lliIsFree_eq (h : Header m a nextAddr free) : lliIsFree m a = .ok free := by
  rw [lliIsFree, assertInvariant_eq h, ok_bind, h.free]

theorem lliMarkAs_eq (h : Header m a nextAddr free) (v : Bool) :
    lliMarkAs m a v = .ok (setIsFree m a v) := by
  rw [lliMarkAs, assertInvariant_eq h, ok_bind]

theorem lliRegionStart_eq (h : Header m a nextAddr free) (ha : a + 16 < 2 ^ 64) :
    lliRegionStart m a = .ok (a + 16) := by
  rw [lliRegionStart, assertInvariant_eq h, ok_bind, u64_of_lt ha]

/-- The region goes up to the next header, or to the end of the heap. -/
theorem lliRegionSize_eq (h : Header m a nextAddr free) {heapEnd regionEnd : Nat}
    (he : regionEnd = if nextAddr = 0 then heapEnd else nextAddr)
    (hroom : a + 16 ≤ regionEnd) (hlt : regionEnd < 2 ^ 64)
    (hsize : regionEnd - (a + 16) < 2 ^ 63) :
    lliRegionSize m a heapEnd = .ok (regionEnd - (a + 16)) := by
  have hdiff := u64_sub hroom hlt
  rw [lliRegionSize, assertInvariant_eq h, ok_bind, lliRegionStart_eq h (by omega), ok_bind]
  simp only [h.next, ← he, hdiff]
  rw [ensure_of hsize, ok_bind]

end

end Stuos.Malloc
