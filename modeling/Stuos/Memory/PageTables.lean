import Mathlib.Data.List.FinRange
import Mathlib.Logic.Function.Basic
import Stuos.Lib.Halt

/-!
# Page tables

`memory.c` and the page allocator of `physical_slab_allocation.c`.  Physical memory is a
sequence of frames; physical addresses here are frame numbers (`phys >> 12`), since every
one that occurs is page aligned.  A frame is 512 words of 64 bits, and a word is shown as
the bit-fields of a `struct PageTableEntry`, whether the frame holds a page table or a
page of a process.

A `struct PageTableEntry *` is the frame it points into and its index there.  The loops of
`walk_virtual_tree` below the first one are one function over the level; every entry is
read from memory at the moment the loop gets to it, because the callbacks change memory.
-/

namespace Stuos.Memory

open Stuos.Lib

/-- `PAGE_SIZE`. -/
def pageSize : Nat := 4096

/-- `struct PageTableEntry`. -/
structure PageTableEntry where
  present : Bool
  readWrite : Bool
  user : Bool
  pwt : Bool
  pcd : Bool
  accessed : Bool
  dirty : Bool
  huge : Bool
  glob : Bool
  ignored1 : BitVec 3
  addr : BitVec 40
  ignored2 : BitVec 11
  nx : Bool
  deriving DecidableEq

/-- The bit-fields of a word. -/
def PageTableEntry.ofWord (w : BitVec 64) : PageTableEntry where
  present := w.getLsbD 0
  readWrite := w.getLsbD 1
  user := w.getLsbD 2
  pwt := w.getLsbD 3
  pcd := w.getLsbD 4
  accessed := w.getLsbD 5
  dirty := w.getLsbD 6
  huge := w.getLsbD 7
  glob := w.getLsbD 8
  ignored1 := w.extractLsb' 9 3
  addr := w.extractLsb' 12 40
  ignored2 := w.extractLsb' 52 11
  nx := w.getLsbD 63

/-- `PAGE_SIZE` bytes. -/
abbrev Frame := Fin 512 → PageTableEntry

/-- What stops the kernel: an `HCF`, with running out of pages told apart, a write outside
the slab flags, an access to an unmapped page. -/
inductive Halt
  | hcf
  | outOfMemory
  | wildWrite
  | pageFault
  deriving DecidableEq, Repr

structure Machine where
  frames : Nat → Frame
  /-- `slab_flags_base`: whether the page with this index is allocated. -/
  slabFlags : Nat → Bool
  /-- `physical_memory_base`. -/
  base : Nat
  /-- `physical_memory_pages`. -/
  pages : Nat
  cr3 : Nat
  originalKernelPageTable : Nat
  /-- Every frame that `free4k_phys` was called with, oldest first. -/
  freeLog : List Nat

/-- A `struct PageTableEntry *`. -/
structure EntryPtr where
  table : Nat
  index : Fin 512
  deriving DecidableEq

namespace Machine

def entry (m : Machine) (p : EntryPtr) : PageTableEntry := m.frames p.table p.index

def setFrame (m : Machine) (f : Nat) (content : Frame) : Machine :=
  { m with frames := Function.update m.frames f content }

def setEntry (m : Machine) (p : EntryPtr) (e : PageTableEntry) : Machine :=
  m.setFrame p.table (Function.update (m.frames p.table) p.index e)

/-- `set_pml4_phys`. -/
def setPml4Phys (m : Machine) (root : Nat) : Machine := { m with cr3 := root }

end Machine

/-! ### The page allocator -/

def malloc4kPhys (m : Machine) : Except Halt (Nat × Machine) :=
  match (List.range m.pages).find? fun pageNum => !m.slabFlags pageNum with
  | some pageNum =>
    .ok (m.base + pageNum, { m with slabFlags := Function.update m.slabFlags pageNum true })
  | none => .error .outOfMemory

def free4kPhys (m : Machine) (phys : Nat) : Except Halt Machine :=
  if m.base ≤ phys ∧ phys < m.base + m.pages then
    .ok { m with slabFlags := Function.update m.slabFlags (phys - m.base) false
                 freeLog := m.freeLog ++ [phys] }
  else .error .wildWrite

/-! ### Virtual addresses -/

def pageOffset (virt : Nat) : Nat := virt % 2 ^ 12
def ptIndex (virt : Nat) : Fin 512 := Fin.ofNat 512 (virt / 2 ^ 12)
def pdIndex (virt : Nat) : Fin 512 := Fin.ofNat 512 (virt / 2 ^ 21)
def pdptIndex (virt : Nat) : Fin 512 := Fin.ofNat 512 (virt / 2 ^ 30)
def pml4Index (virt : Nat) : Fin 512 := Fin.ofNat 512 (virt / 2 ^ 39)

/-! ### Building a tree -/

/-- `generate_clean_virtual_addressing`.  The loop looks at the first entry 256 times. -/
def generateCleanVirtualAddressing (m : Machine) : Except Halt (Nat × Machine) := do
  let r ← malloc4kPhys m
  let m := r.2.setFrame r.1 (r.2.frames r.2.originalKernelPageTable)
  ensure (∀ _i < 256, (m.entry ⟨r.1, 0⟩).present = false) .hcf
  .ok (r.1, m)

def setupPageTableEntry (m : Machine) (parent : EntryPtr) : Except Halt Machine := do
  ensure ((m.entry parent).present = false) .hcf
  let r ← malloc4kPhys m
  let m := r.2.setFrame r.1 fun i => { r.2.frames r.1 i with present := false, addr := 0 }
  .ok (m.setEntry parent { m.entry parent with
    glob := false
    addr := BitVec.ofNat 40 r.1
    huge := false
    pcd := false
    pwt := true
    user := true
    readWrite := true
    present := true
    nx := false })

/-- `if(!entry->present) setup_page_table_entry(entry)`. -/
def ensureTable (m : Machine) (entry : EntryPtr) : Except Halt Machine :=
  if (m.entry entry).present then .ok m else setupPageTableEntry m entry

/-- The table that an entry points to. -/
def tableBase (m : Machine) (entry : EntryPtr) : Nat := (m.entry entry).addr.toNat

def mapPage (m : Machine) (phys virt : Nat) (canCache canExecute : Bool) :
    Except Halt Machine := do
  ensure (pageOffset virt = 0) .hcf
  let myPml4 : EntryPtr := ⟨m.cr3, pml4Index virt⟩
  let m ← ensureTable m myPml4
  let myPdpt : EntryPtr := ⟨tableBase m myPml4, pdptIndex virt⟩
  let m ← ensureTable m myPdpt
  let myPd : EntryPtr := ⟨tableBase m myPdpt, pdIndex virt⟩
  let m ← ensureTable m myPd
  let myPt : EntryPtr := ⟨tableBase m myPd, ptIndex virt⟩
  ensure ((m.entry myPt).present = false) .hcf
  .ok (m.setEntry myPt { m.entry myPt with
    glob := false
    addr := BitVec.ofNat 40 phys
    huge := false
    pcd := !canCache
    pwt := true
    user := true
    readWrite := true
    present := true
    nx := !canExecute })

def allocateRamPage (m : Machine) (virt : Nat) (canExecute : Bool) : Except Halt Machine := do
  let r ← malloc4kPhys m
  mapPage r.2 r.1 virt true canExecute

/-! ### Walking a tree -/

/-- The two callbacks of `walk_virtual_tree`. -/
structure Callbacks where
  leaf : Machine → Nat → Nat → Bool → Except Halt Machine
  table : Machine → Nat → Except Halt Machine

def getPageTableChild (m : Machine) (parent : EntryPtr) (n : Fin 512) : Except Halt EntryPtr := do
  ensure ((m.entry parent).present = true) .hcf
  .ok ⟨(m.entry parent).addr.toNat, n⟩

/-- The inner loops of `walk_virtual_tree`: the children of an entry of the `pd` (level 0),
the `pdpt` (level 1) or the `pml4` (level 2). -/
def walkChildren (cb : Callbacks) : Nat → EntryPtr → Nat → Machine → Except Halt Machine
  | 0, parent, virt, m =>
    (List.finRange 512).foldlM (fun m n => do
      let pt ← getPageTableChild m parent n
      if (m.entry pt).present then
        cb.leaf m (virt + n.val * 2 ^ 12) (m.entry pt).addr.toNat (!(m.entry pt).nx)
      else .ok m) m
  | level + 1, parent, virt, m =>
    (List.finRange 512).foldlM (fun m n => do
      let child ← getPageTableChild m parent n
      if (m.entry child).present then do
        let m ← walkChildren cb level child (virt + n.val * 2 ^ (12 + 9 * (level + 1))) m
        cb.table m (m.entry child).addr.toNat
      else .ok m) m

/-- The indices of the lower half. -/
def lowerIndices : List (Fin 512) := (List.finRange 512).filter fun i => i.val < 256

def walkVirtualTree (cb : Callbacks) (m : Machine) (root : Nat) : Except Halt Machine := do
  let m ← lowerIndices.foldlM (fun m n =>
    if (m.entry ⟨root, n⟩).present then do
      let m ← walkChildren cb 2 ⟨root, n⟩ (n.val * 2 ^ 39) m
      cb.table m (m.entry ⟨root, n⟩).addr.toNat
    else .ok m) m
  cb.table m root

/-- `leaf_callback_remove_page` and `table_entry_callback_remove_page`. -/
def removeCallbacks : Callbacks where
  leaf m _ phys _ := free4kPhys (m.setFrame phys fun _ => .ofWord 0xEEEEEEEEEEEEEEEE) phys
  table m phys := free4kPhys m phys

def removeVirtualAddressing (m : Machine) : Except Halt Machine :=
  walkVirtualTree removeCallbacks (m.setPml4Phys m.originalKernelPageTable) m.cr3

/-- What the processor finds at an entry. -/
def child (m : Machine) (table : Nat) (index : Fin 512) : Option Nat :=
  if (m.frames table index).present then some (m.frames table index).addr.toNat else none

/-- `memcpy` of a page to a virtual address: the processor finds the frame through `CR3`. -/
def copyPageTo (m : Machine) (virt phys : Nat) : Except Halt Machine := do
  let pdpt ← orHalt .pageFault (child m m.cr3 (pml4Index virt))
  let pd ← orHalt .pageFault (child m pdpt (pdptIndex virt))
  let pt ← orHalt .pageFault (child m pd (pdIndex virt))
  let frame ← orHalt .pageFault (child m pt (ptIndex virt))
  .ok (m.setFrame frame (m.frames phys))

/-- `leaf_callback_clone_page` and `table_entry_callback_do_nothing`. -/
def cloneCallbacks : Callbacks where
  leaf m virt phys canExecute := do
    let m ← allocateRamPage m virt canExecute
    copyPageTo m virt phys
  table m _ := .ok m

def cloneVirtualAddressing (m : Machine) (originalRoot : Nat) : Except Halt (Nat × Machine) := do
  let r ← generateCleanVirtualAddressing m
  let m ← walkVirtualTree cloneCallbacks (r.2.setPml4Phys r.1) originalRoot
  .ok (r.1, m.setPml4Phys originalRoot)

end Stuos.Memory
