import Stuos.Memory.Slab

/-!
# The memory of the machine

The part of `memory_init` that chooses the physical memory: the search through the memory map of
the boot loader, `init_physical_memory` on what it finds, and the places of the kernel heap and of
the mapped devices behind it.

* `searchRegions_eq`: the search stops at the first region that will do, or at the last one.
* `boot_memory_iff`: that is right unless there are regions but none that will do.
-/

namespace Stuos.Phys

open Stuos.Lib

/-- `struct limine_memmap_entry`. -/
structure LimineMemmapEntry where
  base : Nat
  length : Nat
  type : Nat
  deriving DecidableEq, Repr

def limineMemmapUsable : Nat := 0

/-- `BIG_AMOUNT_OF_RAM`. -/
def bigAmountOfRam : Nat := 2 ^ 38

/-- A contiguous memory region of some size. -/
def LimineMemmapEntry.WillDo (e : LimineMemmapEntry) : Prop :=
  1000000000 ≤ e.length ∧ e.type = limineMemmapUsable

instance (e : LimineMemmapEntry) : Decidable e.WillDo := inferInstanceAs (Decidable (_ ∧ _))

/-- The loop over the memory map; `result` is `NULL` at first. -/
def searchRegions (result : Option LimineMemmapEntry) :
    List LimineMemmapEntry → Option LimineMemmapEntry
  | [] => result
  | e :: entries => if e.WillDo then some e else searchRegions (some e) entries

/-- The region that is passed to `init_physical_memory`. -/
def bootRegion (entries : List LimineMemmapEntry) : Except SlabHalt LimineMemmapEntry :=
  orHalt .hcf (searchRegions none entries)

/-- `memory_init`, as far as it is about physical memory. -/
structure Boot where
  slab : Slab
  kheapStart : Nat
  mmioStart : Nat

def memoryInit (entries : List LimineMemmapEntry) (hhdmOffset : Nat) (memory : Nat → Bool) :
    Except SlabHalt Boot := do
  let result ← bootRegion entries
  let baseVirtHhdm := u64 (result.base + hhdmOffset)
  let slab ← initPhysicalMemory result.base result.length memory
  let kheapStart := u64 (baseVirtHhdm + bigAmountOfRam)
  let mmioStart := u64 (kheapStart + bigAmountOfRam)
  -- not into kernel instruction space
  ensure (u64 (mmioStart + bigAmountOfRam) < 0xffffffff80000000) .hcf
  .ok ⟨slab, kheapStart, mmioStart⟩

/-- The first region that will do. -/
def FirstThatWillDo (entries : List LimineMemmapEntry) (e : LimineMemmapEntry) : Prop :=
  e.WillDo ∧ ∃ pre post, entries = pre ++ e :: post ∧ ∀ x ∈ pre, ¬ x.WillDo

variable {entries : List LimineMemmapEntry} {result : Option LimineMemmapEntry}
  {e : LimineMemmapEntry}

/-- **The search**: the first region that will do, or the one it looked at last. -/
theorem searchRegions_eq (result : Option LimineMemmapEntry) (entries : List LimineMemmapEntry) :
    searchRegions result entries =
      ((entries.find? fun e => e.WillDo).or entries.getLast?).or result := by
  induction entries generalizing result with
  | nil => rfl
  | cons e entries ih =>
    rw [searchRegions, List.find?_cons]
    split
    · rename_i hdo
      rw [decide_eq_true hdo]
      rfl
    · rename_i hdo
      rw [decide_eq_false hdo, ih]
      cases entries with
      | nil => rfl
      | cons x entries => simp [List.getLast?_cons]

theorem firstThatWillDo_iff :
    FirstThatWillDo entries e ↔ (entries.find? fun e => e.WillDo) = some e := by
  rw [List.find?_eq_some_iff_append]
  simp only [FirstThatWillDo, decide_eq_true_eq, decide_eq_false_iff_not, Bool.not_eq_true']

/-- **When the region is chosen right**: if there is one that will do, or no region at all. -/
theorem boot_memory_iff (entries : List LimineMemmapEntry) :
    ((∀ e, FirstThatWillDo entries e → bootRegion entries = .ok e) ∧
      ((∀ e ∈ entries, ¬ e.WillDo) → ∃ halt, bootRegion entries = .error halt)) ↔
    entries = [] ∨ ∃ e ∈ entries, e.WillDo := by
  have hfirst : ∀ e, FirstThatWillDo entries e → bootRegion entries = .ok e := by
    intro e he
    rw [bootRegion, searchRegions_eq, firstThatWillDo_iff.mp he]
    rfl
  constructor
  · rintro ⟨-, hnone⟩
    by_contra hcon
    rw [not_or] at hcon
    obtain ⟨hne, hnot⟩ := hcon
    have hall : ∀ e ∈ entries, ¬ e.WillDo := fun e he hdo => hnot ⟨e, he, hdo⟩
    -- the last region is taken
    have hfind : (entries.find? fun e => e.WillDo) = none := by
      rw [List.find?_eq_none]
      intro e he
      simpa using hall e he
    obtain ⟨halt, hhalt⟩ := hnone hall
    rw [bootRegion, searchRegions_eq, hfind, List.getLast?_eq_some_getLast hne] at hhalt
    cases hhalt
  · intro hcond
    refine ⟨hfirst, fun hall => ?_⟩
    rcases hcond with rfl | ⟨e, he, hdo⟩
    · exact ⟨_, rfl⟩
    · exact absurd hdo (hall e he)

/-- **What is managed** is the region that was chosen. -/
theorem memoryInit_region {hhdmOffset : Nat} {memory : Nat → Bool} {boot : Boot}
    (h : memoryInit entries hhdmOffset memory = .ok boot) :
    ∃ e, bootRegion entries = .ok e ∧
      initPhysicalMemory e.base e.length memory = .ok boot.slab := by
  simp only [memoryInit, bind_eq_ok, Except.ok.injEq] at h
  obtain ⟨e, he, slab, hslab, -, -, rfl⟩ := h
  exact ⟨e, he, hslab⟩

/-- A small region, and a large one that is reserved. -/
def reservedMap : List LimineMemmapEntry :=
  [⟨0x1000, 0x9E000, limineMemmapUsable⟩, ⟨0x40000000, 0x40000000, 1⟩]

/-- **Reserved memory is handed out.** -/
theorem boot_reserved_memory :
    (∀ e ∈ reservedMap, ¬ e.WillDo) ∧ bootRegion reservedMap = .ok ⟨0x40000000, 0x40000000, 1⟩ ∧
      (memoryInit reservedMap 0xFFFF800000000000 fun _ => false).isOk = true := by
  refine ⟨?_, ?_, ?_⟩
  · decide
  · decide
  · decide

end Stuos.Phys
