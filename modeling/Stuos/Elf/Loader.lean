import Stuos.Elf.Headers
import Stuos.Memory.Stores

/-!
# Loading a program

`instantiate_ELF` on the machine: the segments, the stack, the two blocks of arguments and the place
of the heap, one after the other.  The kernel's own heap, where the list of regions, the program
headers and the strings to be copied are, is not part of the machine.

`Loader.Inv` says that the address space has exactly the allocated regions mapped, and
`Loader.Grows` that it has kept what it had.

* `Loader.allocate_spec`, `Loader.allocate_total`: `allocate_virtual_range`.
* `Loader.store_spec`: a store to what is allocated.
-/

namespace Stuos.Elf

open Stuos.Lib Stuos.Memory

structure Loader where
  machine : Machine
  regions : List VirtualMemoryRegion

namespace Loader

def allocateVirtualRange (l : Loader) (pageStart pageEnd : Nat) (canExecute : Bool) :
    Except Halt Loader := do
  ensure (pageStart % pageSize = 0 ∧ pageEnd % pageSize = 0) .hcf
  let regions ← splitRegion l.regions pageStart pageEnd
  let m ← (pageRange pageStart pageEnd).foldlM (fun m page => allocateRamPage m page canExecute)
    l.machine
  .ok ⟨m, regions⟩

def loadSegment (exe : Exe) (l : Loader) (h : ElfProgramHeader) : Except Halt Loader := do
  let l ← l.allocateVirtualRange h.pageAllocStart h.pageAllocEnd (h.flags % 2 = 1)
  let read := exe h.pOffset.toNat h.pFilesz.toNat
  let m ← storeBytes l.machine h.pVaddr.toNat read.stored
  ensure (read.returned = some h.pFilesz.toNat) .hcf
  let m ← storeBytes m (h.pVaddr + h.pFilesz).toNat
    (List.replicate (h.pMemsz - h.pFilesz).toNat 0)
  .ok ⟨m, l.regions⟩

/-- One turn of the loop over the program headers. -/
def step (exe : Exe) (header : ElfFile) (l : Loader) (h : ElfProgramHeader) : Except Halt Loader :=
  match h.kind with
  | .programHeaders => do
    ensure (h.DescribesTable header) .hcf
    l.loadSegment exe h
  | .load => l.loadSegment exe h
  | .ignored => .ok l
  | .interpreter => .error .hcf
  | .unknown => .error .hcf

end Loader

/-! ### Arguments -/

/-- The bytes that are allocated for a list of arguments, which are given without the zero at their
end. -/
def argsBytes (argv : List (List UInt8)) : Nat :=
  alignDown (u64 (u64 ((argv.map fun arg => 8 + (arg.length + 1)).sum + 8) + 4095))

/-- The loop that puts in the strings and the array: `i` arguments have been put in, and the next
string goes to `currOffset`. -/
def storeArgs (argsDataStart : Nat) : Nat → Nat → List (List UInt8) → Machine → Except Halt Machine
  | _, _, [], m => .ok m
  | i, currOffset, arg :: argv, m => do
    let m ← storeBytes m (u64 (argsDataStart + 8 * i)) (leBytes 8 currOffset)
    let m ← storeBytes m currOffset (arg ++ [0])
    storeArgs argsDataStart (i + 1) (u64 (currOffset + (arg.length + 2))) argv m

/-- `setup_args_for_new_process`: the number of arguments, the array, and what has become of the
address space. -/
def setupArgsForNewProcess (l : Loader) (argv : List (List UInt8)) :
    Except Halt (Nat × Nat × Loader) := do
  let r ← findContiguousVirtualRange l.regions (argsBytes argv)
  let argsDataStart := r.1
  let l ← Loader.allocateVirtualRange ⟨l.machine, r.2⟩ argsDataStart
    (u64 (argsDataStart + argsBytes argv)) false
  let m ← storeArgs argsDataStart 0 (u64 (argsDataStart + (argv.length + 1) * 8)) argv l.machine
  let m ← storeBytes m (u64 (argsDataStart + 8 * argv.length)) (leBytes 8 0)
  .ok (argv.length, argsDataStart, ⟨m, l.regions⟩)

/-! ### The program -/

/-- The registers that a program starts with; all others are 0. -/
structure ProcessorState where
  rip : UInt64
  rbp : Nat
  rsp : Nat
  /-- argc pointer -/
  rsi : Nat
  /-- argv value -/
  rdi : Nat
  /-- envp pointer -/
  rdx : Nat
  cs : Nat := 0x1B
  ss : Nat := 0x23
  rflags : Nat := 0x202

structure LoadedProgram where
  heapStart : Nat
  pageTableRoot : Nat
  initialState : ProcessorState

def stackSize : Nat := 16 * pageSize

/-- `ram_size_bytes`. -/
def ramSizeBytes (m : Machine) : Nat := u64 (m.pages * pageSize)

/-- `instantiate_ELF`. -/
def instantiateElf (m : Machine) (exe : Exe) (argv envp : List (List UInt8)) :
    Except Halt (LoadedProgram × Machine) := do
  let header ← readHeader exe
  let prevCr3 := m.cr3
  let new ← generateCleanVirtualAddressing m
  let newCr3 := new.1
  let headers ← readProgramHeaders exe header
  let l ← headers.foldlM (Loader.step exe header) ⟨new.2.setPml4Phys newCr3, initialRegions⟩
  let stack ← findContiguousVirtualRange l.regions stackSize
  let stackStart := u64 (stack.1 + stackSize)
  let l ← Loader.allocateVirtualRange ⟨l.machine, stack.2⟩ stack.1 stackStart false
  let args ← setupArgsForNewProcess l argv
  let env ← setupArgsForNewProcess args.2.2 envp
  let heap ← findContiguousVirtualRange env.2.2.regions (ramSizeBytes env.2.2.machine)
  let initialState : ProcessorState :=
    { rip := header.entryOffset, rbp := stackStart, rsp := stackStart, rsi := args.2.1
      rdi := args.1, rdx := env.2.1 }
  .ok (⟨heap.1, newCr3, initialState⟩, env.2.2.machine.setPml4Phys prevCr3)

/-! ### The address space -/

variable {live kernel : List Nat} {root s e : Nat} {m₀ : Machine} {l l' l'' : Loader}

namespace Loader

/-- **What is mapped is what is allocated.** -/
structure Inv (live kernel : List Nat) (root : Nat) (m₀ : Machine) (l : Loader) : Prop where
  current : Current live kernel root m₀ l.machine
  laid : Laid 0x00007FFFFFFFFFFF pageSize l.regions
  mapped : ∀ a < 2 ^ 47, byteAt l.machine root a ≠ none ↔ Allocated l.regions a

/-- What was allocated still is, with the same bytes. -/
def Grows (root : Nat) (l l' : Loader) : Prop :=
  ∀ a, Allocated l.regions a →
    Allocated l'.regions a ∧ byteAt l'.machine root a = byteAt l.machine root a

theorem Grows.refl (root : Nat) (l : Loader) : Grows root l l := fun _ ha => ⟨ha, rfl⟩

theorem Grows.trans (h : Grows root l l') (h' : Grows root l' l'') : Grows root l l'' := by
  intro a ha
  obtain ⟨h1, hb1⟩ := h a ha
  obtain ⟨h2, hb2⟩ := h' a h1
  exact ⟨h2, hb2.trans hb1⟩

theorem Inv.lt (h : Inv live kernel root m₀ l) {a : Nat} (ha : Allocated l.regions a) :
    pageSize ≤ a ∧ a < 0x00007FFFFFFFFFFF :=
  h.laid.allocated_bounds ha

/-- `[s, e)` has been added to what is allocated, and was not before. -/
structure Adds (root s e : Nat) (l l' : Loader) : Prop where
  grows : Grows root l l'
  fresh : ∀ a, s ≤ a → a < e → ¬ Allocated l.regions a
  allocated : ∀ a, Allocated l'.regions a ↔ Allocated l.regions a ∨ (s ≤ a ∧ a < e)
  bounds : pageSize ≤ s ∧ e ≤ 0x00007FFFFFFFFFFF

theorem mem_pageRange_iff {a : Nat} (hs : pageSize ∣ s) (he : pageSize ∣ e) :
    (∃ p ∈ pageRange s e, a / 4096 = p / 4096) ↔ s ≤ a ∧ a < e := by
  rw [← exists_mem_pageRange_iff hs he]
  refine exists_congr fun p => and_congr_right fun hp => ?_
  have hoff := (pageRange_lt hs he hp).2.2
  unfold pageSize at *
  omega

theorem pageRange_nodup (s e : Nat) : (pageRange s e).Nodup := by
  refine List.Nodup.map (fun i j hij => ?_) List.nodup_range
  unfold pageSize at hij
  omega

/-- **`allocate_virtual_range`**, when it returns. -/
theorem allocate_spec {canExecute : Bool} (h : Inv live kernel root m₀ l) (hse : s ≤ e)
    (hok : l.allocateVirtualRange s e canExecute = .ok l') :
    Inv live kernel root m₀ l' ∧ Adds root s e l l' := by
  simp only [allocateVirtualRange, bind_eq_ok, ensure_eq_ok, Except.ok.injEq] at hok
  obtain ⟨_, ⟨hs, he⟩, regions, hsplit, m, hfold, rfl⟩ := hok
  have hs := Nat.dvd_of_mod_eq_zero hs
  have he := Nat.dvd_of_mod_eq_zero he
  obtain ⟨hlaid, hlo, hhi, hfresh, hiff⟩ := splitRegion_spec h.laid hse he hsplit
  obtain ⟨hcur, hbytes⟩ := allocatePages_spec h.current (fun p hp => by
    have := pageRange_lt hs he hp
    unfold pageSize at this
    omega) hfold
  refine ⟨⟨hcur, hlaid, fun a ha => ?_⟩, fun a ha => ?_, hfresh, hiff, hlo, hhi⟩
  · rw [(hbytes a ha).2, h.mapped a ha, hiff a]
    exact or_congr_right (mem_pageRange_iff hs he)
  · have hlt : a < 2 ^ 47 := by
      have := (h.lt ha).2
      omega
    exact ⟨(hiff a).mpr (Or.inl ha), (hbytes a hlt).1 ((h.mapped a hlt).mpr ha)⟩

/-- **`allocate_virtual_range`** of a range that the list of regions has room for only fails if
memory runs out. -/
theorem allocate_total {canExecute : Bool} {err : Halt} (h : Inv live kernel root m₀ l)
    (hs : pageSize ∣ s) (he : pageSize ∣ e) (hse : s ≤ e)
    (hsplit : ∃ regions, splitRegion l.regions s e = .ok regions)
    (herr : l.allocateVirtualRange s e canExecute = .error err) : err = .outOfMemory := by
  obtain ⟨regions, hsplit⟩ := hsplit
  rw [allocateVirtualRange, ensure_of ⟨Nat.mod_eq_zero_of_dvd hs, Nat.mod_eq_zero_of_dvd he⟩,
    ok_bind, hsplit, ok_bind] at herr
  obtain ⟨-, -, hhi, hfresh, -⟩ := splitRegion_spec h.laid hse he hsplit
  cases hfold : (pageRange s e).foldlM (fun m page => allocateRamPage m page canExecute)
      l.machine with
  | ok m =>
    rw [hfold] at herr
    cases herr
  | error err' =>
    rw [hfold] at herr
    obtain rfl := Except.error.inj herr
    refine allocatePages_total canExecute h.current (fun p hp => ?_) (pageRange_nodup s e)
      (fun p hp => ?_) hfold
    · obtain ⟨-, hlt, hoff⟩ := pageRange_lt hs he hp
      exact ⟨by omega, hoff⟩
    · obtain ⟨hge, hlt, -⟩ := pageRange_lt hs he hp
      by_contra hne
      exact hfresh p hge (by unfold pageSize at hlt; omega) ((h.mapped p (by omega)).mp hne)

/-- **A store to what is allocated** changes the bytes stored to and no others. -/
theorem store_spec (bytes : List UInt8) {a : Nat} (h : Inv live kernel root m₀ l)
    (hin : ∀ x, a ≤ x → x < a + bytes.length → Allocated l.regions x)
    (ha : a + bytes.length ≤ 2 ^ 47) :
    ∃ m, storeBytes l.machine a bytes = .ok m ∧ Inv live kernel root m₀ ⟨m, l.regions⟩ ∧
      ∀ x < 2 ^ 47, byteAt m root x =
        if a ≤ x ∧ x < a + bytes.length then bytes[x - a]? else byteAt l.machine root x := by
  have hmapped : ∀ x, a ≤ x → x < a + bytes.length → byteAt l.machine root x ≠ none :=
    fun x hge hlt => (h.mapped x (by omega)).mpr (hin x hge hlt)
  obtain ⟨m, he, hcur, hbytes⟩ := storeBytes_spec bytes h.current ha hmapped
  refine ⟨m, he, ⟨hcur, h.laid, fun x hx => ?_⟩, hbytes⟩
  rw [← h.mapped x hx]
  dsimp only
  rw [hbytes x hx]
  split
  · rename_i hrange
    have hsome : bytes[x - a]? ≠ none := by
      rw [ne_eq, List.getElem?_eq_none_iff]
      omega
    exact iff_of_true hsome (hmapped x hrange.1 hrange.2)
  · rfl

end Loader

end Stuos.Elf
