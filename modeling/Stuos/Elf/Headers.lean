import Stuos.Elf.Regions
import Stuos.Lib.Bytes

/-!
# The headers of an executable

`instantiate_ELF` up to its loop over the program headers.  An executable is given by what
`read_file` does for it; fields of 64 bits are machine words, so that their sums and differences
wrap as they do in the source.
-/

namespace Stuos.Elf

open Stuos.Lib Stuos.Memory

/-- What a call of `read_file` does: the bytes that it puts into the buffer, from its start on, and
the number it returns, if it does not halt. -/
structure FileRead where
  stored : List UInt8
  returned : Option Nat

/-- `exe.read_file`, by offset and number of bytes. -/
abbrev Exe := Nat → Nat → FileRead

/-- The buffer, as far as it was filled. -/
def FileRead.buffer (r : FileRead) : Mem := fun i => r.stored.getD i 0

/-- The fields of `struct ElfFile` that are looked at. -/
structure ElfFile where
  fileHeader : List UInt8
  bitSizeFlag : Nat
  endianness : Nat
  headerVersion : Nat
  osAbi : Nat
  type : Nat
  instructionSet : Nat
  elfVersion : Nat
  entryOffset : UInt64
  programHeaderTableOffset : UInt64
  headerSize : Nat
  programHeaderTableEntrySize : Nat
  programHeaderTableNumEntries : Nat

def ElfFile.ofBytes (m : Mem) : ElfFile where
  fileHeader := m.read 0 4
  bitSizeFlag := leVal (m.read 4 1)
  endianness := leVal (m.read 5 1)
  headerVersion := leVal (m.read 6 1)
  osAbi := leVal (m.read 7 1)
  type := leVal (m.read 16 2)
  instructionSet := leVal (m.read 18 2)
  elfVersion := leVal (m.read 20 4)
  entryOffset := .ofNat (leVal (m.read 24 8))
  programHeaderTableOffset := .ofNat (leVal (m.read 32 8))
  headerSize := leVal (m.read 52 2)
  programHeaderTableEntrySize := leVal (m.read 54 2)
  programHeaderTableNumEntries := leVal (m.read 56 2)

def sizeofElfFile : Nat := 64

/-- The fields of `struct ElfProgramHeader` that are looked at. -/
structure ElfProgramHeader where
  segmentType : Nat
  flags : Nat
  pOffset : UInt64
  pVaddr : UInt64
  pFilesz : UInt64
  pMemsz : UInt64
  deriving DecidableEq, Repr

def ElfProgramHeader.ofBytes (m : Mem) (a : Nat) : ElfProgramHeader where
  segmentType := leVal (m.read a 4)
  flags := leVal (m.read (a + 4) 4)
  pOffset := .ofNat (leVal (m.read (a + 8) 8))
  pVaddr := .ofNat (leVal (m.read (a + 16) 8))
  pFilesz := .ofNat (leVal (m.read (a + 32) 8))
  pMemsz := .ofNat (leVal (m.read (a + 40) 8))

def sizeofElfProgramHeader : Nat := 56

/-- The checks of the header. -/
structure ElfFile.Valid (header : ElfFile) : Prop where
  fileHeader : header.fileHeader = [0x7f, 0x45, 0x4c, 0x46]
  bitSizeFlag : header.bitSizeFlag = 2
  endianness : header.endianness = 1
  headerVersion : header.headerVersion = 1
  osAbi : header.osAbi = 0
  type : header.type = 2
  instructionSet : header.instructionSet = 0x3E
  elfVersion : header.elfVersion = 1
  headerSize : header.headerSize = sizeofElfFile
  programHeaderTableEntrySize : header.programHeaderTableEntrySize = sizeofElfProgramHeader

instance (header : ElfFile) : Decidable header.Valid :=
  decidable_of_iff (header.fileHeader = [0x7f, 0x45, 0x4c, 0x46] ∧ header.bitSizeFlag = 2 ∧
      header.endianness = 1 ∧ header.headerVersion = 1 ∧ header.osAbi = 0 ∧ header.type = 2 ∧
      header.instructionSet = 0x3E ∧ header.elfVersion = 1 ∧ header.headerSize = sizeofElfFile ∧
      header.programHeaderTableEntrySize = sizeofElfProgramHeader)
    ⟨fun ⟨a, b, c, d, e, f, g, h, i, j⟩ => ⟨a, b, c, d, e, f, g, h, i, j⟩,
      fun ⟨a, b, c, d, e, f, g, h, i, j⟩ => ⟨a, b, c, d, e, f, g, h, i, j⟩⟩

/-- The header, read and checked. -/
def readHeader (exe : Exe) : Except Halt ElfFile := do
  let read := exe 0 sizeofElfFile
  ensure (read.returned = some sizeofElfFile) .hcf
  let header := ElfFile.ofBytes read.buffer
  ensure header.Valid .hcf
  .ok header

/-- The program headers. -/
def readProgramHeaders (exe : Exe) (header : ElfFile) : Except Halt (List ElfProgramHeader) := do
  let headersNumBytes := header.programHeaderTableNumEntries * header.programHeaderTableEntrySize
  let read := exe header.programHeaderTableOffset.toNat headersNumBytes
  ensure (read.returned = some headersNumBytes) .hcf
  .ok ((List.range header.programHeaderTableNumEntries).map fun i =>
    .ofBytes read.buffer (sizeofElfProgramHeader * i))

/-- The asserts on a program header of type 6. -/
def ElfProgramHeader.DescribesTable (h : ElfProgramHeader) (header : ElfFile) : Prop :=
  h.flags = 4 ∧ h.pOffset = header.programHeaderTableOffset ∧
    h.pFilesz.toNat = sizeofElfProgramHeader * header.programHeaderTableNumEntries ∧
    h.pMemsz = h.pFilesz

instance (h : ElfProgramHeader) (header : ElfFile) : Decidable (h.DescribesTable header) :=
  inferInstanceAs (Decidable (_ ∧ _ ∧ _ ∧ _))

/-- The type of a program header, as the `switch` tells them apart. -/
inductive SegmentKind
  /-- 6, which falls through to the next -/
  | programHeaders
  | load
  | interpreter
  /-- the two types of GNU -/
  | ignored
  | unknown
  deriving DecidableEq, Repr

def ElfProgramHeader.kind (h : ElfProgramHeader) : SegmentKind :=
  if h.segmentType = 6 then .programHeaders
  else if h.segmentType = 1 then .load
  else if h.segmentType = 3 then .interpreter
  else if h.segmentType = 1685382482 ∨ h.segmentType = 1685382481 then .ignored
  else .unknown

/-- The page containing `p_vaddr`. -/
def ElfProgramHeader.pageAllocStart (h : ElfProgramHeader) : Nat := alignDown h.pVaddr.toNat

/-- The first page behind the segment. -/
def ElfProgramHeader.pageAllocEnd (h : ElfProgramHeader) : Nat :=
  alignDown (h.pVaddr + h.pMemsz + 4095).toNat

/-- The file's part is no longer than the segment, and the segment ends below `2 ^ 64`. -/
def ElfProgramHeader.InBounds (h : ElfProgramHeader) : Prop :=
  h.pFilesz ≤ h.pMemsz ∧ h.pVaddr.toNat + h.pMemsz.toNat + 4095 < 2 ^ 64

/-- The start of the list of regions: the lower half without its first page. -/
def initialRegions : List VirtualMemoryRegion := [⟨true, pageSize, 0x00007FFFFFFFFFFF⟩]

theorem laid_initialRegions : Laid 0x00007FFFFFFFFFFF pageSize initialRegions :=
  .last (Nat.dvd_refl _) (by decide)

/-! ### The pages of a segment -/

theorem alignDown_dvd (x : Nat) : pageSize ∣ alignDown x := Nat.dvd_mul_left _ _

theorem alignDown_le (x : Nat) : alignDown x ≤ x := Nat.div_mul_le_self x _

theorem ElfProgramHeader.pageAllocStart_eq (h : ElfProgramHeader) :
    h.pageAllocStart = h.pVaddr.toNat / 4096 * 4096 := rfl

theorem ElfProgramHeader.pageAllocEnd_eq {h : ElfProgramHeader}
    (hw : h.pVaddr.toNat + h.pMemsz.toNat + 4095 < 2 ^ 64) :
    h.pageAllocEnd = (h.pVaddr.toNat + h.pMemsz.toNat + 4095) / 4096 * 4096 := by
  have h1 : (h.pVaddr + h.pMemsz).toNat = h.pVaddr.toNat + h.pMemsz.toNat := by
    rw [UInt64.toNat_add, Nat.mod_eq_of_lt (by omega)]
  have h2 : (h.pVaddr + h.pMemsz + 4095).toNat = h.pVaddr.toNat + h.pMemsz.toNat + 4095 := by
    rw [UInt64.toNat_add, h1]
    exact Nat.mod_eq_of_lt hw
  rw [pageAllocEnd, h2]
  rfl

namespace ElfProgramHeader

variable {h : ElfProgramHeader}

theorem InBounds.size_le (hb : h.InBounds) : h.pFilesz.toNat ≤ h.pMemsz.toNat :=
  UInt64.le_iff_toNat_le.mp hb.1

theorem InBounds.pages (hb : h.InBounds) :
    h.pageAllocStart ≤ h.pVaddr.toNat ∧
      h.pVaddr.toNat + h.pMemsz.toNat ≤ h.pageAllocEnd ∧ h.pageAllocStart ≤ h.pageAllocEnd := by
  rw [pageAllocEnd_eq hb.2, pageAllocStart_eq]
  omega

theorem InBounds.toNat_add (hb : h.InBounds) :
    (h.pVaddr + h.pFilesz).toNat = h.pVaddr.toNat + h.pFilesz.toNat := by
  have hsize := hb.size_le
  have hw := hb.2
  rw [UInt64.toNat_add, Nat.mod_eq_of_lt (by omega)]

theorem InBounds.toNat_sub (hb : h.InBounds) :
    (h.pMemsz - h.pFilesz).toNat = h.pMemsz.toNat - h.pFilesz.toNat :=
  UInt64.toNat_sub_of_le _ _ hb.1

end ElfProgramHeader

theorem mem_pageRange {s e p : Nat} :
    p ∈ pageRange s e ↔ ∃ i < (e - s) / pageSize, s + pageSize * i = p := by
  simp [pageRange]

theorem pageRange_lt {s e p : Nat} (hs : pageSize ∣ s) (he : pageSize ∣ e)
    (hp : p ∈ pageRange s e) : s ≤ p ∧ p + pageSize ≤ e ∧ p % pageSize = 0 := by
  obtain ⟨i, hi, rfl⟩ := mem_pageRange.mp hp
  obtain ⟨k, rfl⟩ := hs
  obtain ⟨j, rfl⟩ := he
  rw [← Nat.mul_sub, Nat.mul_div_cancel_left _ (show 0 < pageSize by decide)] at hi
  rw [← Nat.mul_add, Nat.mul_mod_right]
  unfold pageSize
  omega

theorem exists_mem_pageRange_iff {s e a : Nat} (hs : pageSize ∣ s) (he : pageSize ∣ e) :
    (∃ p ∈ pageRange s e, p ≤ a ∧ a < p + pageSize) ↔ s ≤ a ∧ a < e := by
  constructor
  · rintro ⟨p, hp, h1, h2⟩
    have := pageRange_lt hs he hp
    omega
  · rintro ⟨h1, h2⟩
    obtain ⟨i, rfl⟩ := hs
    obtain ⟨j, rfl⟩ := he
    have hi : i ≤ a / 4096 := by
      rw [Nat.le_div_iff_mul_le (by decide)]
      unfold pageSize at h1
      omega
    have hj : a / 4096 < j := by
      rw [Nat.div_lt_iff_lt_mul (by decide)]
      unfold pageSize at h2
      omega
    refine ⟨pageSize * i + pageSize * (a / 4096 - i), mem_pageRange.mpr ⟨_, ?_, rfl⟩, ?_, ?_⟩
    · rw [← Nat.mul_sub, Nat.mul_div_cancel_left _ (by decide)]
      omega
    · rw [← Nat.mul_add]
      unfold pageSize
      omega
    · rw [← Nat.mul_add]
      unfold pageSize
      omega

/-! ### Executables -/

/-- An executable with these bytes. -/
def exeOf (file : List UInt8) : Exe := fun offset numBytes =>
  ⟨(file.drop offset).take numBytes, some ((file.drop offset).take numBytes).length⟩

def ElfProgramHeader.bytes (h : ElfProgramHeader) : List UInt8 :=
  leBytes 4 h.segmentType ++ leBytes 4 h.flags ++ leBytes 8 h.pOffset.toNat ++
    leBytes 8 h.pVaddr.toNat ++ leBytes 8 0 ++ leBytes 8 h.pFilesz.toNat ++
    leBytes 8 h.pMemsz.toNat ++ leBytes 8 4096

/-- A header, the program headers behind it, and the bytes behind those. -/
def elfBytes (headers : List ElfProgramHeader) (rest : List UInt8) : List UInt8 :=
  [0x7f, 0x45, 0x4c, 0x46, 2, 1, 1, 0] ++ List.replicate 8 0 ++ leBytes 2 2 ++ leBytes 2 0x3E ++
    leBytes 4 1 ++ leBytes 8 0x401000 ++ leBytes 8 64 ++ leBytes 8 0 ++ leBytes 4 0 ++
    leBytes 2 64 ++ leBytes 2 56 ++ leBytes 2 headers.length ++ List.replicate 6 0 ++
    headers.flatMap ElfProgramHeader.bytes ++ rest

end Stuos.Elf
