import Mathlib.Data.List.Induction
import Stuos.Elf.Headers

/-!
# What the loader writes

The loop over the program headers in `instantiate_ELF`, with a record of the pages that it maps
and of the addresses that it stores to, segment by segment.  A range with `p_memsz < p_filesz`, or
one that wraps around the address space, is not refused: the end of its pages then comes out below
its start, or its zeroing goes once around memory.

* `elf_writes_confined_iff`: everything is written to pages that were mapped for the segment if and
  only if every load segment that is accepted ends in its pages.
* `ElfProgramHeader.sound_iff`: where the file has all the bytes of a segment, it does so if it is in
  bounds, or empty.
* `elf_writes_to_kernel`: a header with which the loader writes to the upper half.
-/

namespace Stuos.Elf

open Stuos.Lib Stuos.Memory

/-- The pages that were mapped for a segment, and what was stored for it: a first address and a
number of bytes. -/
structure SegmentTrace where
  pages : List Nat
  writes : List (Nat × Nat)
  deriving DecidableEq

/-- The list of regions, and how many of the following calls of `allocate_ram_page` are going to
return. -/
structure Tracker where
  regions : List VirtualMemoryRegion
  ram : Nat

/-- `allocate_virtual_range`: the pages it has mapped, and whether it returned. -/
def allocateVirtualRange (t : Tracker) (pageStart pageEnd : Nat) :
    List Nat × Except Halt Tracker :=
  if pageStart % pageSize ≠ 0 ∨ pageEnd % pageSize ≠ 0 then ([], .error .hcf)
  else
    match splitRegion t.regions pageStart pageEnd with
    | .error e => ([], .error e)
    | .ok regions =>
      let pages := pageRange pageStart pageEnd
      if pages.length ≤ t.ram then (pages, .ok ⟨regions, t.ram - pages.length⟩)
      else (pages.take t.ram, .error .outOfMemory)

/-- A load segment. -/
def loadSegment (exe : Exe) (t : Tracker) (h : ElfProgramHeader) :
    SegmentTrace × Except Halt Tracker :=
  let r := allocateVirtualRange t h.pageAllocStart h.pageAllocEnd
  match r.2 with
  | .error e => (⟨r.1, []⟩, .error e)
  | .ok t =>
    let read := exe h.pOffset.toNat h.pFilesz.toNat
    let copied := (h.pVaddr.toNat, read.stored.length)
    if read.returned = some h.pFilesz.toNat then
      (⟨r.1, [copied, ((h.pVaddr + h.pFilesz).toNat, (h.pMemsz - h.pFilesz).toNat)]⟩, .ok t)
    else (⟨r.1, [copied]⟩, .error .hcf)

/-- What has been done, and whether the loop goes on. -/
structure Run where
  traces : List SegmentTrace
  tracker : Except Halt Tracker

/-- One turn of the loop. -/
def Run.step (exe : Exe) (header : ElfFile) (run : Run) (h : ElfProgramHeader) : Run :=
  match run.tracker with
  | .error _ => run
  | .ok t =>
    let load := loadSegment exe t h
    match h.kind with
    | .programHeaders =>
      if h.DescribesTable header then ⟨run.traces ++ [load.1], load.2⟩
      else ⟨run.traces, .error .hcf⟩
    | .load => ⟨run.traces ++ [load.1], load.2⟩
    | .ignored => run
    | .interpreter => ⟨run.traces, .error .hcf⟩
    | .unknown => ⟨run.traces, .error .hcf⟩

/-- The loop, with `ram` pages that can be had. -/
def loadSegments (exe : Exe) (header : ElfFile) (ram : Nat) (headers : List ElfProgramHeader) :
    Run :=
  headers.foldl (Run.step exe header) ⟨[], .ok ⟨initialRegions, ram⟩⟩

/-- All that `instantiate_ELF` does for the segments of an executable. -/
def segmentTraces (exe : Exe) (ram : Nat) : List SegmentTrace :=
  match readHeader exe with
  | .error _ => []
  | .ok header =>
    match readProgramHeaders exe header with
    | .error _ => []
    | .ok headers => (loadSegments exe header ram headers).traces

/-! ### Confinement -/

/-- The address is stored to. -/
def SegmentTrace.Written (t : SegmentTrace) (a : Nat) : Prop :=
  ∃ w ∈ t.writes, ∃ i < w.2, a = u64 (w.1 + i)

/-- Everything is written to lower-half pages that were mapped for the segment. -/
def SegmentTrace.Confined (t : SegmentTrace) : Prop :=
  ∀ a, t.Written a → a < 2 ^ 47 ∧ ∃ p ∈ t.pages, p ≤ a ∧ a < p + pageSize

namespace ElfProgramHeader

variable (h : ElfProgramHeader)

/-- A header that gets to the load of a segment. -/
def IsLoad : Prop := h.kind = .load ∨ h.kind = .programHeaders

/-- The file has all bytes of the segment. -/
def FullRead (exe : Exe) : Prop :=
  (exe h.pOffset.toNat h.pFilesz.toNat).stored.length = h.pFilesz.toNat ∧
    (exe h.pOffset.toNat h.pFilesz.toNat).returned = some h.pFilesz.toNat

/-- What is stored of the file ends before the end of the pages and of the lower half, and if it is
all that was asked for, the zeros are behind the start of the pages and end there as well. -/
structure Sound (exe : Exe) : Prop where
  copied : (exe h.pOffset.toNat h.pFilesz.toNat).stored.length = 0 ∨
    h.pVaddr.toNat + (exe h.pOffset.toNat h.pFilesz.toNat).stored.length ≤
      min h.pageAllocEnd (2 ^ 47)
  zeroed : (exe h.pOffset.toNat h.pFilesz.toNat).returned = some h.pFilesz.toNat →
    h.pMemsz - h.pFilesz = 0 ∨ h.pageAllocStart ≤ (h.pVaddr + h.pFilesz).toNat ∧
      (h.pVaddr + h.pFilesz).toNat + (h.pMemsz - h.pFilesz).toNat ≤ min h.pageAllocEnd (2 ^ 47)

end ElfProgramHeader

/-- After the headers `pre`, the pages of the header `h` are allocated. -/
def Accepted (exe : Exe) (header : ElfFile) (ram : Nat) (pre : List ElfProgramHeader)
    (h : ElfProgramHeader) : Prop :=
  h.IsLoad ∧ (h.kind = .programHeaders → h.DescribesTable header) ∧
    ∃ t t', (loadSegments exe header ram pre).tracker = .ok t ∧
      (allocateVirtualRange t h.pageAllocStart h.pageAllocEnd).2 = .ok t'

variable {exe : Exe} {header : ElfFile} {t t' : Tracker} {h : ElfProgramHeader} {run : Run}

/-! ### One segment -/

theorem allocateVirtualRange_eq_ok {s e : Nat} (hok : (allocateVirtualRange t s e).2 = .ok t') :
    pageSize ∣ s ∧ pageSize ∣ e ∧ splitRegion t.regions s e = .ok t'.regions ∧
      (allocateVirtualRange t s e).1 = pageRange s e := by
  unfold allocateVirtualRange at hok ⊢
  split at hok
  · cases hok
  · rename_i halign
    rw [if_neg halign]
    split at hok
    · cases hok
    · rename_i regions hsplit
      dsimp only at hok
      split at hok
      · rename_i hram
        rw [hsplit]
        obtain rfl := Except.ok.inj hok
        dsimp only
        rw [if_pos hram]
        exact ⟨Nat.dvd_of_mod_eq_zero (by omega), Nat.dvd_of_mod_eq_zero (by omega), rfl, rfl⟩
      · cases hok

/-- **What a load segment does**: nothing is written, or its pages are mapped, the bytes of the
file are stored, and then, if they were all there, the rest is zeroed. -/
theorem loadSegment_cases (exe : Exe) (t : Tracker) (h : ElfProgramHeader) :
    ((∀ t', (allocateVirtualRange t h.pageAllocStart h.pageAllocEnd).2 ≠ .ok t') ∧
      (loadSegment exe t h).1.writes = []) ∨
    ∃ t', (allocateVirtualRange t h.pageAllocStart h.pageAllocEnd).2 = .ok t' ∧
      (loadSegment exe t h).1.pages = pageRange h.pageAllocStart h.pageAllocEnd ∧
      (((exe h.pOffset.toNat h.pFilesz.toNat).returned = some h.pFilesz.toNat ∧
          (loadSegment exe t h).1.writes =
            [(h.pVaddr.toNat, (exe h.pOffset.toNat h.pFilesz.toNat).stored.length),
              ((h.pVaddr + h.pFilesz).toNat, (h.pMemsz - h.pFilesz).toNat)]) ∨
        ((exe h.pOffset.toNat h.pFilesz.toNat).returned ≠ some h.pFilesz.toNat ∧
          (loadSegment exe t h).1.writes =
            [(h.pVaddr.toNat, (exe h.pOffset.toNat h.pFilesz.toNat).stored.length)])) := by
  cases hr : (allocateVirtualRange t h.pageAllocStart h.pageAllocEnd).2 with
  | error e =>
    left
    simp [loadSegment, hr]
  | ok t' =>
    right
    refine ⟨t', rfl, ?_⟩
    have hpages := (allocateVirtualRange_eq_ok hr).2.2.2
    by_cases hret : (exe h.pOffset.toNat h.pFilesz.toNat).returned = some h.pFilesz.toNat
    · simp [loadSegment, hr, hret, hpages]
    · simp [loadSegment, hr, hret, hpages]

/-- **A stretch of bytes** that is not empty is in a range of the lower half if and only if its start
and its end are, without going around. -/
theorem stretch_inside_iff {s e v n : Nat} (hv : v < 2 ^ 64) :
    (∀ i < n, u64 (v + i) < 2 ^ 47 ∧ s ≤ u64 (v + i) ∧ u64 (v + i) < e) ↔
      n = 0 ∨ s ≤ v ∧ v + n ≤ min e (2 ^ 47) := by
  constructor
  · intro h
    rcases Nat.eq_zero_or_pos n with hn | hn
    · exact Or.inl hn
    -- the first byte, and the last one before the addresses go around
    have hfirst := h 0 hn
    have hlast := h (min (2 ^ 64 - 1 - v) (n - 1)) (by omega)
    rw [u64_of_lt (by omega)] at hfirst hlast
    omega
  · rintro h i hi
    rw [u64_of_lt (by omega)]
    omega

theorem SegmentTrace.confined_iff {tr : SegmentTrace} {s e : Nat} (hs : pageSize ∣ s)
    (he : pageSize ∣ e) (hpages : tr.pages = pageRange s e) (hw : ∀ w ∈ tr.writes, w.1 < 2 ^ 64) :
    tr.Confined ↔ ∀ w ∈ tr.writes, w.2 = 0 ∨ s ≤ w.1 ∧ w.1 + w.2 ≤ min e (2 ^ 47) := by
  calc tr.Confined
      ↔ ∀ w ∈ tr.writes, ∀ i < w.2,
          u64 (w.1 + i) < 2 ^ 47 ∧ s ≤ u64 (w.1 + i) ∧ u64 (w.1 + i) < e := by
        simp only [Confined, Written, hpages, exists_mem_pageRange_iff hs he]
        constructor
        · exact fun h w hmem i hi => h _ ⟨w, hmem, i, hi, rfl⟩
        · rintro h a ⟨w, hmem, i, hi, rfl⟩
          exact h w hmem i hi
    _ ↔ ∀ w ∈ tr.writes, w.2 = 0 ∨ s ≤ w.1 ∧ w.1 + w.2 ≤ min e (2 ^ 47) :=
        forall₂_congr fun w hmem => stretch_inside_iff (hw w hmem)

/-- **A segment that is accepted** is written to its own pages if and only if it is sound. -/
theorem loadSegment_confined_iff
    (hok : (allocateVirtualRange t h.pageAllocStart h.pageAllocEnd).2 = .ok t') :
    (loadSegment exe t h).1.Confined ↔ h.Sound exe := by
  have hstart : h.pageAllocStart ≤ h.pVaddr.toNat := alignDown_le _
  have hzero : h.pMemsz - h.pFilesz = 0 ↔ (h.pMemsz - h.pFilesz).toNat = 0 := by
    rw [← UInt64.toNat_inj, UInt64.toNat_zero]
  rcases loadSegment_cases exe t h with ⟨herr, -⟩ | ⟨t'', -, hpages, hcases⟩
  · exact absurd hok (herr t')
  have hconf := SegmentTrace.confined_iff (alignDown_dvd _) (alignDown_dvd _) hpages
  rcases hcases with ⟨hret, hwrites⟩ | ⟨hret, hwrites⟩
  · simp only [hwrites, List.forall_mem_cons, List.not_mem_nil, false_implies, implies_true,
      and_true] at hconf
    rw [hconf ⟨h.pVaddr.toNat_lt, UInt64.toNat_lt _⟩]
    constructor
    · exact fun ⟨hcopied, hzeroed⟩ => ⟨hcopied.imp_right And.right, fun _ => by rwa [hzero]⟩
    · exact fun hsound => ⟨hsound.copied.imp_right (And.intro hstart),
        by rw [← hzero]; exact hsound.zeroed hret⟩
  · simp only [hwrites, List.forall_mem_cons, List.not_mem_nil, false_implies, implies_true,
      and_true] at hconf
    rw [hconf h.pVaddr.toNat_lt]
    constructor
    · exact fun hcopied => ⟨hcopied.imp_right And.right, fun hall => absurd hall hret⟩
    · exact fun hsound => hsound.copied.imp_right (And.intro hstart)

/-- **Where the file has all bytes of a segment**, it is sound if it is in bounds and ends in the
lower half, or is empty. -/
theorem ElfProgramHeader.sound_iff (hfull : h.FullRead exe) :
    h.Sound exe ↔ (h.pFilesz = 0 ∧ h.pMemsz = 0) ∨
      h.InBounds ∧ h.pVaddr.toNat + h.pMemsz.toNat ≤ 2 ^ 47 := by
  obtain ⟨hlen, hret⟩ := hfull
  have hsound : h.Sound exe ↔
      (h.pFilesz.toNat = 0 ∨
        h.pVaddr.toNat + h.pFilesz.toNat ≤ min h.pageAllocEnd (2 ^ 47)) ∧
      ((h.pMemsz - h.pFilesz).toNat = 0 ∨ h.pageAllocStart ≤ (h.pVaddr + h.pFilesz).toNat ∧
        (h.pVaddr + h.pFilesz).toNat + (h.pMemsz - h.pFilesz).toNat ≤
          min h.pageAllocEnd (2 ^ 47)) := by
    rw [← hlen, ← UInt64.toNat_zero, UInt64.toNat_inj]
    exact ⟨fun hs => ⟨hs.copied, hs.zeroed hret⟩, fun hs => ⟨hs.1, fun _ => hs.2⟩⟩
  rw [hsound, ← UInt64.toNat_inj, ← UInt64.toNat_inj, UInt64.toNat_zero]
  by_cases hb : h.InBounds
  · have hsize := hb.size_le
    have hpages := hb.pages
    simp only [hb, true_and]
    rw [hb.toNat_add, hb.toNat_sub]
    omega
  · -- the bytes of the file are in the lower half, or there are none; the zeros cannot be
    simp only [hb, false_and, or_false]
    have hv := h.pVaddr.toNat_lt
    have hm := h.pMemsz.toNat_lt
    have hsub : (h.pMemsz - h.pFilesz).toNat =
        (2 ^ 64 - h.pFilesz.toNat + h.pMemsz.toNat) % 2 ^ 64 := UInt64.toNat_sub _ _
    have hadd : (h.pVaddr + h.pFilesz).toNat = (h.pVaddr.toNat + h.pFilesz.toNat) % 2 ^ 64 :=
      UInt64.toNat_add _ _
    rw [InBounds, UInt64.le_iff_toNat_le] at hb
    omega

/-! ### The loop -/

/-- **One turn** writes nothing, or loads a segment. -/
theorem Run.step_cases (exe : Exe) (header : ElfFile) (run : Run) (h : ElfProgramHeader) :
    (run.step exe header h).traces = run.traces ∨
    ∃ t, run.tracker = .ok t ∧ h.IsLoad ∧ (h.kind = .programHeaders → h.DescribesTable header) ∧
      run.step exe header h =
        ⟨run.traces ++ [(loadSegment exe t h).1], (loadSegment exe t h).2⟩ := by
  cases ht : run.tracker with
  | error e =>
    left
    simp only [Run.step, ht]
  | ok t =>
    cases hk : h.kind with
    | programHeaders =>
      by_cases hd : h.DescribesTable header
      · exact Or.inr ⟨t, rfl, Or.inr hk, fun _ => hd, by simp only [Run.step, ht, hk, if_pos hd]⟩
      · left
        simp only [Run.step, ht, hk, if_neg hd]
    | load => exact Or.inr ⟨t, rfl, Or.inl hk, by simp, by simp only [Run.step, ht, hk]⟩
    | ignored =>
      left
      simp only [Run.step, ht, hk]
    | interpreter =>
      left
      simp only [Run.step, ht, hk]
    | unknown =>
      left
      simp only [Run.step, ht, hk]

theorem Run.step_load (ht : run.tracker = .ok t) (hl : h.IsLoad)
    (hd : h.kind = .programHeaders → h.DescribesTable header) :
    run.step exe header h =
      ⟨run.traces ++ [(loadSegment exe t h).1], (loadSegment exe t h).2⟩ := by
  rcases hl with hk | hk
  · simp only [Run.step, ht, hk]
  · simp only [Run.step, ht, hk, if_pos (hd hk)]

theorem Run.traces_subset (exe : Exe) (header : ElfFile) (headers : List ElfProgramHeader)
    (run : Run) {tr : SegmentTrace} (htr : tr ∈ run.traces) :
    tr ∈ (headers.foldl (Run.step exe header) run).traces := by
  induction headers generalizing run with
  | nil => exact htr
  | cons h headers ih =>
    apply ih
    rcases run.step_cases exe header h with heq | ⟨t, -, -, -, heq⟩
    · rw [heq]
      exact htr
    · rw [heq]
      exact List.mem_append_left _ htr

theorem loadSegments_append (exe : Exe) (header : ElfFile) (ram : Nat)
    (pre post : List ElfProgramHeader) :
    loadSegments exe header ram (pre ++ post) =
      post.foldl (Run.step exe header) (loadSegments exe header ram pre) :=
  List.foldl_append

/-- **The record of the loop**: the segments that it got to. -/
theorem mem_loadSegments_traces {ram : Nat} {headers : List ElfProgramHeader} {tr : SegmentTrace} :
    tr ∈ (loadSegments exe header ram headers).traces ↔
      ∃ pre h post t, headers = pre ++ h :: post ∧ h.IsLoad ∧
        (h.kind = .programHeaders → h.DescribesTable header) ∧
        (loadSegments exe header ram pre).tracker = .ok t ∧ tr = (loadSegment exe t h).1 := by
  constructor
  · intro htr
    induction headers using List.reverseRecOn with
    | nil => cases htr
    | append_singleton headers h ih =>
      have hbefore : tr ∈ (loadSegments exe header ram headers).traces →
          ∃ pre h' post t, headers ++ [h] = pre ++ h' :: post ∧ h'.IsLoad ∧
            (h'.kind = .programHeaders → h'.DescribesTable header) ∧
            (loadSegments exe header ram pre).tracker = .ok t ∧
            tr = (loadSegment exe t h').1 := by
        intro hmem
        obtain ⟨pre, h', post, t, rfl, hrest⟩ := ih hmem
        exact ⟨pre, h', post ++ [h], t, by simp, hrest⟩
      rw [loadSegments_append] at htr
      rcases Run.step_cases exe header (loadSegments exe header ram headers) h with
        heq | ⟨t, ht, hl, hd, heq⟩
      · exact hbefore (by rwa [← heq])
      · rw [List.foldl_cons, List.foldl_nil, heq] at htr
        rcases List.mem_append.mp htr with htr | htr
        · exact hbefore htr
        · exact ⟨headers, h, [], t, rfl, hl, hd, ht, List.mem_singleton.mp htr⟩
  · rintro ⟨pre, h, post, t, rfl, hl, hd, ht, rfl⟩
    rw [loadSegments_append, List.foldl_cons]
    apply Run.traces_subset
    rw [Run.step_load ht hl hd]
    exact List.mem_append_right _ (List.mem_singleton_self _)

theorem segmentTraces_eq {headers : List ElfProgramHeader} (hh : readHeader exe = .ok header)
    (hp : readProgramHeaders exe header = .ok headers) (ram : Nat) :
    segmentTraces exe ram = (loadSegments exe header ram headers).traces := by
  simp only [segmentTraces, hh, hp]

/-- **The loader keeps to the pages it maps** if and only if every load segment that it accepts is
sound. -/
theorem elf_writes_confined_iff (exe : Exe) (ram : Nat) :
    (∀ tr ∈ segmentTraces exe ram, tr.Confined) ↔
      ∀ header headers, readHeader exe = .ok header → readProgramHeaders exe header = .ok headers →
        ∀ pre h post, headers = pre ++ h :: post → Accepted exe header ram pre h → h.Sound exe := by
  constructor
  · intro hconf header headers hh hp pre h post he ⟨hl, hd, t, t', ht, hok⟩
    rw [segmentTraces_eq hh hp] at hconf
    rw [← loadSegment_confined_iff hok]
    exact hconf _ (mem_loadSegments_traces.mpr ⟨pre, h, post, t, he, hl, hd, ht, rfl⟩)
  · intro hsound tr htr
    cases hh : readHeader exe with
    | error e =>
      simp [segmentTraces, hh] at htr
    | ok header =>
      cases hp : readProgramHeaders exe header with
      | error e =>
        simp [segmentTraces, hh, hp] at htr
      | ok headers =>
        rw [segmentTraces_eq hh hp, mem_loadSegments_traces] at htr
        obtain ⟨pre, h, post, t, he, hl, hd, ht, rfl⟩ := htr
        rcases loadSegment_cases exe t h with ⟨-, hnone⟩ | ⟨t', hok, -⟩
        · -- nothing is written
          rintro a ⟨w, hw, -⟩
          rw [hnone] at hw
          cases hw
        · rw [loadSegment_confined_iff hok]
          exact hsound header headers hh hp pre h post he ⟨hl, hd, t, t', ht, hok⟩

/-! ### Two executables -/

/-- Five bytes of text and a page of data behind them. -/
def smallHeader : ElfProgramHeader := ⟨1, 5, 120, 0x401000, 5, 4096⟩

theorem elf_writes_confined_small :
    segmentTraces (exeOf (elfBytes [smallHeader] [1, 2, 3, 4, 5])) 1 =
        [⟨[0x401000], [(0x401000, 5), (0x401005, 4091)]⟩] ∧
      ∀ tr ∈ segmentTraces (exeOf (elfBytes [smallHeader] [1, 2, 3, 4, 5])) 1, tr.Confined := by
  refine ⟨by decide +kernel, (elf_writes_confined_iff _ 1).mpr ?_⟩
  intro header headers hh hp pre h post he _
  have hheaders : (readHeader (exeOf (elfBytes [smallHeader] [1, 2, 3, 4, 5])) >>=
      readProgramHeaders (exeOf (elfBytes [smallHeader] [1, 2, 3, 4, 5]))) =
      .ok [smallHeader] := by
    decide +kernel
  rw [hh, ok_bind, hp, Except.ok.injEq, he] at hheaders
  have hmem : h ∈ [smallHeader] := by
    rw [← hheaders]
    simp
  obtain rfl := List.mem_singleton.mp hmem
  exact (ElfProgramHeader.sound_iff ⟨by decide +kernel, by decide +kernel⟩).mpr
    (Or.inr ⟨⟨by decide, by decide⟩, by decide⟩)

/-- The image of the kernel ends at `2 ^ 64`. -/
def kernelHeader : ElfProgramHeader := ⟨1, 6, 120, 0xFFFFFFFF80000000, 5, 0x80000000⟩

/-- **The loader writes to the kernel.**  The end of the pages wraps to 0, no page is mapped, and the
bytes of the file are stored to the upper half. -/
theorem elf_writes_to_kernel :
    ∃ tr ∈ segmentTraces (exeOf (elfBytes [kernelHeader] [1, 2, 3, 4, 5])) 0,
      tr.pages = [] ∧ tr.Written 0xFFFFFFFF80000000 ∧ ¬ tr.Confined := by
  have htraces : segmentTraces (exeOf (elfBytes [kernelHeader] [1, 2, 3, 4, 5])) 0 =
      [⟨[], [(0xFFFFFFFF80000000, 5), (0xFFFFFFFF80000005, 0x7FFFFFFB)]⟩] := by
    decide +kernel
  have hwritten : SegmentTrace.Written
      ⟨[], [(0xFFFFFFFF80000000, 5), (0xFFFFFFFF80000005, 0x7FFFFFFB)]⟩ 0xFFFFFFFF80000000 :=
    ⟨(0xFFFFFFFF80000000, 5), List.mem_cons_self, 0, by decide, by decide⟩
  refine ⟨_, by rw [htraces]; exact List.mem_singleton_self _, rfl, hwritten, fun hconf => ?_⟩
  exact absurd (hconf _ hwritten).1 (by decide)

end Stuos.Elf
