import Mathlib.Data.List.Basic
import Mathlib.Data.List.Nodup
import Mathlib.Logic.Function.Basic
import Stuos.Lib.Bytes
import Stuos.Lib.Lts
import Stuos.Memory.PageTables

/-!
# The physical page allocator

`physical_slab_allocation.c`, with its own addresses.  The first pages of the region hold
one flag for each page; the rest is handed out, one page at a time or in runs.

An access to a flag outside the pages set aside for the flags is a halt of its own, so
that "it never happens" can be said.

* `mallocContiguousPhys_firstFit`: the search for a run finds the lowest, if there is one.
* `slab_sound`: over any sequence of requests that frees only allocated pages, the live
  allocations are disjoint, aligned, inside the region and off the flags, a flag is set
  exactly for a live page, and no flag outside the reserved pages is touched.
-/

namespace Stuos.Phys

open Stuos.Lib
open Stuos.Memory (pageSize)

def uint64Max : Nat := 2 ^ 64 - 1

/-- What stops the allocator: an `HCF`, a failed `assert`, or a flag outside the pages
reserved for flags. -/
inductive SlabHalt
  | hcf
  | assertion
  | overrun
  deriving DecidableEq, Repr

/-- The static state.  `reserved` is the size in bytes of the pages set aside for the flags,
at the start of the region. -/
structure Slab where
  physicalMemoryBase : Nat
  physicalMemoryPages : Nat
  slabFlags : Nat → Bool
  reserved : Nat

/-- `slab_flags_base[i]`. -/
def Slab.flag (s : Slab) (i : Nat) : Except SlabHalt Bool :=
  if i < s.reserved then .ok (s.slabFlags i) else .error .overrun

/-- `slab_flags_base[i] = b`. -/
def Slab.setFlag (s : Slab) (i : Nat) (b : Bool) : Except SlabHalt Slab :=
  if i < s.reserved then .ok { s with slabFlags := Function.update s.slabFlags i b }
  else .error .overrun

def roundUpPages (numBytes : Nat) : Nat := u64 (numBytes + pageSize - 1) / pageSize

theorem le_roundUpPages {n : Nat} (h : n < 2 ^ 32) : n ≤ roundUpPages n * pageSize := by
  rw [roundUpPages, u64, pageSize]
  omega

/-- `init_physical_memory`, on memory that holds anything. -/
def initPhysicalMemory (basePhys memSizeBytes : Nat) (memory : Nat → Bool) :
    Except SlabHalt Slab := do
  let totalPageCount := memSizeBytes / pageSize
  -- 1 byte of data for each page
  let pagesRequired := roundUpPages totalPageCount
  let pages := u64 (totalPageCount + 2 ^ 64 - pagesRequired)
  let reserved := pagesRequired * pageSize
  ensure (pages ≤ reserved) .overrun
  return { physicalMemoryBase := u64 (basePhys + pagesRequired * pageSize)
           physicalMemoryPages := pages
           slabFlags := fun i => if i < pages then false else memory i
           reserved := reserved }

/-- The loop of `malloc4k_phys` from page `pageNum` on. -/
def mallocFrom (s : Slab) (pageNum : Nat) : Nat → Except SlabHalt (Nat × Slab)
  | 0 => .error .hcf
  | n + 1 => do
    let used ← s.flag pageNum
    if used then mallocFrom s (pageNum + 1) n
    else
      let s ← s.setFlag pageNum true
      return (u64 (s.physicalMemoryBase + pageNum * pageSize), s)

def malloc4kPhys (s : Slab) : Except SlabHalt (Nat × Slab) :=
  mallocFrom s 0 s.physicalMemoryPages

/-- The loop that allocates a run that was found. -/
def markRun (s : Slab) (i : Nat) : Nat → Except SlabHalt Slab
  | 0 => .ok s
  | n + 1 => do
    let s ← s.setFlag i true
    markRun s (i + 1) n

/-- The loop of `malloc_contiguous_phys` from page `pageNum` on. -/
def searchFrom (s : Slab) (numPages runStart runLength pageNum : Nat) :
    Nat → Except SlabHalt (Nat × Slab)
  | 0 => .error .hcf
  | n + 1 => do
    let used ← s.flag pageNum
    let runLength := if used then 0 else (if runStart = uint64Max then 0 else runLength) + 1
    let runStart := if used then uint64Max
      else if runStart = uint64Max then pageNum else runStart
    if runLength = numPages then
      let s ← markRun s runStart runLength
      return (u64 (s.physicalMemoryBase + runStart * pageSize), s)
    else searchFrom s numPages runStart runLength (pageNum + 1) n

def mallocContiguousPhys (s : Slab) (numPages : Nat) : Except SlabHalt (Nat × Slab) := do
  ensure (0 < numPages) .assertion
  searchFrom s numPages uint64Max 0 0 s.physicalMemoryPages

def free4kPhys (s : Slab) (physAddr : Nat) : Except SlabHalt Slab := do
  ensure (physAddr % pageSize = 0) .hcf
  let pageOffset := u64 (physAddr + 2 ^ 64 - s.physicalMemoryBase) / pageSize
  s.setFlag pageOffset false

def freeContiguousPhys (s : Slab) (physAddr numPages : Nat) : Except SlabHalt Slab := do
  ensure (0 < numPages) .assertion
  (List.range numPages).foldlM (fun s i => free4kPhys s (u64 (physAddr + pageSize * i))) s

/-! ### Runs -/

inductive Request
  | malloc4k
  | mallocContiguous (numPages : Nat)
  | free4k (physAddr : Nat)
  | freeContiguous (physAddr numPages : Nat)
  deriving DecidableEq, Repr

/-- A request, with the address it returns; a `free` returns nothing. -/
def Request.exec (s : Slab) : Request → Except SlabHalt (Nat × Slab)
  | .malloc4k => malloc4kPhys s
  | .mallocContiguous numPages => mallocContiguousPhys s numPages
  | .free4k physAddr => (free4kPhys s physAddr).map fun s => (0, s)
  | .freeContiguous physAddr numPages =>
    (freeContiguousPhys s physAddr numPages).map fun s => (0, s)

/-- The addresses of `n` pages from `physAddr` on. -/
def pagesAt (physAddr n : Nat) : List Nat :=
  (List.range n).map fun i => physAddr + pageSize * i

/-- The pages a request frees. -/
def Request.freed : Request → List Nat
  | .malloc4k => []
  | .mallocContiguous _ => []
  | .free4k physAddr => [physAddr]
  | .freeContiguous physAddr numPages => pagesAt physAddr numPages

/-- The allocation a request makes, at the address it returned. -/
def Request.allocated (address : Nat) : Request → List (List Nat)
  | .malloc4k => [pagesAt address 1]
  | .mallocContiguous numPages => [pagesAt address numPages]
  | .free4k _ => []
  | .freeContiguous _ _ => []

/-- A region of memory, its allocator, and the pages of each live allocation. -/
structure Allocator where
  base : Nat
  size : Nat
  slab : Slab
  live : List (List Nat)

def Allocator.livePages (s : Allocator) : List Nat := s.live.flatten

/-- Any sequence of requests, each with the address it returned. -/
def allocator : Lts Allocator (Request × Nat) where
  init s := s.base % pageSize = 0 ∧ s.base < 2 ^ 64 ∧ s.base + s.size ≤ 2 ^ 64 ∧ s.live = [] ∧
    ∃ memory, initPhysicalMemory s.base s.size memory = .ok s.slab
  step s ev s' := ∃ slab, ev.1.exec s.slab = .ok (ev.2, slab) ∧ s' =
    { s with
      slab := slab
      live := s.live.map (fun pages => pages.filter (· ∉ ev.1.freed)) ++ ev.1.allocated ev.2 }

/-- Only currently allocated pages are freed. -/
def FreesLive (s : Allocator) (req : Request) : Prop := ∀ a ∈ req.freed, a ∈ s.livePages

/-- What the allocator promises of its live allocations and of its flags. -/
structure Sound (s : Allocator) : Prop where
  disjoint : s.livePages.Nodup
  aligned : ∀ a ∈ s.livePages, a % pageSize = 0
  inside : ∀ a ∈ s.livePages, s.base ≤ a ∧ a + pageSize ≤ s.base + s.size
  offFlags : ∀ a ∈ s.livePages, s.base + s.slab.reserved ≤ a
  flags : ∀ i < s.slab.physicalMemoryPages,
    s.slab.slabFlags i = true ↔ s.slab.physicalMemoryBase + i * pageSize ∈ s.livePages

/-- The layout of the region, and what its flags say. -/
structure Inv (s : Allocator) : Prop where
  aligned : s.slab.physicalMemoryBase % pageSize = 0
  base : 0 < s.slab.physicalMemoryPages → s.slab.physicalMemoryBase = s.base + s.slab.reserved
  fits : s.slab.reserved + s.slab.physicalMemoryPages * pageSize ≤ s.size
  bound : s.base + s.size ≤ 2 ^ 64
  flagsFit : s.slab.physicalMemoryPages ≤ s.slab.reserved
  disjoint : s.livePages.Nodup
  pages : ∀ a ∈ s.livePages, ∃ i < s.slab.physicalMemoryPages,
    a = s.slab.physicalMemoryBase + i * pageSize
  flags : ∀ i < s.slab.physicalMemoryPages,
    s.slab.slabFlags i = true ↔ s.slab.physicalMemoryBase + i * pageSize ∈ s.livePages

variable {s s' : Slab}

/-! ### Finding pages -/

/-- The flags after pages `i` to `i + n` have been allocated. -/
def Slab.mark (s : Slab) (i n : Nat) : Slab :=
  { s with slabFlags := fun j => if i ≤ j ∧ j < i + n then true else s.slabFlags j }

/-- All these pages are free. -/
def Slab.FreeRun (s : Slab) (i n : Nat) : Prop := ∀ j, i ≤ j → j < i + n → s.slabFlags j = false

theorem Slab.flag_of_lt {i : Nat} (h : i < s.reserved) : s.flag i = .ok (s.slabFlags i) :=
  if_pos h

theorem Slab.setFlag_of_lt {i : Nat} (b : Bool) (h : i < s.reserved) :
    s.setFlag i b = .ok { s with slabFlags := Function.update s.slabFlags i b } :=
  if_pos h

theorem Slab.update_eq_mark (i : Nat) :
    { s with slabFlags := Function.update s.slabFlags i true } = s.mark i 1 := by
  unfold Slab.mark
  congr 1
  funext j
  by_cases hj : j = i
  · subst hj
    rw [Function.update_self, if_pos ⟨le_refl _, Nat.lt_succ_self _⟩]
  · rw [Function.update_of_ne hj, if_neg (by omega)]

theorem Slab.mark_mark (i n : Nat) : (s.mark i 1).mark (i + 1) n = s.mark i (n + 1) := by
  unfold Slab.mark
  congr 1
  funext j
  by_cases h1 : i + 1 ≤ j ∧ j < i + 1 + n
  · rw [if_pos h1, if_pos (by omega)]
  · rw [if_neg h1]
    show (if i ≤ j ∧ j < i + 1 then true else s.slabFlags j) = _
    by_cases h2 : i ≤ j ∧ j < i + 1
    · rw [if_pos h2, if_pos (by omega)]
    · rw [if_neg h2, if_neg (by omega)]

theorem markRun_eq (i n : Nat) (h : i + n ≤ s.reserved) : markRun s i n = .ok (s.mark i n) := by
  induction n generalizing s i with
  | zero =>
    have hnone : s.mark i 0 = s := by
      unfold Slab.mark
      congr 1
      funext j
      exact if_neg (by omega)
    rw [hnone]
    rfl
  | succ n ih =>
    rw [markRun, Slab.setFlag_of_lt true (by omega), ok_bind, Slab.update_eq_mark,
      ih (i + 1) (by show i + 1 + n ≤ s.reserved; omega), Slab.mark_mark]

/-- **`malloc4k_phys` returns a free page**, or halts. -/
theorem mallocFrom_eq (p n : Nat) (h : p + n ≤ s.reserved) :
    mallocFrom s p n = .error .hcf ∨ ∃ i, i + 1 ≤ p + n ∧ s.FreeRun i 1 ∧
      mallocFrom s p n = .ok (u64 (s.physicalMemoryBase + i * pageSize), s.mark i 1) := by
  induction n generalizing p with
  | zero => exact .inl rfl
  | succ n ih =>
    rw [mallocFrom, Slab.flag_of_lt (by omega), ok_bind]
    cases hused : s.slabFlags p with
    | true =>
      rw [if_pos rfl]
      rcases ih (p + 1) (by omega) with herr | ⟨i, hi, hfree, heq⟩
      · exact .inl herr
      · exact .inr ⟨i, by omega, hfree, heq⟩
    | false =>
      rw [if_neg Bool.false_ne_true, Slab.setFlag_of_lt true (by omega), ok_bind,
        Slab.update_eq_mark]
      refine .inr ⟨p, by omega, ?_, rfl⟩
      intro j hj hj'
      rw [show j = p by omega, hused]

/-- The run that `malloc_contiguous_phys` is in the middle of: none, or the free pages right
before `pageNum`. -/
structure InRun (s : Slab) (numPages runStart runLength pageNum : Nat) : Prop where
  short : runLength < numPages
  none : runStart = uint64Max → runLength = 0
  run : runStart ≠ uint64Max → runStart + runLength = pageNum ∧ s.FreeRun runStart runLength

/-- And no run that is long enough starts before it. -/
structure Searched (s : Slab) (numPages runStart runLength pageNum : Nat) : Prop
    extends InRun s numPages runStart runLength pageNum where
  earlier : ∀ j, j < (if runStart = uint64Max then pageNum else runStart) →
    ¬ s.FreeRun j numPages

/-- The first free run that is long enough, among the first `limit` pages. -/
structure Slab.FirstRun (s : Slab) (limit numPages i : Nat) : Prop where
  inside : i + numPages ≤ limit
  free : s.FreeRun i numPages
  lowest : ∀ j < i, ¬ s.FreeRun j numPages

section

variable {numPages runStart runLength p : Nat}

theorem Searched.used (h : Searched s numPages runStart runLength p)
    (hused : s.slabFlags p = true) : Searched s numPages uint64Max 0 (p + 1) := by
  have hshort := h.short
  refine ⟨⟨by omega, fun _ => rfl, fun hne => absurd rfl hne⟩, fun j hj hfree => ?_⟩
  rw [if_pos rfl] at hj
  have hearlier := h.earlier j
  by_cases hin : p < j + numPages
  · -- the page is one of the run
    have hflag := hfree p (by omega) hin
    rw [hused] at hflag
    cases hflag
  · by_cases hnone : runStart = uint64Max
    · rw [if_pos hnone] at hearlier
      exact hearlier (by omega) hfree
    · rw [if_neg hnone] at hearlier
      have hsum := (h.run hnone).1
      exact hearlier (by omega) hfree

theorem Searched.free (h : Searched s numPages runStart runLength p)
    (hfree : s.slabFlags p = false) (hmax : p < uint64Max) :
    ∃ start len, (if runStart = uint64Max then p else runStart) = start ∧
      (if runStart = uint64Max then 0 else runLength) + 1 = len ∧ start ≠ uint64Max ∧
      len ≤ numPages ∧ start + len = p + 1 ∧ s.FreeRun start len ∧
      ∀ j < start, ¬ s.FreeRun j numPages := by
  have hshort := h.short
  have hearlier := h.earlier
  by_cases hnone : runStart = uint64Max
  · rw [if_pos hnone, if_pos hnone]
    rw [if_pos hnone] at hearlier
    refine ⟨p, 1, rfl, rfl, by omega, by omega, rfl, ?_, hearlier⟩
    intro j hj hj'
    rw [show j = p by omega, hfree]
  · obtain ⟨hsum, hrun⟩ := h.run hnone
    rw [if_neg hnone, if_neg hnone]
    rw [if_neg hnone] at hearlier
    refine ⟨runStart, runLength + 1, rfl, rfl, hnone, by omega, by omega, ?_, hearlier⟩
    intro j hj hj'
    by_cases hjp : j = p
    · rw [hjp, hfree]
    · exact hrun j hj (by omega)

theorem Searched.not_freeRun (h : Searched s numPages runStart runLength p) :
    ∀ j, j + numPages ≤ p → ¬ s.FreeRun j numPages := by
  intro j hj
  have hshort := h.short
  have hearlier := h.earlier j
  by_cases hnone : runStart = uint64Max
  · rw [if_pos hnone] at hearlier
    exact hearlier (by omega)
  · rw [if_neg hnone] at hearlier
    have hsum := (h.run hnone).1
    exact hearlier (by omega)

/-- **`malloc_contiguous_phys` returns the first free run**, or halts if there is none. -/
theorem searchFrom_eq (n : Nat) (h : p + n ≤ s.reserved) (hmax : p + n ≤ uint64Max)
    (hrun : Searched s numPages runStart runLength p) :
    (searchFrom s numPages runStart runLength p n = .error .hcf ∧
      ∀ j, j + numPages ≤ p + n → ¬ s.FreeRun j numPages) ∨
      ∃ i, s.FirstRun (p + n) numPages i ∧ searchFrom s numPages runStart runLength p n =
        .ok (u64 (s.physicalMemoryBase + i * pageSize), s.mark i numPages) := by
  induction n generalizing p runStart runLength with
  | zero => exact .inl ⟨rfl, hrun.not_freeRun⟩
  | succ n ih =>
    have hshort := hrun.short
    have hnext : p + (n + 1) = p + 1 + n := by omega
    rw [searchFrom, Slab.flag_of_lt (by omega), ok_bind, hnext]
    cases hused : s.slabFlags p with
    | true =>
      simp only [if_true]
      rw [if_neg (by omega)]
      exact ih (by omega) (by omega) (hrun.used hused)
    | false =>
      simp only [Bool.false_eq_true, if_false]
      obtain ⟨start, len, hstart, hlen, hne, hle, hsum, hfree, hearlier⟩ :=
        hrun.free hused (by omega)
      rw [hstart, hlen]
      by_cases hfull : len = numPages
      · rw [if_pos hfull, markRun_eq start len (by omega), ok_bind]
        subst hfull
        exact .inr ⟨start, ⟨by omega, hfree, hearlier⟩, rfl⟩
      · rw [if_neg hfull]
        apply ih (by omega) (by omega)
        refine ⟨⟨by omega, fun he => absurd he hne, fun _ => ⟨hsum, hfree⟩⟩, fun j hj => ?_⟩
        rw [if_neg hne] at hj
        exact hearlier j hj

/-- **The whole search.** -/
theorem mallocContiguousPhys_eq (hn : 0 < numPages) (hflags : s.physicalMemoryPages ≤ s.reserved)
    (hmax : s.physicalMemoryPages ≤ uint64Max) :
    (mallocContiguousPhys s numPages = .error .hcf ∧
      ∀ j, j + numPages ≤ s.physicalMemoryPages → ¬ s.FreeRun j numPages) ∨
      ∃ i, s.FirstRun s.physicalMemoryPages numPages i ∧ mallocContiguousPhys s numPages =
        .ok (u64 (s.physicalMemoryBase + i * pageSize), s.mark i numPages) := by
  have hrun : Searched s numPages uint64Max 0 0 := by
    refine ⟨⟨hn, fun _ => rfl, fun hne => absurd rfl hne⟩, fun j hj => ?_⟩
    rw [if_pos rfl] at hj
    exact absurd hj (Nat.not_lt_zero j)
  have hsearch := searchFrom_eq s.physicalMemoryPages (by omega) (by omega) hrun
  rw [Nat.zero_add] at hsearch
  rw [mallocContiguousPhys, ensure_of hn, ok_bind]
  exact hsearch

/-- **First fit**: if there are enough free pages in a row, the lowest such run is allocated and
nothing else changes; the search halts exactly if there is none. -/
theorem mallocContiguousPhys_firstFit (hn : 0 < numPages)
    (hflags : s.physicalMemoryPages ≤ s.reserved) (hmax : s.physicalMemoryPages ≤ uint64Max) :
    ((∃ i, i + numPages ≤ s.physicalMemoryPages ∧ s.FreeRun i numPages) →
      ∃ i, s.FirstRun s.physicalMemoryPages numPages i ∧ mallocContiguousPhys s numPages =
        .ok (u64 (s.physicalMemoryBase + i * pageSize), s.mark i numPages)) ∧
    ((∃ e, mallocContiguousPhys s numPages = .error e) ↔
      ∀ i, i + numPages ≤ s.physicalMemoryPages → ¬ s.FreeRun i numPages) := by
  rcases mallocContiguousPhys_eq hn hflags hmax with ⟨herr, hnone⟩ | ⟨i, hfirst, hok⟩
  · refine ⟨?_, fun _ => hnone, fun _ => ⟨_, herr⟩⟩
    rintro ⟨i, hi, hfree⟩
    exact absurd hfree (hnone i hi)
  · refine ⟨fun _ => ⟨i, hfirst, hok⟩, ?_, fun hnone => absurd hfirst.free (hnone i hfirst.inside)⟩
    rintro ⟨e, herr⟩
    rw [hok] at herr
    cases herr

/-- Four pages, the first and the third of them used. -/
def fourPages : Slab where
  physicalMemoryBase := 0x101000
  physicalMemoryPages := 4
  slabFlags := fun i => i = 0 || i = 2
  reserved := 0x1000

/-- One page is found behind the first, two in a row are not. -/
theorem mallocContiguousPhys_firstFit_fourPages :
    mallocContiguousPhys fourPages 1 = .ok (0x102000, fourPages.mark 1 1) ∧
      ∃ e, mallocContiguousPhys fourPages 2 = .error e := by
  constructor
  · have hone : fourPages.FreeRun 1 1 := by
      intro j h1 h2
      obtain rfl : j = 1 := by omega
      rfl
    obtain ⟨i, hfirst, hok⟩ := (@mallocContiguousPhys_firstFit fourPages 1
      (by decide) (by decide) (by decide)).1 ⟨1, by decide, hone⟩
    have hle : i ≤ 1 := by
      by_contra hlt
      exact hfirst.lowest 1 (by omega) hone
    have hne : i ≠ 0 := by
      rintro rfl
      exact absurd (hfirst.free 0 le_rfl (by decide)) (by decide)
    obtain rfl : i = 1 := by omega
    exact hok
  · refine (@mallocContiguousPhys_firstFit fourPages 2
      (by decide) (by decide) (by decide)).2.mpr fun i hi hfree => ?_
    have hi : i ≤ 2 := by
      have hpages : fourPages.physicalMemoryPages = 4 := rfl
      omega
    -- the third page is in every run but the first, which has the first page
    by_cases h0 : i = 0
    · subst h0
      exact absurd (hfree 0 le_rfl (by decide)) (by decide)
    · exact absurd (hfree 2 hi (by omega)) (by decide)

end

/-! ### Freeing pages -/

/-- The flags after these pages have been freed. -/
def Slab.unmark (s : Slab) (freed : List Nat) : Slab :=
  { s with
    slabFlags := fun j =>
      if s.physicalMemoryBase + j * pageSize ∈ freed then false else s.slabFlags j }

/-- The address of page `i` of the allocator. -/
def Slab.IsPage (s : Slab) (a i : Nat) : Prop :=
  a = s.physicalMemoryBase + i * pageSize ∧ a < 2 ^ 64

theorem Slab.add_mul_pageSize_inj {i j : Nat}
    (h : s.physicalMemoryBase + i * pageSize = s.physicalMemoryBase + j * pageSize) : i = j := by
  unfold pageSize at h
  omega

theorem free4kPhys_eq {a i : Nat} (hpage : s.IsPage a i) (hi : i < s.reserved)
    (hal : s.physicalMemoryBase % pageSize = 0) :
    free4kPhys s a = .ok (s.unmark [a]) := by
  obtain ⟨rfl, hlt⟩ := hpage
  have haligned : (s.physicalMemoryBase + i * pageSize) % pageSize = 0 := by
    rw [Nat.add_mul_mod_self_right, hal]
  have hoffset :
      u64 (s.physicalMemoryBase + i * pageSize + 2 ^ 64 - s.physicalMemoryBase) / pageSize = i := by
    unfold u64 pageSize at *
    omega
  unfold free4kPhys
  rw [ensure_of haligned, ok_bind]
  simp only [hoffset]
  rw [Slab.setFlag_of_lt false hi, Slab.unmark]
  congr 2
  funext j
  by_cases hj : j = i
  · subst hj
    rw [Function.update_self, if_pos (List.mem_singleton.mpr rfl)]
  · have hne : s.physicalMemoryBase + j * pageSize ∉ [s.physicalMemoryBase + i * pageSize] :=
      fun hmem => hj (Slab.add_mul_pageSize_inj (List.mem_singleton.mp hmem))
    rw [Function.update_of_ne hj, if_neg hne]

theorem Slab.unmark_unmark (l l' : List Nat) : (s.unmark l).unmark l' = s.unmark (l ++ l') := by
  unfold Slab.unmark
  congr 1
  funext j
  simp only [List.mem_append]
  by_cases h1 : s.physicalMemoryBase + j * pageSize ∈ l <;>
    by_cases h2 : s.physicalMemoryBase + j * pageSize ∈ l' <;> simp [h1, h2]

theorem pagesAt_succ (a n : Nat) : pagesAt a (n + 1) = pagesAt a n ++ [a + pageSize * n] := by
  simp [pagesAt, List.range_succ]

/-- **Freeing a run frees its pages.** -/
theorem freeRange_eq (a n : Nat) (hal : s.physicalMemoryBase % pageSize = 0)
    (hpages : ∀ b ∈ pagesAt a n, ∃ i < s.reserved, s.IsPage b i) :
    (List.range n).foldlM (fun s i => free4kPhys s (u64 (a + pageSize * i))) s =
      .ok (s.unmark (pagesAt a n)) := by
  induction n with
  | zero =>
    show Except.ok s = Except.ok (s.unmark [])
    congr 1
  | succ n ih =>
    rw [pagesAt_succ] at hpages ⊢
    rw [List.range_succ, List.foldlM_append, ih (fun b hb => hpages b (List.mem_append_left _ hb)),
      ok_bind, List.foldlM_cons]
    obtain ⟨i, hi, hpage⟩ := hpages (a + pageSize * n)
      (List.mem_append_right _ (List.mem_singleton.mpr rfl))
    have hu64 : u64 (a + pageSize * n) = a + pageSize * n := Nat.mod_eq_of_lt hpage.2
    have hpage' : (s.unmark (pagesAt a n)).IsPage (a + pageSize * n) i := hpage
    rw [hu64, free4kPhys_eq hpage' hi hal, ok_bind, Slab.unmark_unmark, List.foldlM_nil,
      pure_eq_ok]

/-! ### The invariant -/

section

variable {st st' : Allocator}

theorem mem_pagesAt_iff (i n j : Nat) :
    s.physicalMemoryBase + j * pageSize ∈ pagesAt (s.physicalMemoryBase + i * pageSize) n ↔
      i ≤ j ∧ j < i + n := by
  unfold pagesAt
  rw [List.mem_map]
  constructor
  · rintro ⟨k, hk, he⟩
    rw [List.mem_range] at hk
    unfold pageSize at he
    omega
  · rintro ⟨h1, h2⟩
    refine ⟨j - i, List.mem_range.mpr (by omega), ?_⟩
    unfold pageSize
    omega

theorem mem_pagesAt {a i n : Nat} (h : a ∈ pagesAt (s.physicalMemoryBase + i * pageSize) n) :
    ∃ j, i ≤ j ∧ j < i + n ∧ a = s.physicalMemoryBase + j * pageSize := by
  unfold pagesAt at h
  rw [List.mem_map] at h
  obtain ⟨k, hk, rfl⟩ := h
  rw [List.mem_range] at hk
  refine ⟨i + k, by omega, by omega, ?_⟩
  unfold pageSize
  omega

theorem nodup_pagesAt (a n : Nat) : (pagesAt a n).Nodup := by
  unfold pagesAt
  apply List.nodup_range.map
  intro i j h
  have h' : a + 4096 * i = a + 4096 * j := h
  omega

theorem Inv.page_lt (h : Inv st) {i : Nat} (hi : i < st.slab.physicalMemoryPages) :
    st.slab.physicalMemoryBase + i * pageSize < 2 ^ 64 := by
  have hb := h.base (Nat.zero_lt_of_lt hi)
  have hfits := h.fits
  have hbound := h.bound
  have hlt : i * pageSize < st.slab.physicalMemoryPages * pageSize :=
    Nat.mul_lt_mul_of_pos_right hi (by decide)
  omega

theorem Inv.sound (h : Inv st) : Sound st where
  disjoint := h.disjoint
  aligned a ha := by
    obtain ⟨i, -, rfl⟩ := h.pages a ha
    rw [Nat.add_mul_mod_self_right, h.aligned]
  inside a ha := by
    obtain ⟨i, hi, rfl⟩ := h.pages a ha
    have hb := h.base (Nat.zero_lt_of_lt hi)
    have hfits := h.fits
    have hle : (i + 1) * pageSize ≤ st.slab.physicalMemoryPages * pageSize :=
      Nat.mul_le_mul_right _ hi
    rw [Nat.add_mul, Nat.one_mul] at hle
    omega
  offFlags a ha := by
    obtain ⟨i, hi, rfl⟩ := h.pages a ha
    rw [h.base (Nat.zero_lt_of_lt hi)]
    exact Nat.le_add_right _ _
  flags := h.flags

/-- **A run of free pages becomes an allocation.** -/
theorem Inv.allocate (h : Inv st) {i n : Nat} (hn : i + n ≤ st.slab.physicalMemoryPages)
    (hfree : st.slab.FreeRun i n) :
    Inv { st with
      slab := st.slab.mark i n
      live := st.live ++ [pagesAt (st.slab.physicalMemoryBase + i * pageSize) n] } := by
  have hlive : ∀ a, a ∈ (st.live ++ [pagesAt (st.slab.physicalMemoryBase + i * pageSize) n]).flatten
      ↔ a ∈ st.livePages ∨ a ∈ pagesAt (st.slab.physicalMemoryBase + i * pageSize) n := by
    intro a
    rw [List.flatten_append, List.mem_append, List.flatten_singleton]
    rfl
  constructor
  case aligned => exact h.aligned
  case base => exact h.base
  case fits => exact h.fits
  case bound => exact h.bound
  case flagsFit => exact h.flagsFit
  case disjoint =>
    show (st.live ++ [_]).flatten.Nodup
    rw [List.flatten_append, List.flatten_singleton]
    apply h.disjoint.append (nodup_pagesAt _ _)
    -- the new pages were free
    intro a ha hnew
    obtain ⟨j, hj, hj', rfl⟩ := mem_pagesAt hnew
    have hused := (h.flags j (by omega)).mpr ha
    rw [hfree j hj hj'] at hused
    cases hused
  case pages =>
    intro a ha
    rcases (hlive a).mp ha with hold | hnew
    · exact h.pages a hold
    · obtain ⟨j, -, hj, rfl⟩ := mem_pagesAt hnew
      exact ⟨j, Nat.lt_of_lt_of_le hj hn, rfl⟩
  case flags =>
    intro j hj
    show (if i ≤ j ∧ j < i + n then true else st.slab.slabFlags j) = true ↔
      st.slab.physicalMemoryBase + j * pageSize ∈ (st.live ++ [_]).flatten
    rw [hlive, mem_pagesAt_iff, ← h.flags j hj]
    by_cases hin : i ≤ j ∧ j < i + n <;> simp [hin]

/-- **Freed pages are no longer allocated.** -/
theorem Inv.release (h : Inv st) (freed : List Nat) :
    Inv { st with
      slab := st.slab.unmark freed
      live := st.live.map fun pages => pages.filter (· ∉ freed) } := by
  have hflat : (st.live.map fun pages => pages.filter (· ∉ freed)).flatten =
      st.livePages.filter (· ∉ freed) := (List.filter_flatten).symm
  have hlive : ∀ a, a ∈ (st.live.map fun pages => pages.filter (· ∉ freed)).flatten ↔
      a ∈ st.livePages ∧ a ∉ freed := by
    intro a
    rw [hflat, List.mem_filter, decide_eq_true_iff]
  constructor
  case aligned => exact h.aligned
  case base => exact h.base
  case fits => exact h.fits
  case bound => exact h.bound
  case flagsFit => exact h.flagsFit
  case disjoint =>
    show (st.live.map _).flatten.Nodup
    rw [hflat]
    exact h.disjoint.filter _
  case pages => exact fun a ha => h.pages a ((hlive a).mp ha).1
  case flags =>
    intro j hj
    show (if st.slab.physicalMemoryBase + j * pageSize ∈ freed then false
      else st.slab.slabFlags j) = true ↔
      st.slab.physicalMemoryBase + j * pageSize ∈ (st.live.map _).flatten
    rw [hlive, ← h.flags j hj]
    by_cases hin : st.slab.physicalMemoryBase + j * pageSize ∈ freed <;> simp [hin]

/-- **What a request does**: it halts, but not on a flag outside the reserved pages, or it
allocates a run of free pages, or it frees. -/
theorem Inv.exec_eq (h : Inv st) {req : Request} (hok : FreesLive st req) :
    (∃ e, req.exec st.slab = .error e ∧ e ≠ .overrun) ∨
    (∃ i n, i + n ≤ st.slab.physicalMemoryPages ∧ st.slab.FreeRun i n ∧ req.freed = [] ∧
      (∀ a, req.allocated a = [pagesAt a n]) ∧
      req.exec st.slab =
        .ok (st.slab.physicalMemoryBase + i * pageSize, st.slab.mark i n)) ∨
    ((∀ a, req.allocated a = []) ∧ req.exec st.slab = .ok (0, st.slab.unmark req.freed)) := by
  have hfit := h.flagsFit
  have hmax : st.slab.physicalMemoryPages ≤ uint64Max := by
    have hfits := h.fits
    have hbound := h.bound
    unfold pageSize at hfits
    unfold uint64Max
    omega
  -- the address of a run fits into 64 bits
  have hu64 : ∀ i n, i + n ≤ st.slab.physicalMemoryPages → 0 < n →
      u64 (st.slab.physicalMemoryBase + i * pageSize) =
        st.slab.physicalMemoryBase + i * pageSize :=
    fun i n hi hn => Nat.mod_eq_of_lt (h.page_lt (by omega))
  have hpage : ∀ a ∈ req.freed, ∃ i < st.slab.reserved, st.slab.IsPage a i := by
    intro a ha
    obtain ⟨i, hi, rfl⟩ := h.pages a (hok a ha)
    exact ⟨i, by omega, rfl, h.page_lt hi⟩
  cases req with
  | malloc4k =>
    rcases mallocFrom_eq (s := st.slab) 0 st.slab.physicalMemoryPages (by omega) with
      herr | ⟨i, hi, hfree, heq⟩
    · exact .inl ⟨_, herr, by decide⟩
    · rw [Nat.zero_add] at hi
      rw [hu64 i 1 hi Nat.one_pos] at heq
      exact .inr (.inl ⟨i, 1, hi, hfree, rfl, fun _ => rfl, heq⟩)
  | mallocContiguous numPages =>
    by_cases hn : 0 < numPages
    · rcases mallocContiguousPhys_eq hn hfit hmax with ⟨herr, -⟩ | ⟨i, hfirst, heq⟩
      · exact .inl ⟨_, herr, by decide⟩
      · rw [hu64 i numPages hfirst.inside hn] at heq
        exact .inr (.inl ⟨i, numPages, hfirst.inside, hfirst.free, rfl, fun _ => rfl, heq⟩)
    · refine .inl ⟨.assertion, ?_, by decide⟩
      rw [Request.exec, mallocContiguousPhys, ensure_of_not hn]
      rfl
  | free4k a =>
    obtain ⟨i, hi, hp⟩ := hpage a (List.mem_singleton.mpr rfl)
    refine .inr (.inr ⟨fun _ => rfl, ?_⟩)
    rw [Request.exec, free4kPhys_eq hp hi h.aligned]
    rfl
  | freeContiguous a n =>
    by_cases hn : 0 < n
    · refine .inr (.inr ⟨fun _ => rfl, ?_⟩)
      rw [Request.exec, freeContiguousPhys, ensure_of hn, ok_bind, freeRange_eq a n h.aligned hpage]
      rfl
    · refine .inl ⟨.assertion, ?_, by decide⟩
      rw [Request.exec, freeContiguousPhys, ensure_of_not hn]
      rfl

theorem Inv.step (h : Inv st) {ev : Request × Nat} (hok : FreesLive st ev.1)
    (hstep : allocator.step st ev st') : Inv st' := by
  obtain ⟨slab, hexec, rfl⟩ := hstep
  rcases h.exec_eq hok with ⟨e, herr, -⟩ | ⟨i, n, hi, hfree, hfreed, halloc, heq⟩ | ⟨halloc, heq⟩
  · rw [herr] at hexec
    cases hexec
  · rw [heq, Except.ok.injEq, Prod.mk.injEq] at hexec
    obtain ⟨haddr, rfl⟩ := hexec
    have hlive : st.live.map (fun pages => pages.filter (· ∉ ev.1.freed)) = st.live := by
      simp [hfreed]
    rw [hlive, halloc, ← haddr]
    exact h.allocate hi hfree
  · rw [heq, Except.ok.injEq, Prod.mk.injEq] at hexec
    obtain ⟨-, rfl⟩ := hexec
    rw [halloc, List.append_nil]
    exact h.release ev.1.freed

theorem flagPages_eq {size : Nat} (hsize : size ≤ 2 ^ 64) :
    roundUpPages (size / pageSize) = (size / pageSize + 4095) / 4096 ∧
      u64 (size / pageSize + 2 ^ 64 - (size / pageSize + 4095) / 4096) =
        size / pageSize - (size / pageSize + 4095) / 4096 := by
  constructor
  · unfold roundUpPages u64 pageSize
    rw [Nat.mod_eq_of_lt (by omega)]
    rfl
  · unfold u64 pageSize
    omega

/-- `init_physical_memory` stays inside the pages it reserves. -/
theorem initPhysicalMemory_ne_overrun {size : Nat} (base : Nat) (memory : Nat → Bool)
    (hsize : size ≤ 2 ^ 64) : initPhysicalMemory base size memory ≠ .error .overrun := by
  obtain ⟨hround, hpages⟩ := flagPages_eq hsize
  have hfit : size / pageSize - (size / pageSize + 4095) / 4096 ≤
      (size / pageSize + 4095) / 4096 * pageSize := by
    unfold pageSize
    omega
  unfold initPhysicalMemory
  simp only [hround, hpages]
  rw [ensure_of hfit, ok_bind]
  exact fun h => by cases h

/-- The pages for the flags are enough, and leave the rest inside the region. -/
theorem Inv.init (h : allocator.init st) : Inv st := by
  obtain ⟨hal, hbase, hbound, hlive, memory, hinit⟩ := h
  obtain ⟨hround, hpages⟩ := flagPages_eq (show st.size ≤ 2 ^ 64 by omega)
  unfold initPhysicalMemory at hinit
  simp only [bind_eq_ok, ensure_eq_ok, pure_eq_ok, Except.ok.injEq, hround, hpages] at hinit
  obtain ⟨-, hfit, hslab⟩ := hinit
  have hempty : st.livePages = [] := by rw [Allocator.livePages, hlive]; rfl
  constructor
  case aligned =>
    rw [← hslab]
    show u64 (st.base + (st.size / pageSize + 4095) / 4096 * pageSize) % pageSize = 0
    unfold u64 pageSize at *
    omega
  case base =>
    rw [← hslab]
    show 0 < st.size / pageSize - (st.size / pageSize + 4095) / 4096 →
      u64 (st.base + (st.size / pageSize + 4095) / 4096 * pageSize) =
        st.base + (st.size / pageSize + 4095) / 4096 * pageSize
    intro hpos
    unfold u64 pageSize at *
    omega
  case fits =>
    rw [← hslab]
    show (st.size / pageSize + 4095) / 4096 * pageSize +
      (st.size / pageSize - (st.size / pageSize + 4095) / 4096) * pageSize ≤ st.size
    unfold pageSize
    omega
  case bound => exact hbound
  case flagsFit =>
    rw [← hslab]
    exact hfit
  case disjoint =>
    rw [hempty]
    exact List.nodup_nil
  case pages =>
    intro a ha
    rw [hempty] at ha
    exact absurd ha List.not_mem_nil
  case flags =>
    intro i hi
    rw [hempty, ← hslab]
    rw [← hslab] at hi
    simp [show i < _ from hi]

/-- **The physical page allocator.**  After any sequence of requests that frees only
allocated pages, the live allocations are as promised, and the next request touches no flag
outside the reserved pages. -/
theorem slab_sound {st₀ st : Allocator} {l : List (Request × Nat)} (h0 : allocator.init st₀)
    (hrun : allocator.Run (fun st ev => FreesLive st ev.1) st₀ l st) :
    Sound st ∧ (∀ memory, initPhysicalMemory st.base st.size memory ≠ .error .overrun) ∧
      ∀ req, FreesLive st req → req.exec st.slab ≠ .error .overrun := by
  have hinv : Inv st := hrun.invariant (P := fun _ st => Inv st)
    (fun _ _ _ _ h hok hst => h.step hok hst) (.init h0)
  have hsize : st.size ≤ 2 ^ 64 := Nat.le_trans (Nat.le_add_left _ _) hinv.bound
  refine ⟨hinv.sound, fun memory => initPhysicalMemory_ne_overrun _ memory hsize, ?_⟩
  intro req hok
  rcases hinv.exec_eq hok with ⟨e, herr, hne⟩ | ⟨i, n, -, -, -, -, heq⟩ | ⟨-, heq⟩
  · rw [herr]
    exact fun he => hne (Except.error.inj he)
  · rw [heq]
    exact fun he => by cases he
  · rw [heq]
    exact fun he => by cases he

/-- Three pages of memory at one megabyte. -/
def threePages : Allocator where
  base := 0x100000
  size := 0x3000
  slab :=
    { physicalMemoryBase := 0x101000
      physicalMemoryPages := 2
      slabFlags := fun i => if i < 2 then false else true
      reserved := 0x1000 }
  live := []

theorem slab_sound_one_page :
    ∃ st, allocator.Run (fun st ev => FreesLive st ev.1) threePages [(.malloc4k, 0x101000)] st ∧
      st.live = [[0x101000]] ∧ Sound st := by
  have hpages : u64 (0x3000 / pageSize + 2 ^ 64 - roundUpPages (0x3000 / pageSize)) = 2 := by
    decide
  have hslab : initPhysicalMemory 0x100000 0x3000 (fun _ => true) = .ok threePages.slab := by
    unfold initPhysicalMemory
    simp only [hpages]
    rw [ensure_of (by decide), ok_bind]
    rfl
  have hinit : allocator.init threePages :=
    ⟨by decide, by decide, by decide, rfl, fun _ => true, hslab⟩
  have hok : FreesLive threePages Request.malloc4k := fun a ha => absurd ha List.not_mem_nil
  have hstep : allocator.step threePages (.malloc4k, 0x101000) _ := ⟨_, rfl, rfl⟩
  have hrun : allocator.Run (fun st ev => FreesLive st ev.1) threePages
      [(.malloc4k, 0x101000)] _ := Lts.Run.snoc (.nil _) hok hstep
  exact ⟨_, hrun, rfl, (slab_sound hinit hrun).1⟩

end

end Stuos.Phys
