import Stuos.Elf.Headers
import Stuos.Lib.Lts

/-!
# Any sequence of allocations and searches

The list of regions over whole runs of `allocate_virtual_range` and
`find_contiguous_virtual_range`, from the one free region that `instantiate_ELF` starts with.

Two branches of `elf.c` are only there in case the list is broken: the `HCF` on two free regions in
a row, and the merge.  `splitRegionAt` tells the halts of the first function apart, and
`mergesFrom` counts the merges of the second.

* `splitRegion_eq`, `findFrom_length`: what these two have to do with the functions.
* `region_tracker`: the list after every run.
-/

namespace Stuos.Elf

open Stuos.Lib Stuos.Memory

/-- Where the search of `allocate_virtual_range` halts. -/
inductive RangeHalt
  /-- the list is empty -/
  | noList
  /-- `curr->next == NULL` -/
  | noRegion
  /-- "this should never happen" -/
  | freeNeighbours
  /-- "tried to allocate an already-allocated region" -/
  | alreadyAllocated
  deriving DecidableEq

def RangeHalt.halt : RangeHalt → Halt
  | .noList => .pageFault
  | .noRegion => .hcf
  | .freeNeighbours => .hcf
  | .alreadyAllocated => .hcf

/-- `splitRegion`, with its halts told apart. -/
def splitRegionAt : List VirtualMemoryRegion → Nat → Nat →
    Except RangeHalt (List VirtualMemoryRegion)
  | [], _, _ => .error .noList
  | curr :: rest, pageStart, pageEnd =>
    if curr.startAddr ≤ pageStart ∧ pageEnd ≤ curr.endAddr then do
      ensure (curr.isFree = true) .alreadyAllocated
      .ok ({ curr with endAddr := pageStart } :: ⟨false, pageStart, pageEnd⟩ ::
        ⟨true, pageEnd, curr.endAddr⟩ :: rest)
    else
      match rest with
      | [] => .error .noRegion
      | next :: rest => do
        ensure (¬ (curr.isFree = true ∧ next.isFree = true)) .freeNeighbours
        let regions ← splitRegionAt (next :: rest) pageStart pageEnd
        .ok (curr :: regions)

/-- How often the loop of `find_contiguous_virtual_range` merges two regions, from `curr` on. -/
def mergesFrom (sizeBytes : Nat) (curr : VirtualMemoryRegion) (rest : List VirtualMemoryRegion) :
    Nat :=
  if curr.isFree = true ∧ sizeBytes ≤ curr.endAddr - curr.startAddr then 0
  else
    match rest with
    | [] => 0
    | next :: rest =>
      if curr.endAddr = next.startAddr ∧ curr.isFree = true ∧ next.isFree = true then
        mergesFrom sizeBytes { curr with endAddr := next.endAddr } rest + 1
      else mergesFrom sizeBytes next rest

def merges (regions : List VirtualMemoryRegion) (sizeBytes : Nat) : Nat :=
  match regions with
  | [] => 0
  | curr :: rest => mergesFrom sizeBytes curr rest

variable {hi lo s e size : Nat} {regions regions' rest : List VirtualMemoryRegion}
  {curr : VirtualMemoryRegion}

/-- **The halts are those of `splitRegion`.** -/
theorem splitRegion_eq (regions : List VirtualMemoryRegion) (s e : Nat) :
    splitRegion regions s e = (splitRegionAt regions s e).mapError RangeHalt.halt := by
  induction regions with
  | nil => rfl
  | cons curr rest ih =>
    rw [splitRegion.eq_def, splitRegionAt.eq_def]
    dsimp only
    by_cases hin : curr.startAddr ≤ s ∧ e ≤ curr.endAddr
    · rw [if_pos hin, if_pos hin]
      by_cases hfree : curr.isFree = true
      · rw [ensure_of hfree, ensure_of hfree]
        rfl
      · rw [ensure_of_not hfree, ensure_of_not hfree]
        rfl
    · rw [if_neg hin, if_neg hin]
      cases rest with
      | nil => rfl
      | cons next rest =>
        dsimp only
        by_cases hfree : curr.isFree = true ∧ next.isFree = true
        · rw [ensure_of_not (not_not.mpr hfree), ensure_of_not (not_not.mpr hfree)]
          rfl
        · rw [ensure_of hfree, ensure_of hfree, ok_bind, ok_bind, ih]
          cases splitRegionAt (next :: rest) s e with
          | error _ => rfl
          | ok _ => rfl

/-- **Every merge makes the list shorter** by one region, and nothing else does. -/
theorem findFrom_length {a : Nat} (hok : findFrom size curr rest = .ok (a, regions)) :
    regions.length + mergesFrom size curr rest = rest.length + 1 := by
  induction rest generalizing curr a regions with
  | nil =>
    rw [findFrom, bind_eq_ok] at hok
    obtain ⟨_, -, hok⟩ := hok
    rw [mergesFrom]
    split at hok
    · obtain ⟨-, rfl⟩ := Prod.mk.inj (Except.ok.inj hok)
      simp [*]
    · obtain ⟨-, rfl⟩ := Prod.mk.inj (Except.ok.inj hok)
      simp [*]
  | cons next rest ih =>
    rw [findFrom, bind_eq_ok] at hok
    obtain ⟨_, -, hok⟩ := hok
    rw [mergesFrom]
    by_cases hfound : curr.isFree = true ∧ size ≤ curr.endAddr - curr.startAddr
    · rw [if_pos hfound] at hok ⊢
      obtain ⟨-, rfl⟩ := Prod.mk.inj (Except.ok.inj hok)
      simp
    · rw [if_neg hfound] at hok ⊢
      by_cases hmerge : curr.endAddr = next.startAddr ∧ curr.isFree = true ∧ next.isFree = true
      · rw [if_pos hmerge] at hok ⊢
        have := ih hok
        rw [List.length_cons]
        omega
      · rw [if_neg hmerge] at hok ⊢
        simp only [bind_eq_ok, Except.ok.injEq, Prod.mk.injEq] at hok
        obtain ⟨r, hr, -, rfl⟩ := hok
        have := ih hr
        simp only [List.length_cons]
        omega

/-! ### Laid out lists -/

/-- **"This should never happen"** does not: no two free regions are neighbours. -/
theorem Laid.splitRegionAt_ne (h : Laid hi lo regions) (s e : Nat) :
    splitRegionAt regions s e ≠ .error .freeNeighbours := by
  induction h with
  | last _ _ =>
    rw [splitRegionAt]
    split
    · simp [ensure]
    · simp
  | @cons lo s₀ e₀ rest _ _ _ hrest ih =>
    obtain ⟨e₁, tail, rfl⟩ := hrest.head
    intro herr
    rw [splitRegionAt] at herr
    split at herr
    · simp [ensure] at herr
    · dsimp only at herr
      rw [ensure_of (by simp), ok_bind, splitRegionAt] at herr
      split at herr
      · simp [ensure] at herr
      · dsimp only at herr
        rw [ensure_of (by simp), ok_bind] at herr
        cases hrec : splitRegionAt (⟨true, e₀, e₁⟩ :: tail) s e with
        | ok _ =>
          rw [hrec] at herr
          cases herr
        | error halt =>
          rw [hrec] at herr
          obtain rfl := Except.error.inj herr
          exact ih hrec

/-- **Nothing is merged.** -/
theorem Laid.merges_eq_zero (h : Laid hi lo regions) (size : Nat) : merges regions size = 0 := by
  obtain ⟨a, hok, -⟩ := findContiguousVirtualRange_spec h size
  obtain ⟨e, rest, rfl⟩ := h.head
  have hlen := findFrom_length hok
  rw [List.length_cons] at hlen
  rw [merges]
  omega

/-- The allocated regions, in the order of the list. -/
def allocatedRanges (regions : List VirtualMemoryRegion) : List (Nat × Nat) :=
  (regions.filter fun r => !r.isFree).map fun r => (r.startAddr, r.endAddr)

/-- **An allocation** adds its range to the allocated ones. -/
theorem splitRegion_allocatedRanges (hok : splitRegion regions s e = .ok regions') :
    (allocatedRanges regions').Perm ((s, e) :: allocatedRanges regions) := by
  induction regions generalizing regions' with
  | nil => cases hok
  | cons curr rest ih =>
    rw [splitRegion.eq_def] at hok
    dsimp only at hok
    split at hok
    · simp only [bind_eq_ok, ensure_eq_ok, Except.ok.injEq] at hok
      obtain ⟨_, hfree, rfl⟩ := hok
      simp [allocatedRanges, hfree]
    · cases rest with
      | nil => cases hok
      | cons next rest =>
        simp only [bind_eq_ok, ensure_eq_ok, Except.ok.injEq] at hok
        obtain ⟨_, -, regions₁, hok, rfl⟩ := hok
        have hrest := ih hok
        cases hcurr : curr.isFree with
        | true =>
          simp only [allocatedRanges, List.filter_cons, hcurr] at hrest ⊢
          exact hrest
        | false =>
          simp only [allocatedRanges, List.filter_cons, hcurr] at hrest ⊢
          exact (hrest.cons _).trans (List.Perm.swap _ _ _)

theorem allocated_iff_mem_ranges {a : Nat} :
    Allocated regions a ↔ ∃ r ∈ allocatedRanges regions, r.1 ≤ a ∧ a < r.2 := by
  simp only [Allocated, allocatedRanges, List.mem_map, List.mem_filter, Bool.not_eq_true']
  constructor
  · rintro ⟨r, hr, hfree, h1, h2⟩
    exact ⟨_, ⟨r, ⟨hr, hfree⟩, rfl⟩, h1, h2⟩
  · rintro ⟨_, ⟨r, ⟨hr, hfree⟩, rfl⟩, h1, h2⟩
    exact ⟨r, hr, hfree, h1, h2⟩

/-! ### Runs -/

/-- The list, and the ranges that have been requested, the last one first. -/
structure Tracked where
  regions : List VirtualMemoryRegion
  requested : List (Nat × Nat)

inductive TrackerCall
  | allocate (pageStart pageEnd : Nat)
  | find (sizeBytes : Nat)

inductive Tracked.Step (t : Tracked) : TrackerCall → Tracked → Prop
  | allocate {pageStart pageEnd : Nat} {l : List VirtualMemoryRegion} : pageStart ≤ pageEnd →
      pageSize ∣ pageStart → pageSize ∣ pageEnd → splitRegion t.regions pageStart pageEnd = .ok l →
      Step t (.allocate pageStart pageEnd) ⟨l, (pageStart, pageEnd) :: t.requested⟩
  | find {sizeBytes a : Nat} {l : List VirtualMemoryRegion} :
      findContiguousVirtualRange t.regions sizeBytes = .ok (a, l) →
      Step t (.find sizeBytes) ⟨l, t.requested⟩

/-- The calls that return, from the one free region on. -/
def tracker : Lts Tracked TrackerCall where
  init t := t = ⟨initialRegions, []⟩
  step := Tracked.Step

/-- No address is in both ranges. -/
def DisjointRanges (r r' : Nat × Nat) : Prop := ∀ a, r.1 ≤ a → a < r.2 → ¬ (r'.1 ≤ a ∧ a < r'.2)

structure Tracked.Inv (t : Tracked) : Prop where
  laid : Laid 0x00007FFFFFFFFFFF pageSize t.regions
  allocated : (allocatedRanges t.regions).Perm t.requested
  disjoint : t.requested.Pairwise DisjointRanges

/-- **One call.** -/
theorem Tracked.Inv.step {t t' : Tracked} {call : TrackerCall} (h : t.Inv)
    (hstep : Tracked.Step t call t') : t'.Inv := by
  cases hstep with
  | allocate hse _ he hok =>
    obtain ⟨hlaid, -, -, hfresh, -⟩ := splitRegion_spec h.laid hse he hok
    refine ⟨hlaid, ?_, ?_⟩
    · exact (splitRegion_allocatedRanges hok).trans (h.allocated.cons _)
    · refine List.pairwise_cons.mpr ⟨fun r hr a h1 h2 hin => ?_, h.disjoint⟩
      -- the range was free, and `r` was not
      refine hfresh a h1 h2 (allocated_iff_mem_ranges.mpr ⟨r, ?_, hin⟩)
      exact h.allocated.mem_iff.mpr hr
  | @find size a l hok =>
    obtain ⟨a', hok', -⟩ := findContiguousVirtualRange_spec h.laid size
    obtain ⟨-, rfl⟩ := Prod.mk.inj (Except.ok.inj (hok.symm.trans hok'))
    exact h

theorem tracker_inv {t : Tracked} (h : tracker.Reachable t) : t.Inv := by
  refine h.invariant (P := Tracked.Inv) ?_ ?_
  · rintro t rfl
    exact ⟨laid_initialRegions, List.Perm.refl _, List.Pairwise.nil⟩
  · exact fun t call t' hinv hstep => hinv.step hstep

/-- **The list of regions** after any sequence of calls that return: free and allocated regions in
turn, end to end over the lower half, where the allocated ones are the ranges that were requested
and no two of these meet.  A search leaves the list as it is and returns the start of a free region
of the size, or `NULL` if there is none.  The branches for a broken list are not taken. -/
theorem region_tracker {t : Tracked} (h : tracker.Reachable t) :
    Laid 0x00007FFFFFFFFFFF pageSize t.regions ∧
    (allocatedRanges t.regions).Perm t.requested ∧ t.requested.Pairwise DisjointRanges ∧
    (∀ size, ∃ a, findContiguousVirtualRange t.regions size = .ok (a, t.regions) ∧
      merges t.regions size = 0 ∧
      ((a ≠ 0 ∧ ∃ r ∈ t.regions, r.isFree = true ∧ r.startAddr = a ∧ a + size ≤ r.endAddr) ∨
        (a = 0 ∧ ∀ r ∈ t.regions, r.isFree = true → r.endAddr < r.startAddr + size))) ∧
    ∀ s e, splitRegionAt t.regions s e ≠ .error .freeNeighbours := by
  have hinv := tracker_inv h
  refine ⟨hinv.laid, hinv.allocated, hinv.disjoint, fun size => ?_,
    hinv.laid.splitRegionAt_ne⟩
  obtain ⟨a, hok, hspec⟩ := findContiguousVirtualRange_spec hinv.laid size
  refine ⟨a, hok, hinv.laid.merges_eq_zero size, hspec.imp_left fun ⟨r, hr, hfree, ha, hroom, _⟩ => ?_⟩
  have hlow := (hinv.laid.free_region hr hfree).2.1
  refine ⟨?_, r, hr, hfree, ha, hroom⟩
  unfold pageSize at hlow
  omega

/-- Two pages with one between them. -/
theorem region_tracker_two_pages :
    ∃ t, tracker.Reachable t ∧ t.requested = [(0x403000, 0x404000), (0x401000, 0x402000)] ∧
      (allocatedRanges t.regions).Perm t.requested := by
  have r0 : tracker.Reachable ⟨initialRegions, []⟩ := .init rfl
  have r1 := r0.step (a := TrackerCall.allocate 0x401000 0x402000)
    (Tracked.Step.allocate (by decide) (by decide) (by decide) rfl)
  have r2 := r1.step (a := TrackerCall.allocate 0x403000 0x404000)
    (Tracked.Step.allocate (by decide) (by decide) (by decide) rfl)
  exact ⟨_, r2, rfl, (region_tracker r2).2.1⟩

end Stuos.Elf
