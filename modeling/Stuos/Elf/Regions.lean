import Stuos.Memory.PageTables

/-!
# The regions of a new address space

`elf.c` keeps a linked list of the regions of the lower half while it sets up a program.
`allocate_virtual_range` takes a range out of a free region, which falls into the part in front of
it, the range and the part behind it; `find_contiguous_virtual_range` is a first-fit search.

`Laid hi lo regions` is what the list is as long as no range runs backwards: free and allocated
regions in turn, end to end from `lo` to `hi`.

* `splitRegion_spec`, `splitRegion_total`: what an allocation does, and when it is accepted.
* `findContiguousVirtualRange_spec`: the search leaves the list as it is, since no two free regions
  are neighbours.
-/

namespace Stuos.Elf

open Stuos.Lib Stuos.Memory

/-- `x & ~PAGE_MASK`. -/
def alignDown (x : Nat) : Nat := x / pageSize * pageSize

structure VirtualMemoryRegion where
  isFree : Bool
  startAddr : Nat
  /-- exclusive -/
  endAddr : Nat
  deriving DecidableEq, Repr

/-- The search and the update of the list in `allocate_virtual_range`. -/
def splitRegion : List VirtualMemoryRegion → Nat → Nat → Except Halt (List VirtualMemoryRegion)
  | [], _, _ => .error .pageFault
  | curr :: rest, pageStart, pageEnd =>
    if curr.startAddr ≤ pageStart ∧ pageEnd ≤ curr.endAddr then do
      ensure (curr.isFree = true) .hcf
      .ok ({ curr with endAddr := pageStart } :: ⟨false, pageStart, pageEnd⟩ ::
        ⟨true, pageEnd, curr.endAddr⟩ :: rest)
    else
      match rest with
      | [] => .error .hcf
      | next :: rest => do
        ensure (¬ (curr.isFree = true ∧ next.isFree = true)) .hcf
        let regions ← splitRegion (next :: rest) pageStart pageEnd
        .ok (curr :: regions)

/-- The values of `page_ptr` in the loop of `allocate_virtual_range`. -/
def pageRange (pageStart pageEnd : Nat) : List Nat :=
  (List.range ((pageEnd - pageStart) / pageSize)).map fun i => pageStart + pageSize * i

/-- The loop of `find_contiguous_virtual_range` from `curr` on: the address, or 0, and the list, in
which free neighbours have been merged on the way. -/
def findFrom (sizeBytes : Nat) (curr : VirtualMemoryRegion) (rest : List VirtualMemoryRegion) :
    Except Halt (Nat × List VirtualMemoryRegion) := do
  ensure (curr.startAddr ≤ curr.endAddr) .hcf
  if curr.isFree = true ∧ sizeBytes ≤ curr.endAddr - curr.startAddr then
    .ok (curr.startAddr, curr :: rest)
  else
    match rest with
    | [] => .ok (0, [curr])
    | next :: rest =>
      if curr.endAddr = next.startAddr ∧ curr.isFree = true ∧ next.isFree = true then
        findFrom sizeBytes { curr with endAddr := next.endAddr } rest
      else do
        let r ← findFrom sizeBytes next rest
        .ok (r.1, curr :: r.2)

def findContiguousVirtualRange (regions : List VirtualMemoryRegion) (sizeBytes : Nat) :
    Except Halt (Nat × List VirtualMemoryRegion) :=
  match regions with
  | [] => .error .pageFault
  | curr :: rest => findFrom sizeBytes curr rest

/-! ### The list -/

/-- Free and allocated regions in turn, end to end from `lo` to `hi`, at page boundaries. -/
inductive Laid (hi : Nat) : Nat → List VirtualMemoryRegion → Prop
  | last {lo : Nat} : pageSize ∣ lo → lo ≤ hi → Laid hi lo [⟨true, lo, hi⟩]
  | cons {lo s e : Nat} {rest : List VirtualMemoryRegion} : pageSize ∣ lo → lo ≤ s → s ≤ e →
      Laid hi e rest → Laid hi lo (⟨true, lo, s⟩ :: ⟨false, s, e⟩ :: rest)

/-- The address is in an allocated region. -/
def Allocated (regions : List VirtualMemoryRegion) (a : Nat) : Prop :=
  ∃ r ∈ regions, r.isFree = false ∧ r.startAddr ≤ a ∧ a < r.endAddr

/-- No allocated region is empty. -/
def NoneEmpty (regions : List VirtualMemoryRegion) : Prop :=
  ∀ r ∈ regions, r.isFree = false → r.startAddr < r.endAddr

/-- The range is in one free region. -/
def FreeRange (regions : List VirtualMemoryRegion) (s e : Nat) : Prop :=
  ∃ r ∈ regions, r.isFree = true ∧ r.startAddr ≤ s ∧ e ≤ r.endAddr

variable {hi lo s e a size : Nat} {regions regions' rest : List VirtualMemoryRegion}

@[simp] theorem allocated_nil : ¬ Allocated [] a := by
  rintro ⟨r, hr, -⟩
  cases hr

@[simp] theorem allocated_free {lo e : Nat} :
    Allocated (⟨true, lo, e⟩ :: rest) a ↔ Allocated rest a := by
  simp [Allocated]

@[simp] theorem allocated_taken :
    Allocated (⟨false, s, e⟩ :: rest) a ↔ (s ≤ a ∧ a < e) ∨ Allocated rest a := by
  simp [Allocated]

theorem Laid.le (h : Laid hi lo regions) : lo ≤ hi := by
  induction h with
  | last _ hle => exact hle
  | cons _ h1 h2 _ ih => omega

theorem Laid.dvd (h : Laid hi lo regions) : pageSize ∣ lo := by
  cases h with
  | last hd _ => exact hd
  | cons hd _ _ _ => exact hd

theorem Laid.head (h : Laid hi lo regions) : ∃ e rest, regions = ⟨true, lo, e⟩ :: rest := by
  cases h with
  | last _ _ => exact ⟨hi, [], rfl⟩
  | cons _ _ _ _ => exact ⟨_, _, rfl⟩

theorem Laid.allocated_bounds (h : Laid hi lo regions) (ha : Allocated regions a) :
    lo ≤ a ∧ a < hi := by
  induction h with
  | last _ _ => simp at ha
  | @cons lo s e rest _ h1 h2 hrest ih =>
    rw [allocated_free, allocated_taken] at ha
    have := hrest.le
    rcases ha with ha | ha
    · omega
    · have := ih ha
      omega

/-- **A free region** is within the bounds, starts at a page and holds no allocated address. -/
theorem Laid.free_region (h : Laid hi lo regions) {r : VirtualMemoryRegion} (hr : r ∈ regions)
    (hfree : r.isFree = true) :
    pageSize ∣ r.startAddr ∧ lo ≤ r.startAddr ∧ r.endAddr ≤ hi ∧
      ∀ a, r.startAddr ≤ a → a < r.endAddr → ¬ Allocated regions a := by
  induction h with
  | last hd hle =>
    obtain rfl := List.mem_singleton.mp hr
    refine ⟨hd, le_refl _, le_refl _, fun a _ _ ha => ?_⟩
    simp at ha
  | @cons lo s e rest hd h1 h2 hrest ih =>
    have hle := hrest.le
    rcases List.mem_cons.mp hr with rfl | hr
    · refine ⟨hd, le_refl _, by dsimp only; omega, fun a _ hlt ha => ?_⟩
      dsimp only at hlt
      rw [allocated_free, allocated_taken] at ha
      rcases ha with ha | ha
      · omega
      · have := (hrest.allocated_bounds ha).1
        omega
    · rcases List.mem_cons.mp hr with rfl | hr
      · cases hfree
      · obtain ⟨hd', hlo, hhi, hnone⟩ := ih hr
        refine ⟨hd', by omega, hhi, fun a hge hlt ha => ?_⟩
        rw [allocated_free, allocated_taken] at ha
        rcases ha with ha | ha
        · omega
        · exact hnone a hge hlt ha

/-! ### Allocating a range -/

/-- The search goes on behind an allocated region, which it does not take. -/
theorem splitRegion_pair {s₀ e₀ : Nat} (hrest : Laid hi e₀ rest) (hfirst : ¬ (lo ≤ s ∧ e ≤ s₀)) :
    splitRegion (⟨true, lo, s₀⟩ :: ⟨false, s₀, e₀⟩ :: rest) s e =
      if s₀ ≤ s ∧ e ≤ e₀ then .error .hcf
      else (splitRegion rest s e).map fun regions =>
        ⟨true, lo, s₀⟩ :: ⟨false, s₀, e₀⟩ :: regions := by
  obtain ⟨e₁, tail, rfl⟩ := hrest.head
  rw [splitRegion, if_neg hfirst]
  dsimp only
  rw [ensure_of (by simp), ok_bind, splitRegion]
  split
  · rfl
  · dsimp only
    rw [ensure_of (by simp), ok_bind]
    cases splitRegion (⟨true, e₀, e₁⟩ :: tail) s e with
    | error _ => rfl
    | ok _ => rfl

/-- **An allocation that is accepted** adds its range, which was free, and the list stays laid
out. -/
theorem splitRegion_spec (h : Laid hi lo regions) (hse : s ≤ e) (he : pageSize ∣ e)
    (hok : splitRegion regions s e = .ok regions') :
    Laid hi lo regions' ∧ lo ≤ s ∧ e ≤ hi ∧ (∀ a, s ≤ a → a < e → ¬ Allocated regions a) ∧
      ∀ a, Allocated regions' a ↔ Allocated regions a ∨ (s ≤ a ∧ a < e) := by
  induction h generalizing regions' with
  | @last lo hd hle =>
    rw [splitRegion] at hok
    split at hok
    · rename_i hin
      obtain rfl : _ = regions' := by simpa [ensure] using hok
      refine ⟨.cons hd hin.1 hse (.last he hin.2), hin.1, hin.2, fun a _ _ ha => ?_, fun a => ?_⟩
      · simp at ha
      · simp
    · cases hok
  | @cons lo s₀ e₀ rest hd h1 h2 hrest ih =>
    have hle := hrest.le
    by_cases hfirst : lo ≤ s ∧ e ≤ s₀
    · -- in the free region in front
      rw [splitRegion, if_pos hfirst] at hok
      obtain rfl : _ = regions' := by simpa [ensure] using hok
      refine ⟨.cons hd hfirst.1 hse (.cons he hfirst.2 h2 hrest), hfirst.1, by omega,
        fun a hge hlt ha => ?_, fun a => ?_⟩
      · rw [allocated_free, allocated_taken] at ha
        rcases ha with ha | ha
        · omega
        · have := (hrest.allocated_bounds ha).1
          omega
      · simp only [allocated_free, allocated_taken]
        exact or_comm
    · rw [splitRegion_pair hrest hfirst] at hok
      split at hok
      · cases hok
      · obtain ⟨regions₁, hsplit, rfl⟩ := map_eq_ok.mp hok
        obtain ⟨hlaid, hlo, hhi, hfree, hiff⟩ := ih hsplit
        refine ⟨.cons hd h1 h2 hlaid, by omega, hhi, fun a hge hlt ha => ?_, fun a => ?_⟩
        · rw [allocated_free, allocated_taken] at ha
          rcases ha with ha | ha
          · omega
          · exact hfree a hge hlt ha
        · simp only [allocated_free, allocated_taken, hiff]
          exact or_assoc.symm

theorem splitRegion_noneEmpty (hne : NoneEmpty regions) (hse : s < e)
    (hok : splitRegion regions s e = .ok regions') : NoneEmpty regions' := by
  induction regions generalizing regions' with
  | nil => cases hok
  | cons curr rest ih =>
    rw [splitRegion.eq_def] at hok
    dsimp only at hok
    split at hok
    · simp only [bind_eq_ok, ensure_eq_ok, Except.ok.injEq] at hok
      obtain ⟨_, hcurr, rfl⟩ := hok
      intro r hr hfree
      simp only [List.mem_cons] at hr
      rcases hr with rfl | rfl | rfl | hr
      · simp [hcurr] at hfree
      · exact hse
      · cases hfree
      · exact hne r (by simp [hr]) hfree
    · cases rest with
      | nil => cases hok
      | cons next rest =>
        simp only [bind_eq_ok, ensure_eq_ok, Except.ok.injEq] at hok
        obtain ⟨_, -, regions₁, hok, rfl⟩ := hok
        have htail := ih (fun r hr => hne r (List.mem_cons_of_mem _ hr)) hok
        intro r hr hfree
        rcases List.mem_cons.mp hr with rfl | hr
        · exact hne r (by simp) hfree
        · exact htail r hr hfree

/-- **A range in one free region is accepted.** -/
theorem splitRegion_total (h : Laid hi lo regions) (hse : s < e) (hin : FreeRange regions s e) :
    ∃ regions', splitRegion regions s e = .ok regions' := by
  induction h with
  | last _ _ =>
    obtain ⟨r, hr, -, h1, h2⟩ := hin
    obtain rfl := List.mem_singleton.mp hr
    exact ⟨_, by rw [splitRegion, if_pos ⟨h1, h2⟩]; rfl⟩
  | @cons lo s₀ e₀ rest hd h1 h2 hrest ih =>
    by_cases hfirst : lo ≤ s ∧ e ≤ s₀
    · exact ⟨_, by rw [splitRegion, if_pos hfirst]; rfl⟩
    · have hin' : FreeRange rest s e ∧ e₀ ≤ s := by
        obtain ⟨r, hr, hfree, hs, he⟩ := hin
        simp only [List.mem_cons] at hr
        rcases hr with rfl | rfl | hr
        · exact absurd ⟨hs, he⟩ hfirst
        · cases hfree
        · have := (hrest.free_region hr hfree).2.1
          exact ⟨⟨r, hr, hfree, hs, he⟩, by omega⟩
      obtain ⟨regions', hok⟩ := ih hin'.1
      rw [splitRegion_pair hrest hfirst, if_neg (by omega), hok]
      exact ⟨_, rfl⟩

/-- If no allocated region is empty, a range without allocated addresses is in one free region. -/
theorem Laid.freeRange (h : Laid hi lo regions) (hne : NoneEmpty regions) (hse : s < e)
    (hlo : lo ≤ s) (hhi : e ≤ hi) (hfree : ∀ a, s ≤ a → a < e → ¬ Allocated regions a) :
    FreeRange regions s e := by
  induction h with
  | last _ _ => exact ⟨_, List.mem_cons_self, rfl, hlo, hhi⟩
  | @cons lo s₀ e₀ rest hd h1 h2 hrest ih =>
    have hlt : s₀ < e₀ := hne ⟨false, s₀, e₀⟩ (by simp) rfl
    by_cases hfirst : e ≤ s₀
    · exact ⟨_, List.mem_cons_self, rfl, hlo, hfirst⟩
    · have hsecond : e₀ ≤ s := by
        by_contra hcon
        -- the later of the two starts is in both
        refine hfree (max s s₀) (by omega) (by omega) ?_
        rw [allocated_free, allocated_taken]
        omega
      obtain ⟨r, hr, hrest⟩ := ih (fun r hr => hne r (by simp [hr])) hsecond fun a hge hlt ha =>
        hfree a hge hlt (by
          rw [allocated_free, allocated_taken]
          exact Or.inr ha)
      exact ⟨r, by simp [hr], hrest⟩

/-! ### Searching -/

/-- **`find_contiguous_virtual_range`** finds the start of the first free region with enough room, if
there is one, and merges nothing. -/
theorem findContiguousVirtualRange_spec (h : Laid hi lo regions) (size : Nat) :
    ∃ a, findContiguousVirtualRange regions size = .ok (a, regions) ∧
      ((∃ r ∈ regions, r.isFree = true ∧ r.startAddr = a ∧ a + size ≤ r.endAddr ∧
          ∀ r' ∈ regions, r'.isFree = true → r'.startAddr + size ≤ r'.endAddr →
            a ≤ r'.startAddr) ∨
        (a = 0 ∧ ∀ r ∈ regions, r.isFree = true → r.endAddr < r.startAddr + size)) := by
  induction h with
  | @last lo hd hle =>
    rw [findContiguousVirtualRange, findFrom, ensure_of hle, ok_bind]
    by_cases hroom : size ≤ hi - lo
    · refine ⟨lo, by rw [if_pos ⟨rfl, hroom⟩], Or.inl ⟨_, List.mem_cons_self, rfl, rfl, ?_,
        fun r hr _ _ => ?_⟩⟩
      · dsimp only
        omega
      · obtain rfl := List.mem_singleton.mp hr
        exact le_refl _
    · refine ⟨0, by rw [if_neg (by simpa using hroom)], Or.inr ⟨rfl, fun r hr _ => ?_⟩⟩
      obtain rfl := List.mem_singleton.mp hr
      dsimp only
      omega
  | @cons lo s₀ e₀ rest hd h1 h2 hrest ih =>
    rw [findContiguousVirtualRange, findFrom, ensure_of h1, ok_bind]
    by_cases hroom : size ≤ s₀ - lo
    · refine ⟨lo, by rw [if_pos ⟨rfl, hroom⟩], Or.inl ⟨_, List.mem_cons_self, rfl, rfl, ?_,
        fun r hr hfree _ => ?_⟩⟩
      · dsimp only
        omega
      · exact ((Laid.cons hd h1 h2 hrest).free_region hr hfree).2.1
    · obtain ⟨a, hok, hspec⟩ := ih
      obtain ⟨e₁, tail, rfl⟩ := hrest.head
      refine ⟨a, ?_, ?_⟩
      · -- past the free region, and past the allocated one behind it
        rw [findContiguousVirtualRange] at hok
        rw [if_neg (by simpa using hroom)]
        dsimp only
        rw [if_neg (by simp), findFrom, ensure_of h2, ok_bind, if_neg (by simp)]
        dsimp only
        rw [if_neg (by simp), hok]
        rfl
      · rcases hspec with ⟨r, hr, hfree, hstart, henough, hfirst⟩ | ⟨ha, hspec⟩
        · refine Or.inl ⟨r, by simp [List.mem_cons.mp hr], hfree, hstart, henough,
            fun r' hr' hfree' hroom' => ?_⟩
          simp only [List.mem_cons] at hr'
          rcases hr' with rfl | rfl | hr'
          · dsimp only at hroom'
            omega
          · cases hfree'
          · exact hfirst r' (List.mem_cons.mpr hr') hfree' hroom'
        · refine Or.inr ⟨ha, fun r hr hfree => ?_⟩
          simp only [List.mem_cons] at hr
          rcases hr with rfl | rfl | hr
          · dsimp only
            omega
          · cases hfree
          · exact hspec r (List.mem_cons.mpr hr) hfree

/-- In front of a free region that is not the first there is an allocated address. -/
theorem Laid.allocated_before (h : Laid hi lo regions) (hne : NoneEmpty regions)
    {r : VirtualMemoryRegion} (hr : r ∈ regions) (hfree : r.isFree = true) (hlo : lo < r.startAddr) :
    Allocated regions (r.startAddr - 1) := by
  induction h with
  | last _ _ =>
    obtain rfl := List.mem_singleton.mp hr
    exact absurd hlo (lt_irrefl _)
  | @cons lo s₀ e₀ rest hd h1 h2 hrest ih =>
    have hlt : s₀ < e₀ := hne ⟨false, s₀, e₀⟩ (by simp) rfl
    rw [allocated_free, allocated_taken]
    simp only [List.mem_cons] at hr
    rcases hr with rfl | rfl | hr
    · exact absurd hlo (lt_irrefl _)
    · cases hfree
    · by_cases hfirst : r.startAddr = e₀
      · omega
      · have hge := (hrest.free_region hr hfree).2.1
        exact Or.inr (ih (fun r hr => hne r (by simp [hr])) hr (by omega))

end Stuos.Elf
