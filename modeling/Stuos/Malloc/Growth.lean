import Stuos.Malloc.Runs
import Stuos.Memory.Programs

/-!
# Growing the heap of a process

`_malloc_expand_heap` of `init.c` over `syscall_request_page` and the page tables of
`memory.c`: the pages behind the end of the heap are requested one by one until one is
denied.  `denies` says which of the requests, counted from the start of the process, the
limit check answers with `ENOMEM`.

* `requestPage_cases`, `requestLoop_cases`, `mallocExpandHeap_cases`: the granted pages go
  on where the last ones ended.
* `mallocIn_cases`, `reallocIn_cases`: a call either runs the kernel out of frames or does
  what the allocator does with some number of pages.
* `heap_growth`: in every reachable state the granted pages are those of the heap.
-/

namespace Stuos.Malloc

open Stuos.Lib Stuos.Memory

/-- What stops a process or the kernel under it. -/
inductive Stop
  /-- `abort()` in `_malloc_expand_heap`. -/
  | abort
  | allocator (h : Malloc.Halt)
  | kernel (h : Memory.Halt)

/-- The kernel as one process sees it.  `roots`, `frames` and `granted` are only kept for the
statements: the address spaces, the frames of the kernel itself, and the pages granted so
far, oldest first. -/
structure Kernel where
  machine : Machine
  roots : List Nat
  frames : List Nat
  /-- The number of requests so far. -/
  requests : Nat
  granted : List Nat

/-- A step of the allocator that stays in the process. -/
def inProcess {α : Type} (x : Except Malloc.Halt α) : Except Stop α := x.mapError Stop.allocator

/-! ### The functions -/

section

variable (denies : Nat → Bool)

/-- `syscall_request_page`: false is `ENOMEM`. -/
def requestPage (k : Kernel) (pageVirtAddr : Nat) : Except Stop (Bool × Kernel) :=
  if denies k.requests then .ok (false, { k with requests := k.requests + 1 })
  else do
    let m ← (allocateRamPage k.machine pageVirtAddr false).mapError Stop.kernel
    .ok (true, { k with
      machine := m
      requests := k.requests + 1
      granted := k.granted ++ [pageVirtAddr] })

/-- The loop of `_malloc_expand_heap` from page `i` on. -/
def requestLoop (heapEnd : Nat) : Nat → Nat → Kernel → Except Stop (Nat × Kernel)
  | 0, i, k => .ok (u64 (4096 * i), k)
  | rounds + 1, i, k => do
    let r ← requestPage denies k (u64 (heapEnd + u64 (4096 * i)))
    if r.1 then requestLoop heapEnd rounds (i + 1) r.2 else .ok (u64 (4096 * i), r.2)

/-- `_malloc_expand_heap`: the number of bytes mapped. -/
def mallocExpandHeap (heapEnd bytes : Nat) (k : Kernel) : Except Stop (Nat × Kernel) := do
  ensure (heapEnd % 4096 = 0) .abort
  let roundedUpPages := u64 (bytes + 4095) / 4096
  requestLoop denies heapEnd roundedUpPages 0 k

/-- `makeFree`, with the expansion made by the kernel. -/
def makeFreeIn (h : Heap) (size : Nat) (k : Kernel) : Except Stop (Nat × Heap × Kernel) := do
  let last ← inProcess (lastSize h)
  let remainingToRequest := u64 (size + 2 ^ 64 - last)
  let x ← mallocExpandHeap denies h.heapEnd (u64 (remainingToRequest + 16)) k
  let r ← inProcess (makeFree h size fun _ _ => x.1)
  .ok (r.1, r.2, x.2)

def findOrMakeFreeIn (h : Heap) (size : Nat) (k : Kernel) :
    Except Stop (Nat × Heap × Kernel) := do
  let r ← inProcess (findLoop size (h.heapEnd + 1) h h.head)
  match r.1 with
  | some cursor => .ok (cursor, r.2, k)
  | none => makeFreeIn denies r.2 size k

def mallocIn (h : Heap) (size : Nat) (k : Kernel) : Except Stop (Nat × Heap × Kernel) :=
  if size = 0 then .ok (0, h, k)
  else do
    let r ← findOrMakeFreeIn denies h (alignSize size) k
    if r.1 = 0 then .ok (0, r.2)
    else do
      let x ← inProcess (reserve r.2.1 (alignSize size) r.1)
      .ok (x.1, x.2, r.2.2)

def reallocIn (h : Heap) (ptr size : Nat) (k : Kernel) : Except Stop (Nat × Heap × Kernel) := do
  let r ← mallocIn denies h size k
  if ptr = 0 ∨ r.1 = 0 then .ok r
  else do
    let currSize ← inProcess (lliRegionSize r.2.1.mem (headerOf ptr) r.2.1.heapEnd)
    let smallest := if currSize > size then size else currSize
    let h := { r.2.1 with mem := r.2.1.mem.write r.1 (r.2.1.mem.read ptr smallest) }
    let h ← inProcess (Malloc.free h ptr)
    .ok (r.1, h, r.2.2)

/-- `stuos_libc_init`, which sets the heap up at `heap_start`. -/
def stuosLibcInit (mem : Mem) (heapStart : Nat) (k : Kernel) : Except Stop (Heap × Kernel) := do
  let x ← mallocExpandHeap denies heapStart 16 k
  let h ← inProcess (initMemoryAllocator mem heapStart fun _ _ => x.1)
  .ok (h, x.2)

end

/-! ### The transition system -/

/-- A process: its heap, the blocks it holds, and the kernel. -/
structure Process where
  heap : Heap
  live : List (Nat × Nat)
  kernel : Kernel

/-- The allocator's view. -/
def Process.system (s : Process) : System := ⟨s.heap, s.live⟩

inductive Request
  | malloc (size : Nat)
  | free (ptr : Nat)
  | realloc (ptr size : Nat)
  | store (addr : Nat) (bytes : List UInt8)
  | outside (mem : Mem)
  /-- Other processes and the kernel run. -/
  | others (m : Machine) (roots frames : List Nat)

/-- What happens to the machine while the process does not run: its own pages stay. -/
structure Undisturbed (k : Kernel) (m : Machine) (roots frames : List Nat) : Prop where
  pages : m.pages = k.machine.pages
  cr3 : m.cr3 = k.machine.cr3
  accounted : Accounted m roots frames
  current : m.cr3 ∈ roots
  reach : ∀ p, Lower p → reach m m.cr3 p = reach k.machine m.cr3 p

/-- What the process may ask for: sizes that can be rounded up, pointers it holds. -/
def Request.Admissible (heapStart : Nat) (s : Process) : Request → Prop
  | .malloc size => size + 31 < 2 ^ 64
  | .free ptr => Passable s.live ptr
  | .realloc ptr size => Passable s.live ptr ∧ size + 31 < 2 ^ 64
  | .store addr bytes => ∃ b ∈ s.live, b.1 ≤ addr ∧ addr + bytes.length ≤ b.1 + b.2
  | .outside mem => ∀ i, heapStart ≤ i → i < s.heap.heapEnd → mem i = s.heap.mem i
  | .others m roots frames => Undisturbed s.kernel m roots frames

def Request.exec (denies : Nat → Bool) (s : Process) : Request → Except Stop (Nat × Process)
  | .malloc size => do
    let r ← mallocIn denies s.heap size s.kernel
    .ok (r.1, ⟨r.2.1, if r.1 = 0 then s.live else (r.1, size) :: s.live, r.2.2⟩)
  | .free ptr => do
    let h ← inProcess (Malloc.free s.heap ptr)
    .ok (0, ⟨h, release s.live ptr, s.kernel⟩)
  | .realloc ptr size => do
    let r ← reallocIn denies s.heap ptr size s.kernel
    .ok (r.1, ⟨r.2.1, if r.1 = 0 then s.live else (r.1, size) :: release s.live ptr, r.2.2⟩)
  | .store addr bytes =>
    .ok (0, { s with heap := { s.heap with mem := s.heap.mem.write addr bytes } })
  | .outside mem => .ok (0, { s with heap := { s.heap with mem := mem } })
  | .others m roots frames =>
    .ok (0, { s with kernel := { s.kernel with machine := m, roots := roots, frames := frames } })

/-- What `instantiate_ELF` leaves: `find_contiguous_virtual_range(.., ram_size_bytes())` has
found that many bytes at `heap_start` that are not mapped. -/
structure Loaded (heapStart : Nat) (k : Kernel) : Prop where
  accounted : Accounted k.machine k.roots k.frames
  current : k.machine.cr3 ∈ k.roots
  aligned : heapStart % 4096 = 0
  pos : 0 < heapStart
  range : heapStart + 4096 * k.machine.pages ≤ 0x00007FFFFFFFFFFF
  unmapped : ∀ i < k.machine.pages,
    reach k.machine k.machine.cr3 (pathOf (heapStart + 4096 * i)) = none
  fresh : k.requests = 0 ∧ k.granted = []

/-- A process from `stuos_libc_init` on. -/
def process (denies : Nat → Bool) (heapStart : Nat) : Lts Process (Request × Nat) where
  init s := ∃ mem k, Loaded heapStart k ∧ stuosLibcInit denies mem heapStart k = .ok (s.heap, s.kernel) ∧
    s.live = []
  step s c s' := c.1.Admissible heapStart s ∧ c.1.exec denies s = .ok (c.2, s')

/-! ### The granted pages -/

/-- The first `n` pages from `heapStart` on. -/
def heapPages (heapStart n : Nat) : List Nat := (List.range n).map fun i => heapStart + 4096 * i

/-- **The kernel after `n` pages of the heap**: these are mapped, and the rest of the range is
not. -/
structure Grown (heapStart n : Nat) (k : Kernel) : Prop where
  accounted : Accounted k.machine k.roots k.frames
  current : k.machine.cr3 ∈ k.roots
  aligned : heapStart % 4096 = 0
  pos : 0 < heapStart
  range : heapStart + 4096 * k.machine.pages ≤ 0x00007FFFFFFFFFFF
  bound : n ≤ k.machine.pages
  granted : k.granted = heapPages heapStart n
  mapped : ∀ i < n, ∃ f, reach k.machine k.machine.cr3 (pathOf (heapStart + 4096 * i)) = some f
  unmapped : ∀ i, n ≤ i → i < k.machine.pages →
    reach k.machine k.machine.cr3 (pathOf (heapStart + 4096 * i)) = none

theorem Loaded.grown {heapStart : Nat} {k : Kernel} (h : Loaded heapStart k) :
    Grown heapStart 0 k where
  accounted := h.accounted
  current := h.current
  aligned := h.aligned
  pos := h.pos
  range := h.range
  bound := Nat.zero_le _
  granted := h.fresh.2
  mapped := fun _ hi => absurd hi (Nat.not_lt_zero _)
  unmapped := fun i _ hi => h.unmapped i hi

/-- Of `pages` requests, counted from `first` on, the first `l` are granted and the next one, if
there is one, is denied. -/
structure GrantedFirst (denies : Nat → Bool) (first pages l : Nat) : Prop where
  le : l ≤ pages
  granted : ∀ j < l, denies (first + j) = false
  denied : l < pages → denies (first + l) = true

theorem GrantedFirst.succ {denies : Nat → Bool} {first next pages l : Nat}
    (h : GrantedFirst denies next pages l) (hd : denies first = false) (hnext : next = first + 1) :
    GrantedFirst denies first (pages + 1) (l + 1) where
  le := Nat.succ_le_succ h.le
  granted := by
    intro j hj
    cases j with
    | zero => exact hd
    | succ j =>
      have := h.granted j (by omega)
      rwa [hnext, Nat.add_assoc, Nat.add_comm 1 j] at this
  denied := by
    intro hlt
    have := h.denied (by omega)
    rwa [hnext, Nat.add_assoc, Nat.add_comm 1 l] at this

theorem GrantedFirst.lt_iff {denies : Nat → Bool} {first pages l : Nat}
    (h : GrantedFirst denies first pages l) :
    l < pages ↔ ∃ j < pages, denies (first + j) = true := by
  constructor
  · exact fun hlt => ⟨l, hlt, h.denied hlt⟩
  · rintro ⟨j, hj, hd⟩
    by_contra hle
    have := h.granted j (by omega)
    rw [hd] at this
    cases this

namespace Grown

variable {heapStart n : Nat} {k : Kernel} (denies : Nat → Bool)

theorem lower (h : Grown heapStart n k) {i : Nat} (hi : i < k.machine.pages) :
    (pml4Index (heapStart + 4096 * i)).val < 256 := by
  have hrange := h.range
  exact pml4Index_lt_of_lower (by omega)

theorem page_inj (h : Grown heapStart n k) {i j : Nat} (hi : i < k.machine.pages)
    (hj : j < k.machine.pages)
    (he : pathOf (heapStart + 4096 * i) = pathOf (heapStart + 4096 * j)) : i = j := by
  have hrange := h.range
  have haligned := h.aligned
  have := (pathOf_eq_iff (by omega) (by omega)).mp he
  omega

theorem lt_pages (h : Grown heapStart n k) : n < k.machine.pages := by
  have hn := h.bound
  have hlow : ∀ i < n, Lower (pathOf (heapStart + 4096 * i)) := fun i hi =>
    lower_pathOf (h.lower (by omega))
  -- the root and the frames of the pages are different frames of the slab
  have hnodup : (k.machine.cr3 :: (List.range n).map fun i =>
      (reach k.machine k.machine.cr3 (pathOf (heapStart + 4096 * i))).getD 0).Nodup := by
    rw [List.nodup_cons]
    refine ⟨fun hmem => ?_, List.Nodup.map_on ?_ List.nodup_range⟩
    · obtain ⟨i, hi, he⟩ := List.mem_map.mp hmem
      obtain ⟨f, hf⟩ := h.mapped i (List.mem_range.mp hi)
      rw [hf, Option.getD_some] at he
      obtain ⟨-, hpath⟩ := h.accounted.separate _ _ _ [] _
        ⟨h.current, hlow i (List.mem_range.mp hi)⟩ ⟨h.current, lower_nil⟩ hf (he ▸ rfl)
      simp [pathOf] at hpath
    · intro i hi j hj he
      rw [List.mem_range] at hi hj
      obtain ⟨f, hf⟩ := h.mapped i hi
      obtain ⟨g, hg⟩ := h.mapped j hj
      rw [hf, hg, Option.getD_some, Option.getD_some] at he
      obtain ⟨-, hpath⟩ := h.accounted.separate _ _ _ _ _ ⟨h.current, hlow i hi⟩
        ⟨h.current, hlow j hj⟩ hf (he ▸ hg)
      exact h.page_inj (by omega) (by omega) hpath
  have hsub : (k.machine.cr3 :: (List.range n).map fun i =>
      (reach k.machine k.machine.cr3 (pathOf (heapStart + 4096 * i))).getD 0) ⊆
      List.range' k.machine.base k.machine.pages := by
    intro f hf
    rcases List.mem_cons.mp hf with rfl | hf
    · exact List.mem_range'_1.mpr (h.accounted.rootInSlab h.current)
    · obtain ⟨i, hi, rfl⟩ := List.mem_map.mp hf
      obtain ⟨f, hf⟩ := h.mapped i (List.mem_range.mp hi)
      rw [hf, Option.getD_some]
      exact List.mem_range'_1.mpr
        (h.accounted.owned _ h.current _ f (hlow i (List.mem_range.mp hi)) hf)
  have hlen := (List.subperm_of_subset hnodup hsub).length_le
  rw [List.length_cons, List.length_map, List.length_range, List.length_range'] at hlen
  omega

theorem grow (h : Grown heapStart n k) (hn : n < k.machine.pages) {m : Machine} {f : Nat}
    (hacc : Accounted m k.roots k.frames)
    (x : Extends k.roots (Free k.machine) k.machine.cr3 (pathOf (heapStart + 4096 * n)) k.machine m)
    (hf : reach m k.machine.cr3 (pathOf (heapStart + 4096 * n)) = some f) :
    Grown heapStart (n + 1) { k with
      machine := m
      requests := k.requests + 1
      granted := k.granted ++ [heapStart + 4096 * n] } where
  accounted := hacc
  current := x.setup.cr3 ▸ h.current
  aligned := h.aligned
  pos := h.pos
  range := x.setup.pages ▸ h.range
  bound := x.setup.pages ▸ hn
  granted := by
    simp only [h.granted, heapPages, List.range_succ, List.map_append, List.map_cons, List.map_nil]
  mapped := by
    intro i hi
    simp only [x.setup.cr3]
    by_cases he : i = n
    · exact ⟨f, he ▸ hf⟩
    · obtain ⟨g, hg⟩ := h.mapped i (by omega)
      exact ⟨g, x.kept _ g (lower_pathOf (h.lower (by omega))) hg⟩
  unmapped := by
    intro i hi hlt
    simp only [x.setup.cr3, x.setup.pages] at hlt ⊢
    rw [Option.eq_none_iff_forall_not_mem]
    intro g hg
    rcases x.new _ g (lower_pathOf (h.lower hlt)) hg with hold | ⟨hpre, -⟩
    · rw [h.unmapped i (by omega) hlt] at hold
      cases hold
    · have := h.page_inj hlt hn (hpre.eq_of_length rfl)
      omega

/-- **One request** for the page at the end: denied, granted, or the frames have run out. -/
theorem requestPage_cases (h : Grown heapStart n k) :
    (∃ k', requestPage denies k (heapStart + 4096 * n) = .ok (false, k') ∧ Grown heapStart n k' ∧
      denies k.requests = true) ∨
    (∃ k', requestPage denies k (heapStart + 4096 * n) = .ok (true, k') ∧
      Grown heapStart (n + 1) k' ∧ denies k.requests = false ∧ k'.requests = k.requests + 1) ∨
    requestPage denies k (heapStart + 4096 * n) = .error (.kernel .outOfMemory) := by
  have hlt := h.lt_pages
  rw [requestPage]
  by_cases hd : denies k.requests = true
  · rw [if_pos hd]
    exact Or.inl ⟨_, rfl, ⟨h.accounted, h.current, h.aligned, h.pos, h.range, h.bound, h.granted,
      h.mapped, h.unmapped⟩, hd⟩
  · rw [if_neg hd]
    right
    rcases allocateRamPage_spec false h.accounted h.current (h.lower hlt) with
      ⟨m, f, he, -, -, hacc, x, -, hf, -⟩ | ⟨-, hbad⟩ | ⟨he, -⟩
    · rw [he]
      exact Or.inl ⟨_, rfl, h.grow hlt hacc x hf, Bool.eq_false_iff.mpr hd, rfl⟩
    · have haligned := h.aligned
      rcases hbad with hbad | hbad
      · exact absurd (show (heapStart + 4096 * n) % 2 ^ 12 = 0 by omega) hbad
      · exact absurd (h.unmapped n (Nat.le_refl n) hlt) hbad
    · rw [he]
      exact Or.inr rfl

/-- **The loop** goes on from page `i`: by induction on the rounds left. -/
theorem requestLoop_cases {i : Nat} : ∀ (rounds j : Nat) {k : Kernel}, Grown heapStart (i + j) k →
    (∃ l k', requestLoop denies (heapStart + 4096 * i) rounds j k = .ok (4096 * (j + l), k') ∧
      Grown heapStart (i + (j + l)) k' ∧ GrantedFirst denies k.requests rounds l) ∨
    requestLoop denies (heapStart + 4096 * i) rounds j k = .error (.kernel .outOfMemory) := by
  intro rounds
  induction rounds with
  | zero =>
    intro j k h
    have hrange := h.range
    have hbound := h.bound
    left
    refine ⟨0, k, ?_, h, Nat.le_refl _, by simp, by simp⟩
    rw [requestLoop, u64_of_lt (by omega)]
    rfl
  | succ rounds ih =>
    intro j k h
    have hrange := h.range
    have hbound := h.bound
    have haddr : u64 (heapStart + 4096 * i + u64 (4096 * j)) = heapStart + 4096 * (i + j) := by
      rw [u64_of_lt (n := 4096 * j) (by omega), u64_of_lt (by omega)]
      omega
    rw [requestLoop, haddr]
    rcases h.requestPage_cases denies with ⟨k', he, h', hd⟩ | ⟨k', he, h', hd, hreq⟩ | he
    · left
      refine ⟨0, k', ?_, h', Nat.zero_le _, by simp, fun _ => hd⟩
      rw [he, ok_bind, u64_of_lt (by omega)]
      rfl
    · rw [he, ok_bind]
      simp only [if_true]
      refine (ih (j + 1) h').imp_left ?_
      rintro ⟨l, k'', he', hg, hl⟩
      have hl' := hl.succ hd (hreq ▸ rfl)
      have hjl : j + 1 + l = j + (l + 1) := by omega
      rw [hjl] at he' hg
      exact ⟨l + 1, k'', he', hg, hl'⟩
    · right
      rw [he, error_bind]

/-- **`_malloc_expand_heap`** at the end of the heap does not abort. -/
theorem mallocExpandHeap_cases (h : Grown heapStart n k) (bytes : Nat) :
    (∃ l k', mallocExpandHeap denies (heapStart + 4096 * n) bytes k = .ok (4096 * l, k') ∧
      Grown heapStart (n + l) k' ∧
      GrantedFirst denies k.requests (u64 (bytes + 4095) / 4096) l) ∨
    mallocExpandHeap denies (heapStart + 4096 * n) bytes k = .error (.kernel .outOfMemory) := by
  have haligned := h.aligned
  rw [mallocExpandHeap, ensure_of (by omega), ok_bind]
  have hloop := requestLoop_cases denies (u64 (bytes + 4095) / 4096) 0 h
  simp only [Nat.zero_add] at hloop
  exact hloop

theorem expandsTo {l : Nat} (h : Grown heapStart (n + l) k) :
    ExpandsTo (fun _ _ => 4096 * l) heapStart (heapStart + 4096 * n) := by
  have hrange := h.range
  have hbound := h.bound
  intro bytes
  refine ⟨Nat.dvd_mul_right _ _, ?_, ?_⟩ <;> simp only <;> omega

end Grown

/-! ### The allocator over the kernel -/

@[simp] theorem inProcess_ok {α : Type} (a : α) :
    inProcess (.ok a : Except Malloc.Halt α) = .ok a := rfl

/-- **`makeFree`** moves the end by what was mapped; it fails with only that change, or returns
the last region. -/
theorem makeFree_cases {h h' : Heap} {size c bytes : Nat}
    (he : makeFree h size (fun _ _ => bytes) = .ok (c, h')) :
    h'.heapEnd = u64 (h.heapEnd + bytes) ∧ (c = 0 ∧ h'.tail = h.tail ∨ c = h'.tail) := by
  rw [makeFree, bind_eq_ok] at he
  obtain ⟨last, -, he⟩ := he
  rw [bind_eq_ok] at he
  obtain ⟨⟨b, h₁⟩, hexp, he⟩ := he
  have hend : h₁.heapEnd = u64 (h.heapEnd + bytes) ∧ (b = false → h₁.tail = h.tail) := by
    rw [expandHeap] at hexp
    simp only at hexp
    split at hexp
    · cases hexp
      exact ⟨rfl, fun _ => rfl⟩
    · rw [bind_eq_ok] at hexp
      obtain ⟨r, -, hr⟩ := hexp
      cases hr
      exact ⟨rfl, fun hb => absurd hb (by simp)⟩
  cases b with
  | false =>
    cases he
    exact ⟨hend.1, Or.inl ⟨rfl, hend.2 rfl⟩⟩
  | true =>
    simp only [Bool.true_eq_false, if_false, bind_eq_ok] at he
    obtain ⟨r, -, -, -, regionSize, -, -, -, he⟩ := he
    cases he
    exact ⟨hend.1, Or.inr rfl⟩

theorem free_heapEnd {h h' : Heap} {ptr : Nat} (he : Malloc.free h ptr = .ok h') :
    h'.heapEnd = h.heapEnd := by
  rw [Malloc.free] at he
  split at he
  · cases he
    rfl
  · rw [bind_eq_ok] at he
    obtain ⟨mem, -, he⟩ := he
    cases he
    rfl

section

variable (denies : Nat → Bool) {heapStart n size : Nat} {k : Kernel} {h : Heap}
  {nodes : List (Nat × Bool)}

theorem Rep.tail_pos (hr : Rep h heapStart nodes) : 0 < h.tail ∧ h.tail + 16 ≤ h.heapEnd := by
  obtain ⟨front, x, rfl, hx⟩ := hr.tail
  have hb := hr.bounds (x := x) (by simp)
  have hpos := hr.pos
  rw [hx] at hb
  omega

/-- **`makeFreeIn`** is `makeFree` with the pages that the kernel grants. -/
theorem makeFreeIn_cases (hg : Grown heapStart n k) (hr : Rep h heapStart nodes)
    (hend : h.heapEnd = heapStart + 4096 * n) (hlast : LastTooSmall h nodes size)
    (hsize : size < 2 ^ 64) (hs : size - lastRoom 16 h.heapEnd nodes + 16 < 2 ^ 64) :
    (∃ c h' k' l, makeFreeIn denies h size k = .ok (c, h', k') ∧
      makeFree h size (fun _ _ => 4096 * l) = .ok (c, h') ∧ Grown heapStart (n + l) k' ∧
      h'.heapEnd = heapStart + 4096 * (n + l) ∧ (c = 0 → h'.tail + 16 ≤ h.heapEnd) ∧
      GrantedFirst denies k.requests
        (u64 (lacking size (lastRoom 16 h.heapEnd nodes) + 4095) / 4096) l) ∨
    makeFreeIn denies h size k = .error (.kernel .outOfMemory) := by
  rw [makeFreeIn, lastSize_eq hr, inProcess_ok, ok_bind]
  simp only
  rw [show u64 (u64 (size + 2 ^ 64 - lastRoom 16 h.heapEnd nodes) + 16) =
    lacking size (lastRoom 16 h.heapEnd nodes) from rfl]
  rcases hg.mallocExpandHeap_cases denies (lacking size (lastRoom 16 h.heapEnd nodes)) with
    ⟨l, k', he, hg', hl⟩ | he
  · left
    have hx := hg'.expandsTo
    rw [← hend] at hx he
    obtain ⟨c, h', nodes', hm, hr', -, -⟩ := makeFree_spec hr hlast hx hsize hs
    obtain ⟨hend', hc⟩ := makeFree_cases hm
    have hrange := hg'.range
    have hbound := hg'.bound
    refine ⟨c, h', k', l, ?_, hm, hg', ?_, ?_, hl⟩
    · rw [he, ok_bind, hm]
      rfl
    · rw [hend', hend, u64_of_lt (by omega)]
      omega
    · rintro rfl
      rcases hc with ⟨-, htail⟩ | htail
      · rw [htail]
        exact hr.tail_pos.2
      · have := hr'.tail_pos.1
        omega
  · right
    rw [← hend] at he
    rw [he, error_bind]

theorem mallocIn_of_found {c : Nat} (hr : Rep h heapStart nodes) (h0 : size ≠ 0)
    (hfound : (firstFit 16 (alignSize size) h.heapEnd nodes).1 = some c) :
    ∃ h', mallocIn denies h size k = .ok (c + 16, h', k) ∧
      (∀ expand, malloc h size expand = .ok (c + 16, h')) ∧ h'.heapEnd = h.heapEnd := by
  obtain ⟨h', hend, hmalloc⟩ := malloc_of_found hr (Nat.pos_of_ne_zero h0) hfound
  refine ⟨h', ?_, hmalloc, hend⟩
  have hm := hmalloc fun _ _ => 0
  obtain ⟨h₁, hf, -⟩ := search_firstFit (alignSize size) hr
  rw [malloc, if_neg h0, findOrMakeFree, hf, hfound, ok_bind] at hm
  rw [mallocIn, if_neg h0, findOrMakeFreeIn, hf, inProcess_ok, ok_bind, hfound]
  simp only [ok_bind] at hm ⊢
  split at hm
  · cases hm
  · rename_i hc
    rw [if_neg hc, hm]
    rfl

/-- **`mallocIn`** is `malloc` with the pages that the kernel grants.  If it fails, the last
header is still in the old heap. -/
theorem mallocIn_cases (hg : Grown heapStart n k) (hr : Rep h heapStart nodes)
    (hend : h.heapEnd = heapStart + 4096 * n)
    (hs : alignSize size - trailing 16 h.heapEnd nodes + 16 < 2 ^ 64) :
    (∃ p h' k' l, mallocIn denies h size k = .ok (p, h', k') ∧
      malloc h size (fun _ _ => 4096 * l) = .ok (p, h') ∧ Grown heapStart (n + l) k' ∧
      h'.heapEnd = heapStart + 4096 * (n + l) ∧ (p = 0 → h'.tail + 16 ≤ h.heapEnd) ∧
      (size ≠ 0 → (firstFit 16 (alignSize size) h.heapEnd nodes).1 = none →
        GrantedFirst denies k.requests
          (u64 (lacking (alignSize size) (trailing 16 h.heapEnd nodes) + 4095) / 4096) l)) ∨
    mallocIn denies h size k = .error (.kernel .outOfMemory) := by
  by_cases h0 : size = 0
  · left
    refine ⟨0, h, k, 0, ?_, ?_, hg, hend, fun _ => hr.tail_pos.2, fun hne => absurd h0 hne⟩
    · rw [mallocIn, if_pos h0]
    · rw [malloc, if_pos h0]
  · cases hfound : (firstFit 16 (alignSize size) h.heapEnd nodes).1 with
    | some c =>
      left
      obtain ⟨h', he, hm, hend'⟩ := mallocIn_of_found denies hr h0 hfound
      refine ⟨c + 16, h', k, 0, he, hm _, hg, ?_, fun hp => by omega, fun _ hnone => ?_⟩
      · rw [hend', hend, Nat.add_zero]
      · cases hnone
    | none =>
      obtain ⟨h₁, hf, hr₁, hend₁, -⟩ := search_firstFit (alignSize size) hr
      rw [mallocIn, if_neg h0, findOrMakeFreeIn, hf, inProcess_ok, ok_bind]
      simp only [hfound]
      have hlast : LastTooSmall h₁ (firstFit 16 (alignSize size) h.heapEnd nodes).2
          (alignSize size) := by
        intro front t hfront
        rw [hend₁]
        exact firstFit_last hfound hfront
      have hroom : lastRoom 16 h₁.heapEnd (firstFit 16 (alignSize size) h.heapEnd nodes).2 =
          trailing 16 h.heapEnd nodes := by
        rw [hend₁]
        exact firstFit_lastRoom hfound
      rw [← hroom] at hs ⊢
      rcases makeFreeIn_cases denies hg hr₁ (hend₁.trans hend) hlast (alignSize_lt size) hs with
        ⟨c, h₂, k', l, he, hm, hg', hend₂, htail, hl⟩ | he
      · left
        have hx := hg'.expandsTo
        rw [← hend, ← hend₁] at hx
        obtain ⟨c', h₂', nodes₂, hm', hr₂, -, -, hc⟩ :=
          makeFree_spec hr₁ hlast hx (alignSize_lt size) hs
        rw [hm, Except.ok.injEq, Prod.mk.injEq] at hm'
        obtain ⟨rfl, rfl⟩ := hm'
        have hfind : findOrMakeFree h (alignSize size) (fun _ _ => 4096 * l) = .ok (c, h₂) := by
          rw [findOrMakeFree, hf, hfound, ok_bind]
          exact hm
        simp only [he, ok_bind]
        by_cases hc0 : c = 0
        · rw [if_pos hc0]
          refine ⟨0, h₂, k', l, rfl, ?_, hg', hend₂, fun _ => hend₁ ▸ htail hc0, fun _ _ => hl⟩
          rw [malloc, if_neg h0, hfind, ok_bind, if_pos hc0]
        · rw [if_neg hc0]
          obtain ⟨-, front, back, rfl, hfit⟩ := hc.resolve_left fun hc => hc0 hc.1
          obtain ⟨h₃, nodes₃, he₃, -, -, -⟩ := reserve_spec hr₂ hfit (alignSize_dvd size)
          refine ⟨c + 16, h₃, k', l, ?_, ?_, hg', ?_, fun hp => by omega, fun _ _ => hl⟩
          · rw [he₃]
            rfl
          · rw [malloc, if_neg h0, hfind, ok_bind, if_neg hc0, he₃]
          · rw [reserve_heapEnd he₃, hend₂]
      · right
        simp only [he, error_bind]

/-- **`reallocIn`** is `realloc` with the pages that the kernel grants. -/
theorem reallocIn_cases (hg : Grown heapStart n k) (hr : Rep h heapStart nodes)
    (hend : h.heapEnd = heapStart + 4096 * n) (hs : size + 31 < 2 ^ 64) (ptr : Nat) :
    (∃ l k', Grown heapStart (n + l) k' ∧ ∀ p h',
      realloc h ptr size (fun _ _ => 4096 * l) = .ok (p, h') →
      reallocIn denies h ptr size k = .ok (p, h', k') ∧
      h'.heapEnd = heapStart + 4096 * (n + l)) ∨
    reallocIn denies h ptr size k = .error (.kernel .outOfMemory) := by
  rw [reallocIn]
  have hs' := (alignSize_spec hs).2
  rcases mallocIn_cases denies hg hr hend
      (by omega : alignSize size - trailing 16 _ nodes + 16 < 2 ^ 64) with
    ⟨p, h₁, k', l, he, hm, hg', hend₁, -⟩ | he
  · left
    refine ⟨l, k', hg', fun q h' hq => ?_⟩
    rw [realloc, hm, ok_bind] at hq
    rw [he, ok_bind]
    simp only at hq ⊢
    split at hq
    · rw [if_pos ‹_›]
      cases hq
      exact ⟨rfl, hend₁⟩
    · rw [if_neg ‹_›]
      rw [bind_eq_ok] at hq
      obtain ⟨currSize, hsize, hq⟩ := hq
      rw [bind_eq_ok] at hq
      obtain ⟨h₂, hfree, hq⟩ := hq
      cases hq
      rw [hsize, inProcess_ok, ok_bind, hfree]
      refine ⟨rfl, ?_⟩
      rw [free_heapEnd hfree]
      exact hend₁
  · right
    rw [he, error_bind]

end

/-! ### The invariant -/

/-- The heap is a list of regions, and it is what the kernel has granted. -/
structure Process.Inv (heapStart n : Nat) (s : Process) (nodes : List (Nat × Bool)) : Prop where
  regions : Malloc.Inv heapStart s.system nodes
  grown : Grown heapStart n s.kernel
  heapEnd : s.heap.heapEnd = heapStart + 4096 * n

/-- **`stuos_libc_init`** leaves a heap of whole pages. -/
theorem stuosLibcInit_inv {denies : Nat → Bool} {mem : Mem} {heapStart : Nat} {k : Kernel}
    {s : Process} (hl : Loaded heapStart k)
    (he : stuosLibcInit denies mem heapStart k = .ok (s.heap, s.kernel)) (hlive : s.live = []) :
    ∃ n nodes, s.Inv heapStart n nodes := by
  have hcases := hl.grown.mallocExpandHeap_cases denies 16
  rw [Nat.mul_zero, Nat.add_zero] at hcases
  rw [stuosLibcInit] at he
  rcases hcases with ⟨l, k', hexp, hg, -⟩ | hexp
  · rw [hexp, ok_bind, bind_eq_ok] at he
    obtain ⟨h, hinit, he⟩ := he
    simp only [Except.ok.injEq, Prod.mk.injEq] at he
    obtain ⟨rfl, rfl⟩ := he
    have hinit' := mapError_eq_ok.mp hinit
    have hx := hg.expandsTo
    rw [Nat.zero_add] at hg
    rw [Nat.mul_zero, Nat.add_zero] at hx
    have hal := hg.aligned
    refine ⟨l, _, ⟨init_rep (by omega) hg.pos hx hinit', ?_, ?_⟩, hg, ?_⟩
    · simp [Process.system, hlive]
    · simp [Process.system, hlive]
    · rw [initMemoryAllocator, bind_eq_ok] at hinit'
      obtain ⟨-, -, hinit'⟩ := hinit'
      rw [← Except.ok.inj hinit']
      exact u64_of_lt (hx 16).2.1
  · rw [hexp, error_bind] at he
    cases he

namespace Process.Inv

variable (denies : Nat → Bool) {heapStart n : Nat} {s : Process} {nodes : List (Nat × Bool)}

/-- `malloc` keeps the invariant.  When it fails, the blocks keep their bytes and the last
header is still in the old heap. -/
theorem malloc (hi : s.Inv heapStart n nodes) {size : Nat} (hs : size + 31 < 2 ^ 64) :
    (∃ p s' l nodes', (Request.malloc size).exec denies s = .ok (p, s') ∧
      s'.Inv heapStart (n + l) nodes' ∧ (p = 0 → s'.heap.tail + 16 ≤ s.heap.heapEnd ∧
        s'.live = s.live ∧ Keeps s.heap nodes s'.heap nodes')) ∨
    (Request.malloc size).exec denies s = .error (.kernel .outOfMemory) := by
  have hr₀ : Rep s.heap heapStart nodes := hi.regions.rep
  rw [Request.exec]
  have hs' := (alignSize_spec hs).2
  rcases mallocIn_cases denies hi.grown hr₀ hi.heapEnd
      (by omega : alignSize size - trailing 16 _ nodes + 16 < 2 ^ 64) with
    ⟨p, h', k', l, he, hm, hg, hend, htail, -⟩ | he
  · left
    have hx : ExpandsTo (fun _ _ => 4096 * l) heapStart s.heap.heapEnd := hi.heapEnd ▸ hg.expandsTo
    by_cases hp : p = 0
    · subst hp
      obtain ⟨q, h₁, nodes', hm', hr, hk, -⟩ := malloc_spec hr₀ hx hs
      cases hm'.symm.trans hm
      refine ⟨0, ⟨h', s.live, k'⟩, l, nodes', by rw [he, ok_bind]; rfl, ⟨?_, hg, hend⟩, ?_⟩
      · exact ⟨hr, fun b hb => hi.regions.held_of_keeps hk hb, hi.regions.nodup⟩
      · exact fun _ => ⟨htail rfl, rfl, hk⟩
    · obtain ⟨q, h₁, nodes', hm', hi', -⟩ := hi.regions.malloc hs hx
      cases hm'.symm.trans hm
      exact ⟨p, ⟨h', if p = 0 then s.live else (p, size) :: s.live, k'⟩, l, nodes',
        by rw [he, ok_bind], ⟨hi', hg, hend⟩, fun h => absurd h hp⟩
  · right
    rw [he, error_bind]

theorem free (hi : s.Inv heapStart n nodes) {ptr : Nat} (hp : Passable s.live ptr) :
    ∃ p s' n' nodes', (Request.free ptr).exec denies s = .ok (p, s') ∧
      s'.Inv heapStart n' nodes' := by
  obtain ⟨h', nodes', he, hi', -⟩ := hi.regions.free hp
  refine ⟨0, ⟨h', release s.live ptr, s.kernel⟩, n, nodes', ?_, hi', hi.grown, ?_⟩
  · rw [Request.exec]
    have he' : Malloc.free s.heap ptr = .ok h' := he
    rw [he', inProcess_ok, ok_bind]
  · exact (free_heapEnd he).trans hi.heapEnd

theorem realloc (hi : s.Inv heapStart n nodes) {ptr size : Nat} (hp : Passable s.live ptr)
    (hs : size + 31 < 2 ^ 64) :
    (∃ p s' n' nodes', (Request.realloc ptr size).exec denies s = .ok (p, s') ∧
      s'.Inv heapStart n' nodes') ∨
    (Request.realloc ptr size).exec denies s = .error (.kernel .outOfMemory) := by
  have hr₀ : Rep s.heap heapStart nodes := hi.regions.rep
  rw [Request.exec]
  rcases reallocIn_cases denies hi.grown hr₀ hi.heapEnd hs ptr with
    ⟨l, k', hg, hrun⟩ | he
  · left
    have hx : ExpandsTo (fun _ _ => 4096 * l) heapStart s.heap.heapEnd := hi.heapEnd ▸ hg.expandsTo
    obtain ⟨p, h', nodes', he, hi', -⟩ := hi.regions.realloc hp hs hx
    obtain ⟨he', hend⟩ := hrun p h' he
    exact ⟨p, ⟨h', if p = 0 then s.live else (p, size) :: release s.live ptr, k'⟩, n + l, nodes',
      by rw [he', ok_bind], hi', hg, hend⟩
  · right
    rw [he, error_bind]

theorem others (hi : s.Inv heapStart n nodes) {m : Machine} {roots frames : List Nat}
    (hu : Undisturbed s.kernel m roots frames) :
    ({ s with kernel := { s.kernel with
      machine := m, roots := roots, frames := frames } } : Process).Inv heapStart n nodes where
  regions := hi.regions
  heapEnd := hi.heapEnd
  grown :=
    { accounted := hu.accounted
      current := hu.current
      aligned := hi.grown.aligned
      pos := hi.grown.pos
      range := hu.pages ▸ hi.grown.range
      bound := hu.pages ▸ hi.grown.bound
      granted := hi.grown.granted
      mapped := by
        intro i hlt
        have hlow := lower_pathOf (hi.grown.lower (i := i) (by have := hi.grown.bound; omega))
        obtain ⟨f, hf⟩ := hi.grown.mapped i hlt
        refine ⟨f, ?_⟩
        simp only
        rw [hu.reach _ hlow, hu.cr3, hf]
      unmapped := by
        intro i hle hlt
        simp only [hu.pages] at hlt
        simp only
        rw [hu.reach _ (lower_pathOf (hi.grown.lower hlt)), hu.cr3, hi.grown.unmapped i hle hlt] }

/-- **Every admissible request** returns and keeps the invariant, or runs the kernel out of
frames. -/
theorem exec (hi : s.Inv heapStart n nodes) {c : Request} (hc : c.Admissible heapStart s) :
    (∃ p s' n' nodes', c.exec denies s = .ok (p, s') ∧ s'.Inv heapStart n' nodes') ∨
    c.exec denies s = .error (.kernel .outOfMemory) := by
  cases c with
  | malloc size =>
    rcases hi.malloc denies hc with ⟨p, s', l, nodes', he, hi', -⟩ | he
    · exact Or.inl ⟨p, s', n + l, nodes', he, hi'⟩
    · exact Or.inr he
  | free ptr => exact Or.inl (hi.free denies hc)
  | realloc ptr size => exact hi.realloc denies hc.1 hc.2
  | store addr bytes =>
    exact Or.inl ⟨0, _, n, nodes, rfl, hi.regions.store hc, hi.grown, hi.heapEnd⟩
  | outside mem =>
    exact Or.inl ⟨0, _, n, nodes, rfl, hi.regions.outside hc, hi.grown, hi.heapEnd⟩
  | others m roots frames => exact Or.inl ⟨0, _, n, nodes, rfl, hi.others hc⟩

theorem exec_inv (hi : s.Inv heapStart n nodes) {c : Request} (hc : c.Admissible heapStart s)
    {ret : Nat} {s' : Process} (he : c.exec denies s = .ok (ret, s')) :
    ∃ n' nodes', s'.Inv heapStart n' nodes' := by
  rcases hi.exec denies hc with ⟨p, s₁, n', nodes', he', hi'⟩ | he'
  · rw [he', Except.ok.injEq, Prod.mk.injEq] at he
    exact ⟨n', nodes', he.2 ▸ hi'⟩
  · rw [he'] at he
    cases he

end Process.Inv

theorem process_inv {denies : Nat → Bool} {heapStart : Nat} {s : Process}
    (h : (process denies heapStart).Reachable s) : ∃ n nodes, s.Inv heapStart n nodes := by
  refine h.invariant (P := fun s => ∃ n nodes, s.Inv heapStart n nodes) ?_ ?_
  · rintro s ⟨mem, k, hl, he, hlive⟩
    exact stuosLibcInit_inv hl he hlive
  · rintro s ⟨c, ret⟩ s' ⟨n, nodes, hi⟩ ⟨hc, he⟩
    exact hi.exec_inv denies hc he

/-! ### Growth -/

/-- The addresses and the bytes of the live blocks. -/
def contents (s : Process) : List (Nat × List UInt8) :=
  s.live.map fun b => (b.1, s.heap.mem.read b.1 b.2)

/-- **The heap and the pages granted** agree in every state that a process can reach, whatever
requests are denied: the pages granted are those of `[heap_start, heap_end)`, in order and each
once, they are mapped, and the end is page aligned.  An admissible request returns unless the
kernel is out of frames.  A `malloc` that returns 0 keeps the live blocks with their addresses
and bytes, and the last region then reaches from inside the old heap to the new end. -/
theorem heap_growth (denies : Nat → Bool) (heapStart : Nat) (s : Process)
    (h : (process denies heapStart).Reachable s) :
    (∃ n, s.kernel.granted = heapPages heapStart n ∧ s.heap.heapEnd = heapStart + 4096 * n ∧
      ∀ i < n, ∃ f, reach s.kernel.machine s.kernel.machine.cr3
        (pathOf (heapStart + 4096 * i)) = some f) ∧
    s.heap.heapEnd % 4096 = 0 ∧
    (∀ c : Request, c.Admissible heapStart s → (∃ p s', c.exec denies s = .ok (p, s')) ∨
      c.exec denies s = .error (.kernel .outOfMemory)) ∧
    ∀ size s', (Request.malloc size).Admissible heapStart s →
      (Request.malloc size).exec denies s = .ok (0, s') →
      contents s' = contents s ∧ s.heap.heapEnd ≤ s'.heap.heapEnd ∧
      s'.heap.tail + 16 ≤ s.heap.heapEnd ∧ next s'.heap.mem s'.heap.tail = 0 ∧
      lliRegionSize s'.heap.mem s'.heap.tail s'.heap.heapEnd =
        .ok (s'.heap.heapEnd - (s'.heap.tail + 16)) := by
  obtain ⟨n, nodes, hi⟩ := process_inv h
  refine ⟨⟨n, hi.grown.granted, hi.heapEnd, hi.grown.mapped⟩, ?_, ?_, ?_⟩
  · have hal := hi.grown.aligned
    rw [hi.heapEnd]
    omega
  · intro c hc
    rcases hi.exec denies hc with ⟨p, s', -, -, he, -⟩ | he
    · exact Or.inl ⟨p, s', he⟩
    · exact Or.inr he
  · intro size s' hs he
    rcases hi.malloc denies hs with ⟨p, s₁, l, nodes', he', hi', hfail⟩ | he'
    · rw [he', Except.ok.injEq, Prod.mk.injEq] at he
      obtain ⟨rfl, rfl⟩ := he
      obtain ⟨htail, hlive, hk⟩ := hfail rfl
      have hr' : Rep s₁.heap heapStart nodes' := hi'.regions.rep
      obtain ⟨front, ⟨t, f⟩, rfl, ht⟩ := hr'.tail
      obtain rfl : t = s₁.heap.tail := ht
      refine ⟨?_, ?_, htail, hr'.header.next, hr'.lliRegionSize_eq⟩
      · rw [contents, contents, hlive]
        refine List.map_congr_left fun b hb => ?_
        obtain ⟨c, hc, hh⟩ := hi.regions.held b hb
        rw [hc]
        exact congrArg _ (Mem.read_congr fun i h1 h2 => (hk c b.2 hh).2 i h1 h2)
      · rw [hi'.heapEnd, hi.heapEnd]
        omega
    · rw [he'] at he
      cases he

/-- A process whose address space is still empty, on a machine with 16 frames. -/
def emptyProcess : Kernel where
  machine := {
    frames := Function.update (fun _ _ => .ofWord 0) 16 fun _ => .ofWord 0
    slabFlags := Function.update (fun _ => false) 0 true
    base := 16
    pages := 16
    cr3 := 16
    originalKernelPageTable := 0
    freeLog := [] }
  roots := [16]
  frames := []
  requests := 0
  granted := []

theorem emptyProcess_loaded : Loaded 4096 emptyProcess :=
  ⟨(reachable_spaces_inv reachable_oneRoot).accounted, by simp [emptyProcess], by decide, by decide,
    by decide, fun _ _ => rfl, rfl, rfl⟩

/-- The first request is granted and all others are denied: `malloc(12288)` returns 0, and the
page the process has stays its heap. -/
theorem heap_growth_denied :
    ∃ s s', (process (fun i => i != 0) 4096).Reachable s ∧
      (Request.malloc 12288).exec (fun i => i != 0) s = .ok (0, s') ∧
      s.kernel.granted = [4096] ∧ contents s' = contents s ∧ s'.heap.tail + 16 ≤ s.heap.heapEnd := by
  have hinit : ∃ h k, stuosLibcInit (fun i => i != 0) (fun _ => 0) 4096 emptyProcess = .ok (h, k) ∧
      k.granted = [4096] ∧ ((Request.malloc 12288).exec (fun i => i != 0) ⟨h, [], k⟩).map Prod.fst =
        .ok 0 := ⟨_, _, rfl, rfl, rfl⟩
  obtain ⟨h, k, he, hgranted, hret⟩ := hinit
  have hreach : (process (fun i => i != 0) 4096).Reachable ⟨h, [], k⟩ :=
    .init ⟨fun _ => 0, emptyProcess, emptyProcess_loaded, he, rfl⟩
  obtain ⟨⟨p, s'⟩, he', hp⟩ := map_eq_ok.mp hret
  obtain rfl : p = 0 := hp
  have hsize : 12288 + 31 < 2 ^ 64 := by decide
  have hgrowth := (heap_growth _ _ _ hreach).2.2.2 12288 s' hsize he'
  exact ⟨_, s', hreach, he', hgranted, hgrowth.1, hgrowth.2.2.1⟩

end Stuos.Malloc
