import Stuos.Malloc.Growth

/-!
# Requests of any size

`malloc` and `calloc` for every `size_t`.  The size is rounded up to 16, what the last region lacks
and a header are counted, that is rounded up to pages, and `calloc` multiplies first; each of these
is done modulo `2 ^ 64`.

* `lacking_overflow`: where the missing bytes cannot be counted, `malloc` does not return 0.
* `Process.Inv.mallocIn_eq_zero_iff`: when `malloc` returns 0, whatever the size.
* `allocation_sizes_iff`: a size near `2 ^ 64` is only right where `malloc` refuses it.
-/

namespace Stuos.Malloc

open Stuos.Lib Stuos.Memory

def memset (m : Mem) (dest : Nat) (c : UInt8) (n : Nat) : Mem := m.write dest (List.replicate n c)

/-- `calloc` of `stdlib.c`. -/
def callocIn (denies : Nat → Bool) (h : Heap) (nmemb size : Nat) (k : Kernel) :
    Except Stop (Nat × Heap × Kernel) := do
  let region ← mallocIn denies h (u64 (nmemb * size)) k
  if region.1 = 0 then .ok (0, region.2)
  else
    let h := { region.2.1 with mem := memset region.2.1.mem region.1 0 (u64 (nmemb * size)) }
    .ok (region.1, h, region.2.2)

/-! ### What the results should be -/

/-- A pointer to a region in use with room for `n` bytes. -/
def Points (heapStart : Nat) (h : Heap) (p n : Nat) : Prop :=
  ∃ nodes c, Rep h heapStart nodes ∧ p = c + 16 ∧ Held nodes h.heapEnd c n

/-- `malloc(n)` returned 0 or a region of at least `n` bytes. -/
def Reserves (heapStart n : Nat) (r : Except Stop (Nat × Heap × Kernel)) : Prop :=
  ∃ p h k, r = .ok (p, h, k) ∧ (p = 0 ∨ Points heapStart h p n)

/-- The same, and the region holds zeros. -/
def ReservesZeros (heapStart n : Nat) (r : Except Stop (Nat × Heap × Kernel)) : Prop :=
  ∃ p h k, r = .ok (p, h, k) ∧
    (p = 0 ∨ Points heapStart h p n ∧ h.mem.read p n = List.replicate n 0)

/-- What `malloc(n)` asks `_malloc_expand_heap` for if it finds nothing. -/
def missing (h : Heap) (nodes : List (Nat × Bool)) (n : Nat) : Nat :=
  lacking (alignSize n) (trailing 16 h.heapEnd nodes)

/-- The pages that are requested for them. -/
def pagesFor (bytes : Nat) : Nat := u64 (bytes + 4095) / 4096

/-- **`malloc(n)` has to return 0**: no run of free regions has room, and the pages requested are
too few, or one of them is denied. -/
def Refused (denies : Nat → Bool) (s : Process) (nodes : List (Nat × Bool)) (n : Nat) : Prop :=
  n = 0 ∨ (∀ a e, FreeRun s.heap.heapEnd nodes a e → e - (a + 16) < alignSize n) ∧
    (4096 * pagesFor (missing s.heap nodes n) < missing s.heap nodes n ∨
      ∃ j < pagesFor (missing s.heap nodes n), denies (s.kernel.requests + j) = true)

/-- `wrapped` is the request that `malloc` gets for `n` bytes: it is far enough from `2 ^ 64`, or
`malloc` has to return 0. -/
def SizeFits (denies : Nat → Bool) (heapStart : Nat) (s : Process) (n wrapped : Nat) : Prop :=
  n + 31 < 2 ^ 64 ∨ ∃ nodes, Rep s.heap heapStart nodes ∧ Refused denies s nodes wrapped

theorem Points.lt {heapStart p n : Nat} {h : Heap} (hp : Points heapStart h p n) : n < 2 ^ 63 := by
  obtain ⟨nodes, c, hr, -, hheld⟩ := hp
  have hlo := (hr.bounds hheld.mem).1
  have hsize := hr.size
  have hle := hheld.le
  simp only at hlo
  omega

/-! ### Where the missing bytes cannot be counted -/

theorem lliRegionSize_lt {m : Mem} {self heapEnd size : Nat}
    (h : lliRegionSize m self heapEnd = .ok size) : size < 2 ^ 63 := by
  simp only [lliRegionSize, bind_eq_ok, ensure_eq_ok, Except.ok.injEq] at h
  obtain ⟨_, -, _, -, _, hlt, rfl⟩ := h
  exact hlt

/-- A search for that much finds nothing, and no expansion gives that much. -/
theorem makeFree_large {h h' : Heap} {size c last : Nat} {expand : Expand} (hsize : 2 ^ 63 ≤ size)
    (hlast : lastSize h = .ok last) (he : makeFree h size expand = .ok (c, h')) :
    expand h.heapEnd (lacking size last) < lacking size last := by
  rw [makeFree, hlast, ok_bind, bind_eq_ok] at he
  obtain ⟨⟨b, h₁⟩, hexp, he⟩ := he
  cases b with
  | false =>
    rw [expandHeap] at hexp
    simp only at hexp
    split at hexp
    · rename_i hfew
      exact hfew
    · rw [bind_eq_ok] at hexp
      obtain ⟨r, -, hr⟩ := hexp
      cases hr
  | true =>
    simp only [Bool.true_eq_false, if_false, bind_eq_ok, ensure_eq_ok] at he
    obtain ⟨r, -, -, -, regionSize, hregion, -, hle, -⟩ := he
    have := lliRegionSize_lt hregion
    omega

section

variable {denies : Nat → Bool} {heapStart n size : Nat} {k k' : Kernel} {h h' : Heap}
  {nodes : List (Nat × Bool)}

theorem alignSize_of_not_counted
    (hs : ¬ alignSize size - trailing 16 h.heapEnd nodes + 16 < 2 ^ 64) :
    alignSize size = 2 ^ 64 - 16 ∧ trailing 16 h.heapEnd nodes = 0 := by
  have hdvd := alignSize_dvd size
  have hlt := alignSize_lt size
  omega

/-- **The missing bytes wrap to none**: nothing is mapped, and `malloc` does not see it. -/
theorem lacking_overflow (hr : Rep h heapStart nodes)
    (hs : ¬ alignSize size - trailing 16 h.heapEnd nodes + 16 < 2 ^ 64) :
    mallocIn denies h size k ≠ .ok (0, h', k') := by
  obtain ⟨halign, htrailing⟩ := alignSize_of_not_counted hs
  have h0 : size ≠ 0 := by
    rintro rfl
    exact absurd halign (by decide)
  obtain ⟨h₁, hf, hr₁, hend₁, -⟩ := search_firstFit (alignSize size) hr
  intro he
  rw [mallocIn, if_neg h0, findOrMakeFreeIn, hf, inProcess_ok, ok_bind] at he
  cases hfound : (firstFit 16 (alignSize size) h.heapEnd nodes).1 with
  | some c =>
    obtain ⟨front, back, hsplit, hfit⟩ := firstFit_found hfound
    rw [hsplit] at hr₁
    have hlo := (hr₁.bounds (x := (c, true)) (by simp)).1
    have hle := hr₁.tiles.region_le
    have hhi := hr₁.size
    rw [hend₁] at hle hhi
    simp only at hlo
    omega
  | none =>
    have hlast : lastSize h₁ = .ok 0 := by
      rw [lastSize_eq hr₁, hend₁, firstFit_lastRoom hfound, htrailing]
    have hnone : lacking (alignSize size) 0 = 0 := by
      rw [halign]
      rfl
    simp only [hfound, makeFreeIn, hlast, inProcess_ok, ok_bind, bind_eq_ok] at he
    obtain ⟨r, ⟨x, hx, y, hy, -⟩, -⟩ := he
    have hlarge := makeFree_large (by omega) hlast (mapError_eq_ok.mp hy)
    rw [hnone] at hlarge
    exact absurd hlarge (Nat.not_lt_zero _)

end

/-! ### When malloc returns 0 -/

/-- Whole pages are too few exactly if one of the pages is missing. -/
theorem pages_lt_iff {denies : Nat → Bool} {first bytes l : Nat}
    (hl : GrantedFirst denies first (pagesFor bytes) l) :
    4096 * l < bytes ↔ 4096 * pagesFor bytes < bytes ∨
      ∃ j < pagesFor bytes, denies (first + j) = true := by
  rw [← hl.lt_iff]
  have hle := hl.le
  have hpages : 4096 * pagesFor bytes ≤ bytes + 4095 := by
    have := Nat.mod_le (bytes + 4095) (2 ^ 64)
    unfold pagesFor u64
    omega
  constructor
  · intro hlt
    by_cases hall : l < pagesFor bytes
    · exact Or.inr hall
    · exact Or.inl (by omega)
  · rintro (hlt | hlt) <;> omega

namespace Process.Inv

variable {denies : Nat → Bool} {heapStart n size nmemb : Nat} {s : Process}
  {nodes : List (Nat × Bool)}

/-- **When `malloc` returns 0**, for any size, unless the kernel runs out of frames. -/
theorem mallocIn_eq_zero_iff (hi : s.Inv heapStart n nodes)
    (hoom : mallocIn denies s.heap size s.kernel ≠ .error (.kernel .outOfMemory)) :
    (∃ h k, mallocIn denies s.heap size s.kernel = .ok (0, h, k)) ↔
      Refused denies s nodes size := by
  have hr : Rep s.heap heapStart nodes := hi.regions.rep
  by_cases hs : alignSize size - trailing 16 s.heap.heapEnd nodes + 16 < 2 ^ 64
  · obtain ⟨p, h', k', l, he, hm, hg, -, -, hl⟩ :=
      (mallocIn_cases denies hi.grown hr hi.heapEnd hs).resolve_right hoom
    have hx : ExpandsTo (fun _ _ => 4096 * l) heapStart s.heap.heapEnd := hi.heapEnd ▸ hg.expandsTo
    obtain ⟨q, h₁, nodes', hm', -, -, -, hq⟩ := malloc_aligned_spec hr hx hs
    cases hm'.symm.trans hm
    -- the allocator returns 0 with the pages that are granted
    have hzero : (∃ h k, mallocIn denies s.heap size s.kernel = .ok (0, h, k)) ↔
        size = 0 ∨ Short (fun _ _ => 4096 * l) s.heap nodes (alignSize size) := by
      rw [he]
      constructor
      · rintro ⟨h, k, hret⟩
        obtain ⟨rfl, -⟩ := Prod.mk.inj (Except.ok.inj hret)
        rcases hq with ⟨-, hq⟩ | ⟨-, -, c, hc, -⟩
        · exact hq
        · omega
      · intro hret
        rcases hq with ⟨rfl, -⟩ | ⟨h0, hshort, -⟩
        · exact ⟨h', k', rfl⟩
        · exact absurd hret (not_or.mpr ⟨h0, hshort⟩)
    rw [hzero, Refused]
    by_cases h0 : size = 0
    · exact iff_of_true (Or.inl h0) (Or.inl h0)
    · rw [or_iff_right h0, or_iff_right h0, Short, firstFit_eq_none_iff hr.tiles]
      refine and_congr_right fun hnone => pages_lt_iff (hl h0 ?_)
      exact (firstFit_eq_none_iff hr.tiles).mpr hnone
  · obtain ⟨halign, htrailing⟩ := alignSize_of_not_counted hs
    refine iff_of_false (fun ⟨h, k, he⟩ => lacking_overflow hr hs he) ?_
    -- no byte is missing, so no page is
    have hmissing : missing s.heap nodes size = 0 := by
      rw [missing, halign, htrailing]
      rfl
    rintro (rfl | ⟨-, hlt | ⟨j, hj, -⟩⟩)
    · exact absurd halign (by decide)
    · rw [hmissing] at hlt
      exact Nat.not_lt_zero _ hlt
    · rw [hmissing] at hj
      exact Nat.not_lt_zero _ hj

theorem malloc_zero (hi : s.Inv heapStart n nodes) {h : Heap} {k : Kernel}
    (he : mallocIn denies s.heap size s.kernel = .ok (0, h, k)) :
    ∃ n' nodes', Process.Inv heapStart n' ⟨h, s.live, k⟩ nodes' := by
  have hr : Rep s.heap heapStart nodes := hi.regions.rep
  by_cases hs : alignSize size - trailing 16 s.heap.heapEnd nodes + 16 < 2 ^ 64
  · rcases mallocIn_cases denies hi.grown hr hi.heapEnd hs with
      ⟨p, h', k', l, he', hm, hg, hend, -⟩ | he'
    · have hx : ExpandsTo (fun _ _ => 4096 * l) heapStart s.heap.heapEnd :=
        hi.heapEnd ▸ hg.expandsTo
      obtain ⟨q, h₁, nodes', hm', hr', hk, -⟩ := malloc_aligned_spec hr hx hs
      cases hm'.symm.trans hm
      cases he.symm.trans he'
      exact ⟨n + l, nodes', ⟨hr', fun b hb => hi.regions.held_of_keeps hk hb, hi.regions.nodup⟩,
        hg, hend⟩
    · rw [he] at he'
      cases he'
  · exact absurd he (lacking_overflow hr hs)

/-- **When `malloc` reserves what it was asked for.** -/
theorem reserves_iff (hi : s.Inv heapStart n nodes)
    (hoom : mallocIn denies s.heap size s.kernel ≠ .error (.kernel .outOfMemory)) :
    Reserves heapStart size (mallocIn denies s.heap size s.kernel) ↔
      size + 31 < 2 ^ 64 ∨ Refused denies s nodes size := by
  constructor
  · rintro ⟨p, h, k, he, rfl | hp⟩
    · exact Or.inr ((hi.mallocIn_eq_zero_iff hoom).mp ⟨h, k, he⟩)
    · have := hp.lt
      exact Or.inl (by omega)
  · rintro (hsize | href)
    · have hr : Rep s.heap heapStart nodes := hi.regions.rep
      obtain ⟨hle, hlt⟩ := alignSize_spec hsize
      obtain ⟨p, h', k', l, he, hm, hg, -⟩ :=
        (mallocIn_cases denies hi.grown hr hi.heapEnd
          (by omega : alignSize size - trailing 16 _ nodes + 16 < 2 ^ 64)).resolve_right hoom
      have hx : ExpandsTo (fun _ _ => 4096 * l) heapStart s.heap.heapEnd :=
        hi.heapEnd ▸ hg.expandsTo
      obtain ⟨q, h₁, nodes', hm', hr', -, -, hq⟩ := malloc_spec hr hx hsize
      cases hm'.symm.trans hm
      refine ⟨p, h', k', he, hq.imp_right fun ⟨c, hc, hheld, _⟩ => ⟨nodes', c, hr', hc, hheld⟩⟩
    · obtain ⟨h, k, he⟩ := (hi.mallocIn_eq_zero_iff hoom).mpr href
      exact ⟨0, h, k, he, Or.inl rfl⟩

theorem mallocIn_ne_of_callocIn
    (hoom : callocIn denies s.heap nmemb size s.kernel ≠ .error (.kernel .outOfMemory)) :
    mallocIn denies s.heap (u64 (nmemb * size)) s.kernel ≠ .error (.kernel .outOfMemory) := by
  intro he
  rw [callocIn, he, error_bind] at hoom
  exact hoom rfl

/-- **When `calloc` reserves the product**, as an exact number, and sets it to 0. -/
theorem reservesZeros_iff (hi : s.Inv heapStart n nodes)
    (hoom : callocIn denies s.heap nmemb size s.kernel ≠ .error (.kernel .outOfMemory)) :
    ReservesZeros heapStart (nmemb * size) (callocIn denies s.heap nmemb size s.kernel) ↔
      nmemb * size + 31 < 2 ^ 64 ∨ Refused denies s nodes (u64 (nmemb * size)) := by
  have hoom' := mallocIn_ne_of_callocIn hoom
  constructor
  · rintro ⟨p, h, k, he, rfl | ⟨hp, -⟩⟩
    · right
      rw [← hi.mallocIn_eq_zero_iff hoom']
      rw [callocIn, bind_eq_ok] at he
      obtain ⟨⟨q, h₁, k₁⟩, hm, he⟩ := he
      by_cases hq : q = 0
      · exact ⟨h₁, k₁, hq ▸ hm⟩
      · simp only [if_neg hq, Except.ok.injEq, Prod.mk.injEq] at he
        exact absurd he.1 hq
    · have := hp.lt
      exact Or.inl (by omega)
  · rintro (hprod | href)
    · have hwrap : u64 (nmemb * size) = nmemb * size := u64_of_lt (by omega)
      rw [callocIn]
      rw [hwrap] at hoom' ⊢
      obtain ⟨p, h, k, hm, hp⟩ := (hi.reserves_iff hoom').mpr (Or.inl hprod)
      rw [hm, ok_bind]
      rcases hp with rfl | ⟨nodes', c, hr', rfl, hheld⟩
      · exact ⟨0, h, k, rfl, Or.inl rfl⟩
      · have hlen : (List.replicate (nmemb * size) (0 : UInt8)).length = nmemb * size :=
          List.length_replicate
        have hstore := (hr'.store hheld (c + 16) (List.replicate (nmemb * size) 0) (Nat.le_refl _)
          (by rw [hlen])).1
        refine ⟨c + 16, _, k, rfl, Or.inr ⟨⟨nodes', c, hstore, rfl, hheld⟩, ?_⟩⟩
        have hread := Mem.read_write_self h.mem (c + 16) (List.replicate (nmemb * size) 0)
        rwa [hlen] at hread
    · obtain ⟨h, k, hm⟩ := (hi.mallocIn_eq_zero_iff hoom').mpr href
      exact ⟨0, h, k, by rw [callocIn, hm, ok_bind]; rfl, Or.inl rfl⟩

end Process.Inv

/-! ### Runs -/

/-- The requests of a process, and allocations of any size that fits. -/
inductive AnyCall
  | request (c : Request) (ret : Nat)
  | malloc (size : Nat)
  | calloc (nmemb size : Nat)

/-- The blocks after `n` bytes have been asked for. -/
def obtained (live : List (Nat × Nat)) (p n : Nat) : List (Nat × Nat) :=
  if p = 0 then live else (p, n) :: live

inductive AnyStep (denies : Nat → Bool) (heapStart : Nat) (s : Process) :
    AnyCall → Process → Prop
  | request {c : Request} {ret : Nat} {s' : Process} :
      (process denies heapStart).step s (c, ret) s' → AnyStep denies heapStart s (.request c ret) s'
  | malloc {size p : Nat} {h : Heap} {k : Kernel} : size < 2 ^ 64 →
      SizeFits denies heapStart s size size →
      mallocIn denies s.heap size s.kernel = .ok (p, h, k) →
      AnyStep denies heapStart s (.malloc size) ⟨h, obtained s.live p size, k⟩
  | calloc {nmemb size p : Nat} {h : Heap} {k : Kernel} : nmemb < 2 ^ 64 → size < 2 ^ 64 →
      SizeFits denies heapStart s (nmemb * size) (u64 (nmemb * size)) →
      callocIn denies s.heap nmemb size s.kernel = .ok (p, h, k) →
      AnyStep denies heapStart s (.calloc nmemb size) ⟨h, obtained s.live p (nmemb * size), k⟩

/-- A process from `stuos_libc_init` on, with requests of any size that fits. -/
def anySize (denies : Nat → Bool) (heapStart : Nat) : Lts Process AnyCall where
  init := (process denies heapStart).init
  step := AnyStep denies heapStart

namespace Process.Inv

variable {denies : Nat → Bool} {heapStart n size nmemb : Nat} {s : Process}
  {nodes : List (Nat × Bool)}

/-- **`malloc` of a size that fits** keeps the invariant. -/
theorem malloc_fits (hi : s.Inv heapStart n nodes) (hfits : SizeFits denies heapStart s size size)
    {p : Nat} {h : Heap} {k : Kernel} (he : mallocIn denies s.heap size s.kernel = .ok (p, h, k)) :
    ∃ n' nodes', Process.Inv heapStart n' ⟨h, obtained s.live p size, k⟩ nodes' := by
  rcases hfits with hsize | ⟨nodes', hr', href⟩
  · rcases hi.malloc denies hsize with ⟨q, s', l, nodes', he', hi', -⟩ | he'
    · rw [Request.exec, he, ok_bind, Except.ok.injEq, Prod.mk.injEq] at he'
      obtain ⟨rfl, rfl⟩ := he'
      exact ⟨n + l, nodes', hi'⟩
    · rw [Request.exec, he, ok_bind] at he'
      cases he'
  · obtain rfl : nodes = nodes' := hi.regions.rep.unique hr'
    have hoom : mallocIn denies s.heap size s.kernel ≠ .error (.kernel .outOfMemory) := by
      rw [he]
      simp
    obtain ⟨h₁, k₁, he₁⟩ := (hi.mallocIn_eq_zero_iff hoom).mpr href
    cases he.symm.trans he₁
    exact hi.malloc_zero he

/-- **`calloc` of sizes that fit** is `malloc` and a store. -/
theorem calloc_fits (hi : s.Inv heapStart n nodes)
    (hfits : SizeFits denies heapStart s (nmemb * size) (u64 (nmemb * size)))
    {p : Nat} {h : Heap} {k : Kernel}
    (he : callocIn denies s.heap nmemb size s.kernel = .ok (p, h, k)) :
    ∃ n' nodes', Process.Inv heapStart n' ⟨h, obtained s.live p (nmemb * size), k⟩ nodes' := by
  rw [callocIn, bind_eq_ok] at he
  obtain ⟨⟨q, h₁, k₁⟩, hm, he⟩ := he
  by_cases hq : q = 0
  · simp only [hq, if_true, Except.ok.injEq, Prod.mk.injEq] at he
    obtain ⟨rfl, rfl, rfl⟩ := he
    exact hi.malloc_zero (hq ▸ hm)
  · simp only [if_neg hq, Except.ok.injEq, Prod.mk.injEq] at he
    obtain ⟨rfl, rfl, rfl⟩ := he
    have hprod : nmemb * size + 31 < 2 ^ 64 := by
      refine hfits.resolve_right fun ⟨nodes', hr', href⟩ => ?_
      obtain rfl : nodes = nodes' := hi.regions.rep.unique hr'
      have hoom : mallocIn denies s.heap (u64 (nmemb * size)) s.kernel ≠
          .error (.kernel .outOfMemory) := by
        rw [hm]
        simp
      obtain ⟨h₂, k₂, hm₂⟩ := (hi.mallocIn_eq_zero_iff hoom).mpr href
      cases hm.symm.trans hm₂
      exact hq rfl
    rw [u64_of_lt (by omega : nmemb * size < 2 ^ 64)] at hm ⊢
    obtain ⟨n', nodes', hi'⟩ := hi.malloc_fits (Or.inl hprod) hm
    rw [obtained, if_neg hq] at hi' ⊢
    refine ⟨n', nodes', ?_, hi'.grown, hi'.heapEnd⟩
    exact hi'.regions.store ⟨(q, nmemb * size), List.mem_cons_self, Nat.le_refl _, by simp⟩

end Process.Inv

theorem anySize_inv {denies : Nat → Bool} {heapStart : Nat} {s : Process}
    (h : (anySize denies heapStart).Reachable s) : ∃ n nodes, s.Inv heapStart n nodes := by
  refine h.invariant (P := fun s => ∃ n nodes, s.Inv heapStart n nodes) ?_ ?_
  · rintro s ⟨mem, k, hl, he, hlive⟩
    exact stuosLibcInit_inv hl he hlive
  · rintro s c s' ⟨n, nodes, hi⟩ hstep
    cases hstep with
    | request hstep =>
      obtain ⟨hc, he⟩ := hstep
      exact hi.exec_inv denies hc he
    | malloc _ hfits he => exact hi.malloc_fits hfits he
    | calloc _ _ hfits he => exact hi.calloc_fits hfits he

/-- **Sizes that do not wrap**: in every state that can be reached by requests that fit, and unless
the kernel runs out of frames, `malloc` and `calloc` of any sizes reserve what they were asked for
exactly if the request fits. -/
theorem allocation_sizes_iff {denies : Nat → Bool} {heapStart : Nat} {s : Process}
    (h : (anySize denies heapStart).Reachable s) :
    (∀ n < 2 ^ 64, mallocIn denies s.heap n s.kernel ≠ .error (.kernel .outOfMemory) →
      (Reserves heapStart n (mallocIn denies s.heap n s.kernel) ↔
        SizeFits denies heapStart s n n)) ∧
    ∀ nmemb < 2 ^ 64, ∀ size < 2 ^ 64,
      callocIn denies s.heap nmemb size s.kernel ≠ .error (.kernel .outOfMemory) →
      (ReservesZeros heapStart (nmemb * size) (callocIn denies s.heap nmemb size s.kernel) ↔
        SizeFits denies heapStart s (nmemb * size) (u64 (nmemb * size))) := by
  obtain ⟨n, nodes, hi⟩ := anySize_inv h
  have hfits : ∀ amount wrapped, SizeFits denies heapStart s amount wrapped ↔
      amount + 31 < 2 ^ 64 ∨ Refused denies s nodes wrapped := by
    intro amount wrapped
    refine or_congr_right ⟨fun ⟨nodes', hr', href⟩ => ?_, fun href => ⟨_, hi.regions.rep, href⟩⟩
    rw [hi.regions.rep.unique hr']
    exact href
  refine ⟨fun n _ hoom => ?_, fun nmemb _ size _ hoom => ?_⟩
  · rw [hfits]
    exact hi.reserves_iff hoom
  · rw [hfits]
    exact hi.reservesZeros_iff hoom

theorem onePage_process : ∃ h k, (anySize (fun i => i != 0) 4096).Reachable ⟨h, [], k⟩ ∧
    (mallocIn (fun i => i != 0) h 100 k).map Prod.fst = .ok 4112 ∧
    (mallocIn (fun i => i != 0) h (2 ^ 64 - 1) k).map Prod.fst = .ok 4112 ∧
    (callocIn (fun i => i != 0) h (2 ^ 63 + 8) 2 k).map Prod.fst = .ok 4112 := by
  have hinit : ∃ h k, stuosLibcInit (fun i => i != 0) (fun _ => 0) 4096 emptyProcess = .ok (h, k) ∧
      (mallocIn (fun i => i != 0) h 100 k).map Prod.fst = .ok 4112 ∧
      (mallocIn (fun i => i != 0) h (2 ^ 64 - 1) k).map Prod.fst = .ok 4112 ∧
      (callocIn (fun i => i != 0) h (2 ^ 63 + 8) 2 k).map Prod.fst = .ok 4112 :=
    ⟨_, _, rfl, rfl, rfl, rfl⟩
  obtain ⟨h, k, he, hcalls⟩ := hinit
  exact ⟨h, k, .init ⟨fun _ => 0, emptyProcess, emptyProcess_loaded, he, rfl⟩, hcalls⟩

theorem allocation_sizes_hundred :
    ∃ s, (anySize (fun i => i != 0) 4096).Reachable s ∧
      Reserves 4096 100 (mallocIn (fun i => i != 0) s.heap 100 s.kernel) := by
  obtain ⟨h, k, hreach, h100, -⟩ := onePage_process
  have hoom : mallocIn (fun i => i != 0) h 100 k ≠ .error (.kernel .outOfMemory) := by
    intro he
    rw [he] at h100
    cases h100
  exact ⟨_, hreach, ((allocation_sizes_iff hreach).1 100 (by decide) hoom).mpr (Or.inl (by decide))⟩

/-- **`malloc(SIZE_MAX)` returns a region**, and so does `calloc(2 ^ 63 + 8, 2)`. -/
theorem allocation_sizes_wrap :
    ∃ s, (anySize (fun i => i != 0) 4096).Reachable s ∧
      (mallocIn (fun i => i != 0) s.heap (2 ^ 64 - 1) s.kernel).map Prod.fst = .ok 4112 ∧
      ¬ Reserves 4096 (2 ^ 64 - 1) (mallocIn (fun i => i != 0) s.heap (2 ^ 64 - 1) s.kernel) ∧
      (callocIn (fun i => i != 0) s.heap (2 ^ 63 + 8) 2 s.kernel).map Prod.fst = .ok 4112 ∧
      ¬ ReservesZeros 4096 ((2 ^ 63 + 8) * 2)
        (callocIn (fun i => i != 0) s.heap (2 ^ 63 + 8) 2 s.kernel) := by
  obtain ⟨h, k, hreach, -, hmax, hcalloc⟩ := onePage_process
  refine ⟨_, hreach, hmax, ?_, hcalloc, ?_⟩
  · rintro ⟨p, h', k', he, rfl | hp⟩
    · rw [he] at hmax
      exact absurd (Except.ok.inj hmax : 0 = 4112) (by decide)
    · exact absurd hp.lt (by decide)
  · rintro ⟨p, h', k', he, rfl | ⟨hp, -⟩⟩
    · rw [he] at hcalloc
      exact absurd (Except.ok.inj hcalloc : 0 = 4112) (by decide)
    · exact absurd hp.lt (by decide)

end Stuos.Malloc
