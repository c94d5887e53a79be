import Mathlib.Data.List.Nodup
import Stuos.Malloc.Integrity

/-!
# Runs of the allocator

The system of the allocator and its client: calls of `malloc`, `free` and `realloc` in
any order, the client's stores into its own blocks, and changes of the memory outside the
heap (which is where the pages come from that an expansion maps).  `live` is the client's
view: the pointers it has been given and not yet freed, with the sizes it asked for.

* `heap_integrity`: in every reachable state the list is intact, the live blocks are
  aligned, inside the heap and apart from each other and from every header, and every
  admissible call returns.
* `malloc_first_fit`: `malloc` takes the first run of free regions with room, and asks for memory
  only if there is none.
* `realloc_preserves`: what `realloc` does with the block and with the others.
-/

namespace Stuos.Malloc

open Stuos.Lib

/-- The heap and the client's blocks. -/
structure System where
  heap : Heap
  live : List (Nat × Nat)

inductive Call
  | malloc (size : Nat) (expand : Expand)
  | free (ptr : Nat)
  | realloc (ptr size : Nat) (expand : Expand)
  | store (addr : Nat) (bytes : List UInt8)
  | outside (mem : Mem)

/-- A pointer the client may pass back: `NULL` or a live one. -/
def Passable (live : List (Nat × Nat)) (ptr : Nat) : Prop := ptr = 0 ∨ ∃ n, (ptr, n) ∈ live

/-- What the client and the system around the heap may do. -/
def Call.Admissible (heapStart : Nat) (s : System) : Call → Prop
  | .malloc size expand => size + 31 < 2 ^ 64 ∧ ExpandsTo expand heapStart s.heap.heapEnd
  | .free ptr => Passable s.live ptr
  | .realloc ptr size expand =>
    Passable s.live ptr ∧ size + 31 < 2 ^ 64 ∧ ExpandsTo expand heapStart s.heap.heapEnd
  | .store addr bytes => ∃ b ∈ s.live, b.1 ≤ addr ∧ addr + bytes.length ≤ b.1 + b.2
  | .outside mem => ∀ i, heapStart ≤ i → i < s.heap.heapEnd → mem i = s.heap.mem i

/-- The blocks after `ptr` has been freed. -/
def release (live : List (Nat × Nat)) (ptr : Nat) : List (Nat × Nat) :=
  live.filter fun b => b.1 ≠ ptr

/-- The return value, if any, and the system afterwards. -/
def Call.exec (s : System) : Call → Except Halt (Nat × System)
  | .malloc size expand => do
    let r ← Malloc.malloc s.heap size expand
    .ok (r.1, ⟨r.2, if r.1 = 0 then s.live else (r.1, size) :: s.live⟩)
  | .free ptr => do
    let h ← Malloc.free s.heap ptr
    .ok (0, ⟨h, release s.live ptr⟩)
  | .realloc ptr size expand => do
    let r ← Malloc.realloc s.heap ptr size expand
    .ok (r.1, ⟨r.2, if r.1 = 0 then s.live else (r.1, size) :: release s.live ptr⟩)
  | .store addr bytes =>
    .ok (0, { s with heap := { s.heap with mem := s.heap.mem.write addr bytes } })
  | .outside mem => .ok (0, { s with heap := { s.heap with mem := mem } })

/-- The allocator from `init_memory_allocator` on. -/
def allocator (heapStart : Nat) : Lts System (Call × Nat) where
  init s := ∃ mem expand, ExpandsTo expand heapStart heapStart ∧
    initMemoryAllocator mem heapStart expand = .ok s.heap ∧ s.live = []
  step s c s' := c.1.Admissible heapStart s ∧ c.1.exec s = .ok (c.2, s')

/-! ### The invariant -/

/-- Every live block is a held region of the list. -/
structure Inv (heapStart : Nat) (s : System) (nodes : List (Nat × Bool)) : Prop where
  rep : Rep s.heap heapStart nodes
  held : ∀ b ∈ s.live, ∃ c, b.1 = c + 16 ∧ Held nodes s.heap.heapEnd c b.2
  nodup : (s.live.map Prod.fst).Nodup

/-- Every region in use is a live block. -/
def Tight (s : System) (nodes : List (Nat × Bool)) : Prop :=
  ∀ c, (c, false) ∈ nodes → c + 16 ∈ s.live.map Prod.fst

theorem mem_release {live : List (Nat × Nat)} {ptr : Nat} {b : Nat × Nat} :
    b ∈ release live ptr ↔ b ∈ live ∧ b.1 ≠ ptr := by
  simp [release]

theorem release_nodup {live : List (Nat × Nat)} (h : (live.map Prod.fst).Nodup) (ptr : Nat) :
    ((release live ptr).map Prod.fst).Nodup :=
  h.sublist (List.Sublist.map Prod.fst List.filter_sublist)

theorem mem_release_fst {live : List (Nat × Nat)} {ptr p : Nat} (h : p ∈ live.map Prod.fst)
    (hne : p ≠ ptr) : p ∈ (release live ptr).map Prod.fst := by
  obtain ⟨b, hb, rfl⟩ := List.mem_map.mp h
  exact List.mem_map.mpr ⟨b, mem_release.mpr ⟨hb, hne⟩, rfl⟩

namespace Inv

variable {heapStart : Nat} {s : System} {nodes : List (Nat × Bool)}

theorem release_zero (hi : Inv heapStart s nodes) : release s.live 0 = s.live := by
  refine List.filter_eq_self.mpr fun b hb => ?_
  obtain ⟨c, hc, -⟩ := hi.held b hb
  simp only [ne_eq, decide_eq_true_eq]
  omega

theorem held_of_keeps (hi : Inv heapStart s nodes) {h' : Heap} {nodes' : List (Nat × Bool)}
    (hk : Keeps s.heap nodes h' nodes') {b : Nat × Nat} (hb : b ∈ s.live) :
    ∃ c, b.1 = c + 16 ∧ Held nodes' h'.heapEnd c b.2 := by
  obtain ⟨c, hc, hh⟩ := hi.held b hb
  exact ⟨c, hc, (hk c b.2 hh).1⟩

theorem held_of_keepsBut (hi : Inv heapStart s nodes) {a : Nat} {h' : Heap}
    {nodes' : List (Nat × Bool)} (hk : KeepsBut a s.heap nodes h' nodes') {b : Nat × Nat}
    (hb : b ∈ release s.live (a + 16)) : ∃ c, b.1 = c + 16 ∧ Held nodes' h'.heapEnd c b.2 := by
  obtain ⟨hbl, hne⟩ := mem_release.mp hb
  obtain ⟨c, hc, hh⟩ := hi.held b hbl
  exact ⟨c, hc, (hk c b.2 (by rintro rfl; exact hne hc) hh).1⟩

theorem not_live (hi : Inv heapStart s nodes) {c : Nat} (hnew : (c, false) ∉ nodes) :
    c + 16 ∉ s.live.map Prod.fst := by
  intro hmem
  obtain ⟨b, hb, he⟩ := List.mem_map.mp hmem
  obtain ⟨c', hc', hh⟩ := hi.held b hb
  obtain rfl : c' = c := by omega
  exact hnew hh.mem

/-- `malloc` keeps the invariant. -/
theorem malloc (hi : Inv heapStart s nodes) {size : Nat} {expand : Expand}
    (hn : size + 31 < 2 ^ 64) (hx : ExpandsTo expand heapStart s.heap.heapEnd) :
    ∃ p h' nodes', Malloc.malloc s.heap size expand = .ok (p, h') ∧
      Inv heapStart ⟨h', if p = 0 then s.live else (p, size) :: s.live⟩ nodes' ∧
      (Tight s nodes → Tight ⟨h', if p = 0 then s.live else (p, size) :: s.live⟩ nodes') := by
  obtain ⟨p, h', nodes', he, hr, hk, hu, hp⟩ := malloc_spec hi.rep hx hn
  refine ⟨p, h', nodes', he, ?_⟩
  rcases hp with rfl | ⟨c, rfl, hheld, hnew⟩
  · refine ⟨⟨hr, fun b hb => hi.held_of_keeps hk hb, hi.nodup⟩, fun ht b hb => ?_⟩
    exact ht b ((hu b hb).resolve_left (by omega))
  · rw [if_neg (show ¬c + 16 = 0 by omega)]
    refine ⟨⟨hr, ?_, ?_⟩, fun ht b hb => ?_⟩
    · intro b hb
      rcases List.mem_cons.mp hb with rfl | hb
      · exact ⟨c, rfl, hheld⟩
      · exact hi.held_of_keeps hk hb
    · exact List.nodup_cons.mpr ⟨hi.not_live hnew, hi.nodup⟩
    · exact List.mem_cons.mpr ((hu b hb).imp Eq.symm (ht b))

/-- `free` keeps the invariant. -/
theorem free (hi : Inv heapStart s nodes) {ptr : Nat} (hp : Passable s.live ptr) :
    ∃ h' nodes', Malloc.free s.heap ptr = .ok h' ∧
      Inv heapStart ⟨h', release s.live ptr⟩ nodes' ∧
      (Tight s nodes → Tight ⟨h', release s.live ptr⟩ nodes') := by
  rcases hp with rfl | ⟨n, hn⟩
  · rw [hi.release_zero]
    exact ⟨s.heap, nodes, rfl, hi, fun ht => ht⟩
  · obtain ⟨a, ha, hh⟩ := hi.held _ hn
    simp only at ha
    subst ha
    obtain ⟨h', nodes', he, hr, hk, -, hu⟩ := free_spec hi.rep hh.mem
    refine ⟨h', nodes', he,
      ⟨hr, fun b hb => hi.held_of_keepsBut hk hb, release_nodup hi.nodup _⟩, fun ht b hb => ?_⟩
    obtain ⟨hne, hb⟩ := hu b hb
    exact mem_release_fst (ht b hb) (by omega)

theorem read_of_keeps (hi : Inv heapStart s nodes) {h' : Heap} {nodes' : List (Nat × Bool)}
    (hk : Keeps s.heap nodes h' nodes') {b : Nat × Nat} (hb : b ∈ s.live) :
    h'.mem.read b.1 b.2 = s.heap.mem.read b.1 b.2 := by
  obtain ⟨c, hc, hh⟩ := hi.held b hb
  rw [hc]
  exact Mem.read_congr (hk c b.2 hh).2

theorem read_of_keepsBut (hi : Inv heapStart s nodes) {a : Nat} {h' : Heap}
    {nodes' : List (Nat × Bool)} (hk : KeepsBut a s.heap nodes h' nodes') {b : Nat × Nat}
    (hb : b ∈ s.live) (hne : b.1 ≠ a + 16) :
    h'.mem.read b.1 b.2 = s.heap.mem.read b.1 b.2 := by
  obtain ⟨c, hc, hh⟩ := hi.held b hb
  rw [hc]
  exact Mem.read_congr (hk c b.2 (by rintro rfl; exact hne hc) hh).2

/-- **`realloc` of a live block** keeps the invariant, and moves the block or leaves it alone. -/
theorem realloc_live (hi : Inv heapStart s nodes) {ptr n size : Nat} {expand : Expand}
    (hlive : (ptr, n) ∈ s.live) (hn : size + 31 < 2 ^ 64)
    (hx : ExpandsTo expand heapStart s.heap.heapEnd) :
    ∃ p h' nodes', Malloc.realloc s.heap ptr size expand = .ok (p, h') ∧
      Inv heapStart ⟨h', if p = 0 then s.live else (p, size) :: release s.live ptr⟩ nodes' ∧
      (Tight s nodes →
        Tight ⟨h', if p = 0 then s.live else (p, size) :: release s.live ptr⟩ nodes') ∧
      (∀ b ∈ s.live, b.1 ≠ ptr → h'.mem.read b.1 b.2 = s.heap.mem.read b.1 b.2) ∧
      (p = 0 → h'.mem.read ptr n = s.heap.mem.read ptr n) ∧
      (p ≠ 0 → (headerOf ptr, true) ∈ nodes' ∧
        h'.mem.read p (min n size) = s.heap.mem.read ptr (min n size)) := by
  obtain ⟨a, ha, hh⟩ := hi.held _ hlive
  simp only at ha hh
  subst ha
  obtain ⟨p, h', nodes', he, hr, hcase⟩ := realloc_spec hi.rep hx hn hh
  refine ⟨p, h', nodes', he, ?_⟩
  rcases hcase with ⟨rfl, hk, hu⟩ | ⟨hk, hfreed, hu, c, rfl, hheld, hnew, hdata⟩
  · refine ⟨⟨hr, fun b hb => hi.held_of_keeps hk hb, hi.nodup⟩, fun ht b hb => ht b (hu b hb),
      fun b hb _ => hi.read_of_keeps hk hb, fun _ => hi.read_of_keeps hk hlive, ?_⟩
    exact fun h => absurd rfl h
  · have hc0 : ¬ c + 16 = 0 := by omega
    rw [if_neg hc0]
    refine ⟨⟨hr, ?_, ?_⟩, fun ht b hb => ?_, fun b hb hne => hi.read_of_keepsBut hk hb hne,
      fun h => absurd h hc0, fun _ => ⟨?_, ?_⟩⟩
    · intro b hb
      rcases List.mem_cons.mp hb with rfl | hb
      · exact ⟨c, rfl, hheld⟩
      · exact hi.held_of_keepsBut hk hb
    · refine List.nodup_cons.mpr ⟨fun hmem => hi.not_live hnew ?_, release_nodup hi.nodup _⟩
      obtain ⟨b, hb, he'⟩ := List.mem_map.mp hmem
      exact List.mem_map.mpr ⟨b, (mem_release.mp hb).1, he'⟩
    · obtain ⟨hne, hb⟩ := hu b hb
      exact List.mem_cons.mpr (hb.imp Eq.symm fun hb => mem_release_fst (ht b hb) (by omega))
    · rw [headerOf_eq (hi.rep.addr_lt hh.mem)]
      exact hfreed
    · refine List.ext_getElem? fun i => ?_
      rw [Mem.read_getElem?, Mem.read_getElem?]
      by_cases hlt : i < min n size
      · rw [if_pos hlt, if_pos hlt, hdata i hlt]
      · rw [if_neg hlt, if_neg hlt]

/-- `realloc` keeps the invariant. -/
theorem realloc (hi : Inv heapStart s nodes) {ptr size : Nat} {expand : Expand}
    (hp : Passable s.live ptr) (hn : size + 31 < 2 ^ 64)
    (hx : ExpandsTo expand heapStart s.heap.heapEnd) :
    ∃ p h' nodes', Malloc.realloc s.heap ptr size expand = .ok (p, h') ∧
      Inv heapStart ⟨h', if p = 0 then s.live else (p, size) :: release s.live ptr⟩ nodes' ∧
      (Tight s nodes →
        Tight ⟨h', if p = 0 then s.live else (p, size) :: release s.live ptr⟩ nodes') := by
  rcases hp with rfl | ⟨n, hlive⟩
  · obtain ⟨p, h', nodes', he, hi'⟩ := hi.malloc hn hx
    refine ⟨p, h', nodes', ?_, ?_⟩
    · rw [Malloc.realloc, he, ok_bind, if_pos (Or.inl rfl)]
    · rw [hi.release_zero]
      exact hi'
  · obtain ⟨p, h', nodes', he, hi', ht, -⟩ := hi.realloc_live hlive hn hx
    exact ⟨p, h', nodes', he, hi', ht⟩

theorem store (hi : Inv heapStart s nodes) {addr : Nat} {bytes : List UInt8}
    (ha : ∃ b ∈ s.live, b.1 ≤ addr ∧ addr + bytes.length ≤ b.1 + b.2) :
    Inv heapStart { s with heap := { s.heap with mem := s.heap.mem.write addr bytes } } nodes := by
  obtain ⟨b, hb, h1, h2⟩ := ha
  obtain ⟨c, hc, hh⟩ := hi.held b hb
  have hr := (hi.rep.store hh addr bytes (by omega) (by omega)).1
  exact ⟨hr, hi.held, hi.nodup⟩

theorem outside (hi : Inv heapStart s nodes) {mem : Mem}
    (hm : ∀ i, heapStart ≤ i → i < s.heap.heapEnd → mem i = s.heap.mem i) :
    Inv heapStart { s with heap := { s.heap with mem := mem } } nodes := by
  have hr := hi.rep
  refine ⟨⟨hr.start, hr.head, hr.pos, hr.tail, ?_, hr.tiles, hr.aligned, hr.endAligned, hr.size,
    hr.endLt⟩, hi.held, hi.nodup⟩
  refine hr.linked.frame fun x hx i h1 h2 => hm i ?_ ?_
  · have := (hr.bounds hx).1
    omega
  · have := (hr.bounds hx).2
    omega

/-- **Every admissible call returns and keeps the invariant.** -/
theorem exec (hi : Inv heapStart s nodes) {c : Call} (hc : c.Admissible heapStart s) :
    ∃ ret s' nodes', c.exec s = .ok (ret, s') ∧ Inv heapStart s' nodes' ∧
      (Tight s nodes → Tight s' nodes') := by
  cases c with
  | malloc size expand =>
    obtain ⟨p, h', nodes', he, hi'⟩ := hi.malloc hc.1 hc.2
    exact ⟨p, _, nodes', by rw [Call.exec, he, ok_bind], hi'⟩
  | free ptr =>
    obtain ⟨h', nodes', he, hi'⟩ := hi.free hc
    exact ⟨0, _, nodes', by rw [Call.exec, he, ok_bind], hi'⟩
  | realloc ptr size expand =>
    obtain ⟨p, h', nodes', he, hi'⟩ := hi.realloc hc.1 hc.2.1 hc.2.2
    exact ⟨p, _, nodes', by rw [Call.exec, he, ok_bind], hi'⟩
  | store addr bytes => exact ⟨0, _, nodes, rfl, hi.store hc, fun ht => ht⟩
  | outside mem => exact ⟨0, _, nodes, rfl, hi.outside hc, fun ht => ht⟩

end Inv

/-- **`init_memory_allocator`** sets up a list with one free region. -/
theorem init_rep {heapStart : Nat} (hal : 16 ∣ heapStart) (hpos : 0 < heapStart) {mem : Mem}
    {expand : Expand} (hx : ExpandsTo expand heapStart heapStart) {h : Heap}
    (he : initMemoryAllocator mem heapStart expand = .ok h) : Rep h heapStart [(heapStart, true)] := by
  obtain ⟨hpages, hlt, hsize⟩ := hx 16
  rw [initMemoryAllocator, bind_eq_ok] at he
  obtain ⟨_, hge, he⟩ := he
  rw [ensure_eq_ok] at hge
  simp only [Except.ok.injEq, u64_of_lt hlt] at he
  subst he
  refine ⟨rfl, rfl, hpos, ⟨[], _, rfl, rfl⟩, ⟨header_lliNew mem (by simp) heapStart, trivial⟩,
    ⟨?_, trivial⟩, ?_, ?_, hsize, hlt⟩
  · simp only [startOr_nil]
    omega
  · intro x hx
    rw [List.mem_singleton] at hx
    exact hx ▸ hal
  · simp only
    omega

theorem reachable_inv {heapStart : Nat} (hal : 16 ∣ heapStart) (hpos : 0 < heapStart) {s : System}
    (h : (allocator heapStart).Reachable s) : ∃ nodes, Inv heapStart s nodes ∧ Tight s nodes := by
  refine h.invariant (P := fun s => ∃ nodes, Inv heapStart s nodes ∧ Tight s nodes) ?_ ?_
  · rintro s ⟨mem, expand, hx, he, hlive⟩
    exact ⟨_, ⟨init_rep hal hpos hx he, by simp [hlive], by simp [hlive]⟩, by simp [Tight]⟩
  · rintro s ⟨c, ret⟩ s' ⟨nodes, hi, ht⟩ ⟨hc, he⟩
    obtain ⟨ret', s'', nodes', he', hi', ht'⟩ := hi.exec hc
    simp only at he he'
    rw [he', Except.ok.injEq, Prod.mk.injEq] at he
    exact ⟨nodes', he.2 ▸ hi', he.2 ▸ ht' ht⟩

/-! ### Integrity -/

/-- Two blocks do not overlap. -/
def Apart (b c : Nat × Nat) : Prop := b.1 + b.2 ≤ c.1 ∨ c.1 + c.2 ≤ b.1

/-- A block is aligned, lies inside the heap and meets no header. -/
structure Placed (heapStart : Nat) (h : Heap) (nodes : List (Nat × Bool)) (b : Nat × Nat) :
    Prop where
  aligned : 16 ∣ b.1
  lower : heapStart ≤ b.1
  upper : b.1 + b.2 ≤ h.heapEnd
  headers : ∀ x ∈ nodes, x.1 + 16 ≤ b.1 ∨ b.1 + b.2 ≤ x.1

namespace Inv

variable {heapStart : Nat} {s : System} {nodes : List (Nat × Bool)}

theorem placed (hi : Inv heapStart s nodes) {b : Nat × Nat} (hb : b ∈ s.live) :
    Placed heapStart s.heap nodes b := by
  obtain ⟨c, hc, hh⟩ := hi.held b hb
  have hal : 16 ∣ c := hi.rep.aligned (c, false) hh.mem
  have hlo : heapStart ≤ c := (hi.rep.bounds hh.mem).1
  have hle := hh.le
  refine ⟨by omega, by omega, by omega, fun x hx => ?_⟩
  have := hh.clear x hx
  omega

theorem apart (hi : Inv heapStart s nodes) {b c : Nat × Nat} (hb : b ∈ s.live) (hc : c ∈ s.live)
    (hne : b.1 ≠ c.1) : Apart b c := by
  obtain ⟨a, ha, hha⟩ := hi.held b hb
  obtain ⟨d, hd, hhd⟩ := hi.held c hc
  have := hha.apart hhd (by omega)
  unfold Apart
  omega

theorem pairwise (hi : Inv heapStart s nodes) : s.live.Pairwise Apart := by
  have hne : s.live.Pairwise fun b c => b.1 ≠ c.1 := List.pairwise_map.mp hi.nodup
  exact hne.imp_of_mem fun hb hc h => hi.apart hb hc h

end Inv

/-- **Integrity of the heap**: in every state that calls can reach, the headers form a list
that tiles `[heap_start, heap_end)`, the live blocks are aligned, inside the heap, off every
header and apart from each other, every admissible call returns, and a block that `malloc`
returns is placed so, apart from the blocks that were live. -/
theorem heap_integrity (heapStart : Nat) (hal : 16 ∣ heapStart) (hpos : 0 < heapStart)
    (s : System) (h : (allocator heapStart).Reachable s) :
    (∃ nodes, Rep s.heap heapStart nodes ∧ (∀ b ∈ s.live, Placed heapStart s.heap nodes b) ∧
      s.live.Pairwise Apart) ∧
    (∀ c : Call, c.Admissible heapStart s → ∃ ret s', c.exec s = .ok (ret, s')) ∧
    ∀ size expand p s', (Call.malloc size expand).Admissible heapStart s →
      (Call.malloc size expand).exec s = .ok (p, s') → p ≠ 0 →
      ∃ nodes, Rep s'.heap heapStart nodes ∧ Placed heapStart s'.heap nodes (p, size) ∧
        ∀ b ∈ s.live, Apart (p, size) b := by
  obtain ⟨nodes, hi, -⟩ := reachable_inv hal hpos h
  refine ⟨⟨nodes, hi.rep, fun b hb => hi.placed hb, hi.pairwise⟩, ?_, ?_⟩
  · intro c hc
    obtain ⟨ret, s', -, he, -⟩ := hi.exec hc
    exact ⟨ret, s', he⟩
  · intro size expand p s' hc he hp
    obtain ⟨q, h', nodes', hm, hi', -⟩ := hi.malloc hc.1 hc.2
    rw [Call.exec, hm, ok_bind, Except.ok.injEq, Prod.mk.injEq] at he
    obtain ⟨rfl, rfl⟩ := he
    simp only at hp
    simp only [if_neg hp] at hi' ⊢
    refine ⟨nodes', hi'.rep, hi'.placed (by simp), ?_⟩
    have := hi'.pairwise
    exact (List.pairwise_cons.mp this).1

/-- A heap at 4096, before the first call, that is given one page at a time. -/
def onePage : System := ⟨⟨lliNew (fun _ => 0) 0 4096, 4096, 4096, 8192⟩, []⟩

theorem onePage_expandsTo {heapEnd : Nat} (hal : 4096 ∣ heapEnd) (hle : heapEnd ≤ 8192) :
    ExpandsTo (fun _ _ => 4096) 4096 heapEnd := by
  intro bytes
  simp only
  omega

theorem onePage_reachable : (allocator 4096).Reachable onePage :=
  .init ⟨fun _ => 0, fun _ _ => 4096, onePage_expandsTo (by omega) (by omega), rfl, rfl⟩

/-- The first `malloc(100)` returns the block behind the first header. -/
theorem heap_integrity_first_block :
    ∃ s p s', (allocator 4096).Reachable s ∧
      (Call.malloc 100 fun _ _ => 4096).exec s = .ok (p, s') ∧ p = 4112 ∧
      ∃ nodes, Rep s'.heap 4096 nodes ∧ Placed 4096 s'.heap nodes (p, 100) := by
  have hadm : (Call.malloc 100 fun _ _ => 4096).Admissible 4096 onePage :=
    ⟨by omega, onePage_expandsTo (by decide) (by decide)⟩
  have hint := heap_integrity 4096 (by omega) (by omega) _ onePage_reachable
  obtain ⟨p, s', he⟩ := hint.2.1 _ hadm
  have hp : p = 4112 := by
    have h1 : ((Call.malloc 100 fun _ _ => 4096).exec onePage).map Prod.fst = .ok 4112 := by decide
    rw [he] at h1
    simpa [Except.map] using h1
  obtain ⟨nodes, hr, hpl, -⟩ := hint.2.2 _ _ p s' hadm he (by omega)
  exact ⟨_, p, s', onePage_reachable, he, hp, nodes, hr, hpl⟩

/-! ### First fit -/

/-- The run from `a` up to `e` has room for a block of `n` bytes, in multiples of 16. -/
def RoomFor (n a e : Nat) : Prop := (n + 15) / 16 * 16 ≤ e - (a + 16)

/-- **First fit with full coalescing**: if there is a run of free regions with room for the
request, `malloc` returns the block at the start of the first one, and neither moves the end of the
heap nor depends on what an expansion would do.  Without live blocks, the whole heap is such a
run. -/
theorem malloc_first_fit (heapStart : Nat) (hal : 16 ∣ heapStart) (hpos : 0 < heapStart)
    (s : System) (h : (allocator heapStart).Reachable s) {n : Nat} (h0 : 0 < n)
    (hn : n + 31 < 2 ^ 64) :
    ∃ nodes, Rep s.heap heapStart nodes ∧
      ((∃ a e, FreeRun s.heap.heapEnd nodes a e ∧ RoomFor n a e) →
        ∃ a e h', FreeRun s.heap.heapEnd nodes a e ∧ RoomFor n a e ∧
          (∀ a' e', FreeRun s.heap.heapEnd nodes a' e' → RoomFor n a' e' → a ≤ a') ∧
          h'.heapEnd = s.heap.heapEnd ∧ ∀ expand, malloc s.heap n expand = .ok (a + 16, h')) ∧
      (s.live = [] → n ≤ s.heap.heapEnd - heapStart - 16 →
        ∃ h', h'.heapEnd = s.heap.heapEnd ∧
          ∀ expand, malloc s.heap n expand = .ok (heapStart + 16, h')) := by
  obtain ⟨nodes, hi, ht⟩ := reachable_inv hal hpos h
  have hr := hi.rep
  have hsize : alignSize n = (n + 15) / 16 * 16 := alignSize_eq (by omega)
  have hfit := firstFit_spec (alignSize n) hr.tiles
  have hmalloc : ∀ c, (firstFit 16 (alignSize n) s.heap.heapEnd nodes).1 = some c →
      ∃ h', h'.heapEnd = s.heap.heapEnd ∧ ∀ expand, malloc s.heap n expand = .ok (c + 16, h') :=
    fun c hc => malloc_of_found hr h0 hc
  rw [hsize] at hfit hmalloc
  have hfirst : (∃ a e, FreeRun s.heap.heapEnd nodes a e ∧ RoomFor n a e) →
      ∃ a e h', FreeRun s.heap.heapEnd nodes a e ∧ RoomFor n a e ∧
        (∀ a' e', FreeRun s.heap.heapEnd nodes a' e' → RoomFor n a' e' → a ≤ a') ∧
        h'.heapEnd = s.heap.heapEnd ∧ ∀ expand, malloc s.heap n expand = .ok (a + 16, h') := by
    rintro ⟨a, e, hrun, hroom⟩
    cases hfound : (firstFit 16 ((n + 15) / 16 * 16) s.heap.heapEnd nodes).1 with
    | none =>
      rw [hfound] at hfit
      exact absurd (hfit a e hrun) (Nat.not_lt.mpr hroom)
    | some c =>
      rw [hfound] at hfit
      obtain ⟨⟨e', hrun', hroom'⟩, hleast⟩ := hfit
      obtain ⟨h', hend, he⟩ := hmalloc c hfound
      exact ⟨c, e', h', hrun', hroom', hleast, hend, he⟩
  refine ⟨nodes, hr, hfirst, fun hlive hle => ?_⟩
  -- all regions are free, so they are one run
  have hfree : ∀ x ∈ nodes, x.2 = true := by
    rintro ⟨a, f⟩ hx
    cases f with
    | true => rfl
    | false =>
      have := ht a hx
      rw [hlive] at this
      cases this
  have hne : nodes ≠ [] := by
    rintro rfl
    exact absurd hr.start (by simpa using (Nat.ne_of_gt hpos).symm)
  have hstart : startOr s.heap.heapEnd nodes = heapStart := by
    obtain ⟨x, l, rfl⟩ := List.exists_cons_of_ne_nil hne
    exact hr.start
  have hrun : FreeRun s.heap.heapEnd nodes heapStart s.heap.heapEnd :=
    ⟨[], nodes, [], by simp, hne, hfree, hstart, rfl, by simp, by simp⟩
  have hend := hr.endAligned
  have hroom : RoomFor n heapStart s.heap.heapEnd := by
    unfold RoomFor
    omega
  obtain ⟨a, e, h', hrun', -, hleast, hend', he⟩ := hfirst ⟨_, _, hrun, hroom⟩
  -- no run starts before the heap
  have hle : heapStart ≤ a := (hr.bounds hrun'.start_mem).1
  obtain rfl : a = heapStart := Nat.le_antisymm (hleast _ _ hrun hroom) hle
  exact ⟨h', hend', he⟩

/-- Without live blocks, all that one page has room for is a block of 4080 bytes. -/
theorem malloc_first_fit_one_page :
    ∃ s h', (allocator 4096).Reachable s ∧ s.live = [] ∧
      ∀ expand, malloc s.heap 4080 expand = .ok (4112, h') := by
  obtain ⟨-, -, -, hempty⟩ := malloc_first_fit 4096 (by omega) (by omega) onePage onePage_reachable
    (n := 4080) (by omega) (by omega)
  obtain ⟨h', -, he⟩ := hempty rfl (by decide)
  exact ⟨onePage, h', onePage_reachable, rfl, he⟩

/-! ### Moving a block -/

/-- **`realloc` preserves the data or changes nothing**: it returns, and then the live blocks are
placed as before and in use; all but the one that was passed are still live with their bytes.  If
it returns a block, that starts with the bytes of the old one, whose region is free.  If it
returns 0, the old block is live with all its bytes. -/
theorem realloc_preserves (heapStart : Nat) (hal : 16 ∣ heapStart) (hpos : 0 < heapStart)
    (s : System) (h : (allocator heapStart).Reachable s) {ptr n size : Nat} {expand : Expand}
    (hlive : (ptr, n) ∈ s.live) (hadm : (Call.realloc ptr size expand).Admissible heapStart s) :
    ∃ p s' nodes, (Call.realloc ptr size expand).exec s = .ok (p, s') ∧
      Rep s'.heap heapStart nodes ∧
      (∀ b ∈ s'.live, Placed heapStart s'.heap nodes b ∧ (headerOf b.1, false) ∈ nodes) ∧
      (∀ b ∈ s.live, b.1 ≠ ptr →
        b ∈ s'.live ∧ s'.heap.mem.read b.1 b.2 = s.heap.mem.read b.1 b.2) ∧
      (p ≠ 0 → (p, size) ∈ s'.live ∧ (headerOf ptr, true) ∈ nodes ∧
        s'.heap.mem.read p (min n size) = s.heap.mem.read ptr (min n size)) ∧
      (p = 0 → (ptr, n) ∈ s'.live ∧ s'.heap.mem.read ptr n = s.heap.mem.read ptr n) := by
  obtain ⟨nodes, hi, -⟩ := reachable_inv hal hpos h
  obtain ⟨p, h', nodes', he, hi', -, hothers, hfail, hmoved⟩ :=
    hi.realloc_live hlive hadm.2.1 hadm.2.2
  refine ⟨p, _, nodes', by rw [Call.exec, he, ok_bind], hi'.rep, fun b hb => ⟨hi'.placed hb, ?_⟩,
    fun b hb hne => ⟨?_, hothers b hb hne⟩, fun hp => ?_, fun hp => ?_⟩
  · obtain ⟨c, hc, hh⟩ := hi'.held b hb
    rw [hc, headerOf_eq (hi'.rep.addr_lt hh.mem)]
    exact hh.mem
  · simp only
    split
    · exact hb
    · exact List.mem_cons_of_mem _ (mem_release.mpr ⟨hb, hne⟩)
  · simp only [if_neg hp]
    exact ⟨List.mem_cons_self, hmoved hp⟩
  · simp only [if_pos hp]
    exact ⟨hlive, hfail hp⟩

/-- A block of 100 bytes, which `realloc` moves to one of 200. -/
theorem realloc_preserves_first_block :
    ∃ s p s', (allocator 4096).Reachable s ∧ (4112, 100) ∈ s.live ∧
      (Call.realloc 4112 200 fun _ _ => 4096).exec s = .ok (p, s') ∧ p = 4240 ∧
      s'.heap.mem.read 4240 100 = s.heap.mem.read 4112 100 := by
  have hcalls : ∃ p s, (Call.malloc 100 fun _ _ => 4096).exec onePage = .ok (p, s) ∧
      s.live = [(4112, 100)] ∧ s.heap.heapEnd = 8192 ∧
      ((Call.realloc 4112 200 fun _ _ => 4096).exec s).map Prod.fst = .ok 4240 :=
    ⟨_, _, rfl, rfl, rfl, rfl⟩
  obtain ⟨p, s, he, hlive, hend, hret⟩ := hcalls
  have hreach : (allocator 4096).Reachable s :=
    onePage_reachable.step (a := (Call.malloc 100 fun _ _ => 4096, p))
      ⟨⟨by omega, onePage_expandsTo (by decide) (by decide)⟩, he⟩
  have hmem : (4112, 100) ∈ s.live := by simp [hlive]
  have hadm : (Call.realloc 4112 200 fun _ _ => 4096).Admissible 4096 s :=
    ⟨Or.inr ⟨100, hmem⟩, by omega, onePage_expandsTo (hend ▸ by decide) (by omega)⟩
  obtain ⟨q, s', nodes, he', -, -, -, hmoved, -⟩ :=
    realloc_preserves 4096 (by omega) (by omega) s hreach hmem hadm
  have hq : q = 4240 := by
    rw [he'] at hret
    exact Except.ok.inj hret
  subst hq
  exact ⟨s, 4240, s', hreach, hmem, he', rfl, (hmoved (by omega)).2.2⟩

end Stuos.Malloc
