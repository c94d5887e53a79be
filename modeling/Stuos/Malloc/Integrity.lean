import Stuos.Lib.FirstFit
import Stuos.Lib.Lts
import Stuos.Malloc.Library

/-!
# Integrity of the heap

The regions of the heap are a list of addresses with a tag, whether the region is free.
`Rep h lo nodes` says that the headers in memory are that list: it starts at `lo`, is
linked in the order of the addresses, has `tail` as its last element, and tiles
`[lo, heap_end)` exactly.

A client's block is `Held`: its region is in the list, marked used, and no other region
starts in the bytes the client asked for.  `Keeps` says that a function leaves every
held block held, with its bytes.

* `malloc_spec`, `free_spec`, `realloc_spec`: the functions return and keep all this.
* `heap_integrity`: so it holds after every sequence of calls.
-/

namespace Stuos.Malloc

open Stuos.Lib

/-! ### The list in memory -/

/-- The headers at the addresses of the list are linked, and the last one holds `z`. -/
def Linked (m : Mem) (z : Nat) : List (Nat × Bool) → Prop
  | [] => True
  | x :: l => Header m x.1 (startOr z l) x.2 ∧ Linked m z l

theorem Linked.append_iff {m : Mem} {z : Nat} (l₁ l₂ : List (Nat × Bool)) :
    Linked m z (l₁ ++ l₂) ↔ Linked m (startOr z l₂) l₁ ∧ Linked m z l₂ := by
  induction l₁ with
  | nil => simp [Linked]
  | cons x l₁ ih => rw [List.cons_append, Linked, Linked, ih, startOr_append, and_assoc]

theorem Linked.frame {m m' : Mem} {z : Nat} {l : List (Nat × Bool)} (h : Linked m z l)
    (hm : ∀ x ∈ l, ∀ i, x.1 ≤ i → i < x.1 + 16 → m' i = m i) : Linked m' z l := by
  induction l with
  | nil => trivial
  | cons x l ih =>
    exact ⟨h.1.frame (hm x (by simp)), ih h.2 fun y hy => hm y (by simp [hy])⟩

theorem Linked.sameBut {m m' : Mem} {z a : Nat} {l : List (Nat × Bool)} (h : Linked m z l)
    (hm : SameBut a m m') (ha : ∀ x ∈ l, x.1 + 16 ≤ a ∨ a + 16 ≤ x.1) : Linked m' z l :=
  h.frame fun x hx i h1 h2 => hm i (by have := ha x hx; omega)

/-- **The headers in memory are the list `nodes`**, which tiles `[lo, heap_end)`. -/
structure Rep (h : Heap) (lo : Nat) (nodes : List (Nat × Bool)) : Prop where
  start : startOr 0 nodes = lo
  head : h.head = lo
  pos : 0 < lo
  tail : ∃ front x, nodes = front ++ [x] ∧ x.1 = h.tail
  linked : Linked h.mem 0 nodes
  tiles : Tiles 16 h.heapEnd nodes
  aligned : ∀ x ∈ nodes, 16 ∣ x.1
  endAligned : 16 ∣ h.heapEnd
  size : h.heapEnd < lo + 2 ^ 63
  endLt : h.heapEnd < 2 ^ 64

/-- The `n` bytes behind the header at `a` belong to a client. -/
structure Held (nodes : List (Nat × Bool)) (heapEnd a n : Nat) : Prop where
  mem : (a, false) ∈ nodes
  clear : Clear 16 nodes a n
  le : a + 16 + n ≤ heapEnd

/-- Every block that is held stays held and keeps its bytes. -/
def Keeps (h : Heap) (nodes : List (Nat × Bool)) (h' : Heap) (nodes' : List (Nat × Bool)) : Prop :=
  ∀ a n, Held nodes h.heapEnd a n → Held nodes' h'.heapEnd a n ∧
    ∀ i, a + 16 ≤ i → i < a + 16 + n → h'.mem i = h.mem i

/-- No region has come to be used. -/
def UsedBefore (nodes nodes' : List (Nat × Bool)) : Prop :=
  ∀ a, (a, false) ∈ nodes' → (a, false) ∈ nodes

theorem Keeps.refl (h : Heap) (nodes : List (Nat × Bool)) : Keeps h nodes h nodes :=
  fun _ _ hh => ⟨hh, fun _ _ _ => rfl⟩

theorem Keeps.trans {h h' h'' : Heap} {nodes nodes' nodes'' : List (Nat × Bool)}
    (h₁ : Keeps h nodes h' nodes') (h₂ : Keeps h' nodes' h'' nodes'') :
    Keeps h nodes h'' nodes'' := by
  intro a n hh
  obtain ⟨hh', hd⟩ := h₁ a n hh
  obtain ⟨hh'', hd'⟩ := h₂ a n hh'
  exact ⟨hh'', fun i h1 h2 => (hd' i h1 h2).trans (hd i h1 h2)⟩

theorem Held.header_apart {nodes : List (Nat × Bool)} {heapEnd a n i : Nat}
    (hh : Held nodes heapEnd a n) {x : Nat × Bool} (hx : x ∈ nodes) (h1 : a + 16 ≤ i)
    (h2 : i < a + 16 + n) : i < x.1 ∨ x.1 + 16 ≤ i := by
  rcases hh.clear x hx with h | h <;> omega

namespace Rep

variable {h : Heap} {lo : Nat} {nodes front back : List (Nat × Bool)} {a : Nat} {f : Bool}

theorem bounds (hr : Rep h lo nodes) {x : Nat × Bool} (hx : x ∈ nodes) :
    lo ≤ x.1 ∧ x.1 + 16 ≤ h.heapEnd := by
  have hb := hr.tiles.mem_bounds hx
  have hs := hr.start
  cases nodes with
  | nil => simp at hx
  | cons y l => exact ⟨hs ▸ hb.1, hb.2⟩

theorem header (hr : Rep h lo (front ++ (a, f) :: back)) : Header h.mem a (startOr 0 back) f :=
  ((Linked.append_iff _ _).mp hr.linked).2.1

theorem regionEnd (hr : Rep h lo (front ++ (a, f) :: back)) :
    startOr h.heapEnd back = if startOr 0 back = 0 then h.heapEnd else startOr 0 back := by
  cases back with
  | nil => rfl
  | cons y l =>
    have hb := hr.bounds (x := y) (by simp)
    have hp := hr.pos
    rw [startOr_cons, startOr_cons, if_neg (by omega)]

/-- **`lli_region_size`** on a region of the list. -/
theorem lliRegionSize_eq (hr : Rep h lo (front ++ (a, f) :: back)) :
    lliRegionSize h.mem a h.heapEnd = .ok (startOr h.heapEnd back - (a + 16)) := by
  have h1 := hr.tiles.room
  have h2 := hr.tiles.region_le
  have h3 := hr.bounds (x := (a, f)) (by simp)
  have h4 := hr.size
  have h5 := hr.endLt
  refine Malloc.lliRegionSize_eq hr.header hr.regionEnd h1 (by omega) ?_
  simp only at h3
  omega

theorem lliRegionStart_eq (hr : Rep h lo (front ++ (a, f) :: back)) :
    lliRegionStart h.mem a = .ok (a + 16) := by
  have h3 := hr.bounds (x := (a, f)) (by simp)
  have h5 := hr.endLt
  exact Malloc.lliRegionStart_eq hr.header (by simp only at h3; omega)

theorem eq_tail_iff (hr : Rep h lo (front ++ (a, f) :: back)) : a = h.tail ↔ back = [] := by
  obtain ⟨init, x, hx, ht⟩ := hr.tail
  rcases List.eq_nil_or_concat' back with rfl | ⟨mid, y, rfl⟩
  · have := List.append_inj' hx rfl
    simp only [List.cons.injEq, and_true] at this
    simp [← ht, ← this.2]
  · have he : (front ++ (a, f) :: mid) ++ [y] = init ++ [x] := by simpa using hx
    obtain ⟨-, hxy⟩ := List.append_inj' he rfl
    obtain rfl : y = x := by simpa using hxy
    have h1 := hr.tiles.room
    have h2 := hr.tiles.after (y := y) (by simp)
    simp only [List.append_eq_nil_iff, List.cons_ne_self, and_false, iff_false]
    simp only at h1
    omega

theorem addr_lt (hr : Rep h lo nodes) {x : Nat × Bool} (hx : x ∈ nodes) : x.1 < 2 ^ 64 := by
  have h1 := (hr.bounds hx).2
  have h2 := hr.endLt
  omega

theorem startOr_lt (hr : Rep h lo nodes) (hb : ∀ x ∈ back, x ∈ nodes) : startOr 0 back < 2 ^ 64 := by
  cases back with
  | nil => simp
  | cons y l => exact hr.addr_lt (hb y (by simp))

theorem tail_of_append {x y : Nat × Bool} {l : List (Nat × Bool)} {t : Nat}
    (h : ∃ init z, front ++ x :: l = init ++ [z] ∧ z.1 = t) (hl : l ≠ []) :
    ∃ init z, front ++ x :: y :: l = init ++ [z] ∧ z.1 = t := by
  obtain ⟨init, z, hz, ht⟩ := h
  obtain ⟨mid, w, rfl⟩ := (List.eq_nil_or_concat' l).resolve_left hl
  have he : (front ++ x :: mid) ++ [w] = init ++ [z] := by simpa using hz
  obtain ⟨-, hwz⟩ := List.append_inj' he rfl
  obtain rfl : w = z := by simpa using hwz
  exact ⟨front ++ x :: y :: mid, w, by simp, ht⟩

/-- **The list is in the memory**: there is one. -/
theorem unique {nodes' : List (Nat × Bool)} (hr : Rep h lo nodes) (hr' : Rep h lo nodes') :
    nodes = nodes' := by
  have hlinked : ∀ l l' : List (Nat × Bool), (∀ x ∈ l ++ l', 0 < x.1) → Linked h.mem 0 l →
      Linked h.mem 0 l' → startOr 0 l = startOr 0 l' → l = l' := by
    intro l
    induction l with
    | nil =>
      intro l' hpos _ _ hstart
      cases l' with
      | nil => rfl
      | cons y l' =>
        have := hpos y (by simp)
        rw [startOr_nil, startOr_cons] at hstart
        omega
    | cons x l ih =>
      intro l' hpos hl hl' hstart
      cases l' with
      | nil =>
        have := hpos x (by simp)
        rw [startOr_nil, startOr_cons] at hstart
        omega
      | cons y l' =>
        obtain ⟨a, f⟩ := x
        obtain ⟨b, g⟩ := y
        obtain rfl : a = b := hstart
        have hfree : f = g := hl.1.free.symm.trans hl'.1.free
        have hnext : startOr 0 l = startOr 0 l' := hl.1.next.symm.trans hl'.1.next
        rw [hfree, ih l' (fun x hx => hpos x ?_) hl.2 hl'.2 hnext]
        simp only [List.mem_append, List.cons_append, List.mem_cons] at hx ⊢
        rcases hx with hx | hx
        · exact Or.inr (Or.inl hx)
        · exact Or.inr (Or.inr (Or.inr hx))
  refine hlinked nodes nodes' (fun x hx => ?_) hr.linked hr'.linked (hr.start.trans hr'.start.symm)
  have hpos := hr.pos
  rcases List.mem_append.mp hx with hx | hx
  · have := (hr.bounds hx).1
    omega
  · have := (hr'.bounds hx).1
    omega

/-! ### The operations on the list -/

theorem markAs (hr : Rep h lo (front ++ (a, f) :: back)) (v : Bool) :
    Rep { h with mem := setIsFree h.mem a v } lo (front ++ (a, v) :: back) where
  start := by rw [← hr.start, startOr_append, startOr_append]; rfl
  head := hr.head
  pos := hr.pos
  tail := by
    obtain ⟨init, x, hx, ht⟩ := hr.tail
    rcases List.eq_nil_or_concat' back with rfl | ⟨mid, y, rfl⟩
    · exact ⟨front, (a, v), rfl, hr.eq_tail_iff.mpr rfl⟩
    · have he : (front ++ (a, f) :: mid) ++ [y] = init ++ [x] := by simpa using hx
      obtain ⟨-, hxy⟩ := List.append_inj' he rfl
      obtain rfl : y = x := by simpa using hxy
      exact ⟨front ++ (a, v) :: mid, y, by simp, ht⟩
  linked := by
    obtain ⟨hf, ha, hb⟩ := (Linked.append_iff _ _).mp hr.linked
    have hsame := sameBut_setIsFree h.mem a v
    refine (Linked.append_iff _ _).mpr ⟨?_, header_setIsFree ha v, ?_⟩
    · exact hf.sameBut hsame fun x hx => hr.tiles.headers_apart (by simp [hx])
    · exact hb.sameBut hsame fun x hx => hr.tiles.headers_apart (by simp [hx])
  tiles := hr.tiles.retag v
  aligned x hx := by
    rw [List.mem_append, List.mem_cons] at hx
    rcases hx with hx | rfl | hx
    · exact hr.aligned x (by simp [hx])
    · exact hr.aligned (a, f) (by simp)
    · exact hr.aligned x (by simp [hx])
  endAligned := hr.endAligned
  size := hr.size
  endLt := hr.endLt

theorem grow (hr : Rep h lo nodes) {heapEnd : Nat} (hle : h.heapEnd ≤ heapEnd)
    (hal : 16 ∣ heapEnd) (hsize : heapEnd < lo + 2 ^ 63) (hlt : heapEnd < 2 ^ 64) :
    Rep { h with heapEnd := heapEnd } lo nodes where
  start := hr.start
  head := hr.head
  pos := hr.pos
  tail := hr.tail
  linked := hr.linked
  tiles := hr.tiles.mono hle
  aligned := hr.aligned
  endAligned := hal
  size := hsize
  endLt := hlt

/-- **`lli_insert_after`**: the region at `a` is split at `b`. -/
theorem insertAfter (hr : Rep h lo (front ++ (a, f) :: back)) {b : Nat} (h1 : a + 16 ≤ b)
    (h2 : b + 16 ≤ startOr h.heapEnd back) (hb : 16 ∣ b) :
    ∃ r, lliInsertAfter h.mem a b h.tail = .ok r ∧
      Rep { h with mem := r.1, tail := r.2 } lo (front ++ (a, f) :: (b, true) :: back) ∧
      ∀ i, (i < a ∨ a + 16 ≤ i) → (i < b ∨ b + 16 ≤ i) → r.1 i = h.mem i := by
  have ha := hr.header
  have hbb := hr.bounds (x := (a, f)) (by simp)
  have hle := hr.tiles.region_le
  have hend := hr.endLt
  have hnext : startOr 0 back < 2 ^ 64 := hr.startOr_lt fun x hx => by simp [hx]
  let m' := lliNew (setNext h.mem a b) (startOr 0 back) b
  have hsame : ∀ i, (i < a ∨ a + 16 ≤ i) → (i < b ∨ b + 16 ≤ i) → m' i = h.mem i :=
    fun i hi hi' => (sameBut_lliNew _ _ b i hi').trans (sameBut_setNext h.mem a b i hi)
  have hha : Header m' a b f :=
    (header_setNext ha (by omega)).sameBut (sameBut_lliNew _ _ b) (Or.inl h1)
  have hhb : Header m' b (startOr 0 back) true := header_lliNew _ hnext b
  have htiles := hr.tiles.split true h1 h2
  have hstartb : lliRegionStart m' b = .ok (b + 16) := Malloc.lliRegionStart_eq hhb (by omega)
  have hlinked : Linked m' 0 (front ++ (a, f) :: (b, true) :: back) := by
    obtain ⟨hf, -, hback⟩ := (Linked.append_iff _ _).mp hr.linked
    refine (Linked.append_iff _ _).mpr ⟨?_, hha, hhb, ?_⟩
    · refine hf.frame fun x hx i hi hi' => hsame i ?_ ?_
      · have := htiles.before hx
        simp only at this
        omega
      · have := htiles.before hx
        simp only at this
        omega
    · refine hback.frame fun x hx i hi hi' => hsame i ?_ ?_
      · have := hr.tiles.after hx
        omega
      · have := hr.tiles.after hx
        omega
  have haligned : ∀ x ∈ front ++ (a, f) :: (b, true) :: back, 16 ∣ x.1 := by
    intro x hx
    simp only [List.mem_append, List.mem_cons] at hx
    rcases hx with hx | rfl | rfl | hx
    · exact hr.aligned x (by simp [hx])
    · exact hr.aligned _ (by simp)
    · exact hb
    · exact hr.aligned x (by simp [hx])
  have hstart : startOr 0 (front ++ (a, f) :: (b, true) :: back) = lo := by
    rw [← hr.start, startOr_append, startOr_append]
    rfl
  have hpos := hr.pos
  simp only at hbb
  rw [lliInsertAfter, getNext_eq ha, ok_bind, ensure_of (by omega), ok_bind,
    hr.lliRegionStart_eq, ok_bind, ensure_of h1, ok_bind]
  by_cases hz : startOr 0 back = 0
  · simp only [if_pos hz]
    have hnil : back = [] := by
      cases back with
      | nil => rfl
      | cons y l =>
        have := (hr.bounds (x := y) (by simp)).1
        rw [startOr_cons] at hz
        omega
    refine ⟨_, rfl, ⟨hstart, hr.head, hpos, ?_, hlinked, htiles, haligned, hr.endAligned,
      hr.size, hend⟩, hsame⟩
    exact ⟨front ++ [(a, f)], (b, true), by simp [hnil], rfl⟩
  · simp only [if_neg hz]
    have hne : back ≠ [] := by
      rintro rfl
      exact hz rfl
    have hae : b + 16 ≤ startOr 0 back := by
      have := hr.regionEnd
      rw [if_neg hz] at this
      omega
    rw [hstartb, ok_bind, ensure_of hae, ok_bind]
    refine ⟨_, rfl, ⟨hstart, hr.head, hpos, ?_, hlinked, htiles, haligned, hr.endAligned,
      hr.size, hend⟩, hsame⟩
    exact tail_of_append hr.tail hne

theorem join {g : Bool} {b : Nat} (hr : Rep h lo (front ++ (a, f) :: (b, g) :: back)) :
    Rep { h with mem := destroy (setNext h.mem a (startOr 0 back)) b
                 tail := if b = h.tail then a else h.tail } lo (front ++ (a, f) :: back) where
  start := by rw [← hr.start, startOr_append, startOr_append]; rfl
  head := hr.head
  pos := hr.pos
  tail := by
    have hr' : Rep h lo ((front ++ [(a, f)]) ++ (b, g) :: back) := by simpa using hr
    by_cases hb : b = h.tail
    · obtain rfl := hr'.eq_tail_iff.mp hb
      simp only [if_pos hb]
      exact ⟨front, (a, f), rfl, rfl⟩
    · simp only [if_neg hb]
      have hne : back ≠ [] := fun hnil => hb (hr'.eq_tail_iff.mpr hnil)
      obtain ⟨mid, w, rfl⟩ := (List.eq_nil_or_concat' back).resolve_left hne
      obtain ⟨init, z, hz, ht⟩ := hr.tail
      have he : (front ++ (a, f) :: (b, g) :: mid) ++ [w] = init ++ [z] := by simpa using hz
      obtain ⟨-, hwz⟩ := List.append_inj' he rfl
      obtain rfl : w = z := by simpa using hwz
      exact ⟨front ++ (a, f) :: mid, w, by simp, ht⟩
  linked := by
    obtain ⟨hf, ha, -, hback⟩ := (Linked.append_iff _ _).mp hr.linked
    have hab := hr.tiles.room
    have hr' : Tiles 16 h.heapEnd ((front ++ [(a, f)]) ++ (b, g) :: back) := by
      simpa using hr.tiles
    have hnext : startOr 0 back < 2 ^ 64 := hr.startOr_lt fun x hx => by simp [hx]
    have hsa := sameBut_setNext h.mem a (startOr 0 back)
    have hsb := sameBut_destroy (setNext h.mem a (startOr 0 back)) b
    refine (Linked.append_iff _ _).mpr ⟨?_, ?_, ?_⟩
    · refine (hf.sameBut hsa fun x hx => ?_).sameBut hsb fun x hx => ?_
      · exact hr.tiles.headers_apart (by simp [hx])
      · exact hr'.headers_apart (by simp [hx])
    · exact (header_setNext ha hnext).sameBut hsb (Or.inl hab)
    · refine (hback.sameBut hsa fun x hx => ?_).sameBut hsb fun x hx => ?_
      · exact hr.tiles.headers_apart (by simp [hx])
      · exact hr'.headers_apart (by simp [hx])
  tiles := hr.tiles.join
  aligned x hx := by
    rw [List.mem_append, List.mem_cons] at hx
    rcases hx with hx | rfl | hx
    · exact hr.aligned x (by simp [hx])
    · exact hr.aligned _ (by simp)
    · exact hr.aligned x (by simp [hx])
  endAligned := hr.endAligned
  size := hr.size
  endLt := hr.endLt

/-- **`lli_try_merge_after`**: it joins the region at `a` with the next one if both are
free, and does nothing otherwise. -/
theorem tryMergeAfter (hr : Rep h lo (front ++ (a, f) :: back)) :
    (∃ b l, f = true ∧ back = (b, true) :: l ∧
      lliTryMergeAfter h.mem a h.tail = .ok (true, destroy (setNext h.mem a (startOr 0 l)) b,
        if b = h.tail then a else h.tail)) ∨
    ((∀ b l, f = true → back ≠ (b, true) :: l) ∧
      lliTryMergeAfter h.mem a h.tail = .ok (false, h.mem, h.tail)) := by
  have ha := hr.header
  rw [lliTryMergeAfter, getNext_eq ha, ok_bind]
  cases back with
  | nil => exact Or.inr ⟨by simp, rfl⟩
  | cons y l =>
    obtain ⟨b, g⟩ := y
    have hr' : Rep h lo ((front ++ [(a, f)]) ++ (b, g) :: l) := by simpa using hr
    have hb := hr'.header
    have hpos := hr.pos
    have hlo := (hr.bounds (x := (b, g)) (by simp)).1
    simp only at hlo
    rw [startOr_cons, if_neg (by simp only; omega)]
    simp only [ha.free, hb.free]
    cases f with
    | false => exact Or.inr ⟨by simp, rfl⟩
    | true =>
      cases g with
      | false => exact Or.inr ⟨by simp, rfl⟩
      | true =>
        left
        refine ⟨b, l, rfl, rfl, ?_⟩
        rw [if_neg (by simp), getNext_eq hb, ok_bind]

end Rep

/-! ### What the operations keep -/

theorem Keeps.of_remove {h h' : Heap} {nodes nodes' : List (Nat × Bool)}
    (hsub : ∀ x ∈ nodes', x ∈ nodes) (hused : ∀ a, (a, false) ∈ nodes → (a, false) ∈ nodes')
    (hend : h.heapEnd ≤ h'.heapEnd)
    (hmem : ∀ i, (∀ x ∈ nodes, i < x.1 ∨ x.1 + 16 ≤ i) → h'.mem i = h.mem i) :
    Keeps h nodes h' nodes' := by
  intro a n hh
  refine ⟨⟨hused a hh.mem, hh.clear.mono fun x hx => ⟨x, hsub x hx, rfl⟩, ?_⟩, ?_⟩
  · have := hh.le
    omega
  · exact fun i h1 h2 => hmem i fun x hx => hh.header_apart hx h1 h2

theorem join_keeps (h : Heap) (front back : List (Nat × Bool)) (a b : Nat) :
    Keeps h (front ++ (a, true) :: (b, true) :: back)
      { h with mem := destroy (setNext h.mem a (startOr 0 back)) b
               tail := if b = h.tail then a else h.tail } (front ++ (a, true) :: back) := by
  refine Keeps.of_remove ?_ ?_ (Nat.le_refl _) ?_
  · intro x hx
    rw [List.mem_append, List.mem_cons] at hx
    rcases hx with hx | hx | hx <;> simp [hx]
  · intro c hc
    simpa using hc
  · intro i hi
    have ha := hi (a, true) (by simp)
    have hb := hi (b, true) (by simp)
    exact (sameBut_destroy _ b i hb).trans (sameBut_setNext h.mem a _ i ha)

/-! ### The search -/

/-- Nothing is taken in if the next region is not free. -/
theorem absorb_eq_self {f : Bool} {back : List (Nat × Bool)}
    (h : ∀ b l, f = true → back ≠ (b, true) :: l) : absorb f back = back := by
  cases f with
  | false => rfl
  | true =>
    cases back with
    | nil => rfl
    | cons y l =>
      obtain ⟨b, g⟩ := y
      cases g with
      | false => rfl
      | true => exact absurd rfl (h b l rfl)

/-- **The inner loop** joins the region at `cursor` with the free ones behind it. -/
theorem mergeLoop_spec {lo a : Nat} {f : Bool} {front : List (Nat × Bool)} :
    ∀ (rounds : Nat) (h : Heap) (back : List (Nat × Bool)), back.length < rounds →
      Rep h lo (front ++ (a, f) :: back) →
      ∃ h', mergeLoop a rounds h = .ok h' ∧ Rep h' lo (front ++ (a, f) :: absorb f back) ∧
        h'.heapEnd = h.heapEnd ∧
        Keeps h (front ++ (a, f) :: back) h' (front ++ (a, f) :: absorb f back) := by
  intro rounds
  induction rounds with
  | zero => exact fun h back hlt => absurd hlt (Nat.not_lt_zero _)
  | succ rounds ih =>
    intro h back hlt hr
    rw [mergeLoop]
    rcases hr.tryMergeAfter with ⟨b, l, rfl, rfl, he⟩ | ⟨hno, he⟩
    · rw [he, ok_bind]
      simp only [if_true]
      obtain ⟨h', he', hr', hend, hk⟩ :=
        ih _ l (by rw [List.length_cons] at hlt; omega) hr.join
      exact ⟨h', he', hr', hend, (join_keeps h front l a b).trans hk⟩
    · rw [he, ok_bind, absorb_eq_self hno]
      exact ⟨h, rfl, hr, rfl, Keeps.refl h _⟩

/-- The last region is used or too small. -/
def LastTooSmall (h : Heap) (nodes : List (Nat × Bool)) (size : Nat) : Prop :=
  ∀ front t, nodes = front ++ [(t, true)] → h.heapEnd - (t + 16) < size

/-- **The search** from a region on is the first fit over the regions from there on. -/
theorem findLoop_spec {lo size : Nat} :
    ∀ (rounds : Nat) (h : Heap) (front back : List (Nat × Bool)) (a : Nat) (f : Bool),
      back.length + 1 < rounds → Rep h lo (front ++ (a, f) :: back) →
      ∃ h', findLoop size rounds h a =
          .ok ((firstFit 16 size h.heapEnd ((a, f) :: back)).1, h') ∧
        Rep h' lo (front ++ (firstFit 16 size h.heapEnd ((a, f) :: back)).2) ∧
        h'.heapEnd = h.heapEnd ∧
        Keeps h (front ++ (a, f) :: back) h'
          (front ++ (firstFit 16 size h.heapEnd ((a, f) :: back)).2) := by
  intro rounds
  induction rounds with
  | zero => exact fun h front back a f hlt => absurd hlt (Nat.not_lt_zero _)
  | succ rounds ih =>
    intro h front back a f hlt hr
    have hpos := hr.pos
    have hlo := (hr.bounds (x := (a, f)) (by simp)).1
    simp only at hlo
    have hlen : (front ++ (a, f) :: back).length ≤ h.heapEnd := by
      have := hr.tiles.length_le (by omega)
      omega
    rw [List.length_append, List.length_cons] at hlen
    rw [findLoop, if_neg (by omega)]
    obtain ⟨h', he, hr', hend, hk⟩ := mergeLoop_spec (h.heapEnd + 1) h back (by omega) hr
    have hlen' := absorb_length_le f back
    rw [he, ok_bind, hr'.lliRegionSize_eq, ok_bind, lliIsFree_eq hr'.header, ok_bind, hend]
    by_cases hfit : size ≤ startOr h.heapEnd (absorb f back) - (a + 16) ∧ f = true
    · rw [if_pos hfit, firstFit_of_fits hfit]
      exact ⟨h', rfl, hr', hend, hk⟩
    · rw [if_neg hfit, firstFit_of_not_fits hfit, hr'.header.next]
      generalize absorb f back = back' at hr' hk hlen'
      cases back' with
      | nil =>
        obtain ⟨rounds, rfl⟩ : ∃ k, rounds = k + 1 := ⟨rounds - 1, by omega⟩
        rw [firstFit_nil]
        exact ⟨h', rfl, hr', hend, hk⟩
      | cons y l =>
        obtain ⟨b, g⟩ := y
        have hr'' : Rep h' lo ((front ++ [(a, f)]) ++ (b, g) :: l) := by simpa using hr'
        obtain ⟨h'', he', hr₂, hend', hk'⟩ :=
          ih h' (front ++ [(a, f)]) l b g (by rw [List.length_cons] at hlen'; omega) hr''
        rw [hend] at he' hr₂ hk' hend'
        refine ⟨h'', he', by simpa using hr₂, hend', hk.trans ?_⟩
        simpa using hk'

/-- What `_malloc_expand_heap` may do at this end of the heap: map whole pages, within
the addresses and sizes the arithmetic can hold. -/
def ExpandsTo (expand : Expand) (lo heapEnd : Nat) : Prop :=
  ∀ bytes, 4096 ∣ expand heapEnd bytes ∧ heapEnd + expand heapEnd bytes < 2 ^ 64 ∧
    heapEnd + expand heapEnd bytes < lo + 2 ^ 63

theorem lastSize_eq {h : Heap} {lo : Nat} {nodes : List (Nat × Bool)} (hr : Rep h lo nodes) :
    lastSize h = .ok (lastRoom 16 h.heapEnd nodes) := by
  obtain ⟨front, ⟨t, f⟩, rfl, ht⟩ := hr.tail
  obtain rfl : t = h.tail := ht
  rw [lastSize, lliIsFree_eq hr.header, ok_bind, lastRoom_concat]
  cases f with
  | false => rfl
  | true =>
    rw [if_pos rfl, if_pos rfl]
    exact hr.lliRegionSize_eq

theorem Keeps.of_extend {h h' : Heap} {nodes : List (Nat × Bool)} (hend : h.heapEnd ≤ h'.heapEnd)
    (hmem : ∀ i, i < h.heapEnd → (∀ x ∈ nodes, i < x.1 ∨ x.1 + 16 ≤ i) → h'.mem i = h.mem i) :
    Keeps h nodes h' (nodes ++ [(h.heapEnd, true)]) := by
  intro a n hh
  have hle := hh.le
  refine ⟨⟨by simp [hh.mem], ?_, by omega⟩, ?_⟩
  · intro x hx
    rw [List.mem_append, List.mem_singleton] at hx
    rcases hx with hx | rfl
    · exact hh.clear x hx
    · exact Or.inr hle
  · exact fun i h1 h2 => hmem i (by omega) fun x hx => hh.header_apart hx h1 h2

/-- **`expand_heap`**: the end moves up, and if enough was mapped a free region is added. -/
theorem expandHeap_spec {h : Heap} {lo : Nat} {nodes : List (Nat × Bool)} (hr : Rep h lo nodes)
    {expand : Expand} (hx : ExpandsTo expand lo h.heapEnd) {requested : Nat}
    (hreq : requested + 16 < 2 ^ 64) :
    (∃ h', expandHeap h requested expand = .ok (false, h') ∧ Rep h' lo nodes ∧
      Keeps h nodes h' nodes ∧ expand h.heapEnd (requested + 16) < requested + 16) ∨
    ∃ h', expandHeap h requested expand = .ok (true, h') ∧
      requested + 16 ≤ expand h.heapEnd (requested + 16) ∧
      Rep h' lo (nodes ++ [(h.heapEnd, true)]) ∧ Keeps h nodes h' (nodes ++ [(h.heapEnd, true)]) ∧
      h.heapEnd + (requested + 16) ≤ h'.heapEnd := by
  obtain ⟨hpages, hlt, hsize⟩ := hx (requested + 16)
  have hal := hr.endAligned
  have hgrow := hr.grow (Nat.le_add_right _ _)
    (show 16 ∣ h.heapEnd + expand h.heapEnd (requested + 16) by omega) hsize hlt
  rw [expandHeap]
  simp only [u64_of_lt hreq, u64_of_lt hlt]
  by_cases hfew : expand h.heapEnd (requested + 16) < requested + 16
  · left
    rw [if_pos hfew]
    refine ⟨_, rfl, hgrow, Keeps.of_remove (fun x hx => hx) (fun a ha => ha) ?_ fun _ _ => rfl,
      hfew⟩
    simp only
    omega
  · right
    rw [if_neg hfew]
    obtain ⟨front, ⟨t, f⟩, rfl, ht⟩ := hr.tail
    obtain rfl : t = h.tail := ht
    have hroom : h.tail + 16 ≤ h.heapEnd := hr.tiles.room
    obtain ⟨r, he, hr', hsame⟩ := hgrow.insertAfter hroom
      (by simp only [startOr_nil]; omega) hal
    simp only at he
    rw [he, ok_bind]
    refine ⟨_, rfl, Nat.not_lt.mp hfew, by simpa using hr', ?_, by simp only; omega⟩
    refine Keeps.of_extend (by simp only; omega) fun i hi hhead => hsame i ?_ (Or.inl hi)
    exact hhead (h.tail, f) (by simp)

/-- What has to be mapped for a region of `size` bytes: what the last region lacks, and a
header. -/
def lacking (size last : Nat) : Nat := u64 (u64 (size + 2 ^ 64 - last) + 16)

theorem lacking_eq {size last : Nat} (hle : last ≤ size) (hs : size - last + 16 < 2 ^ 64)
    (hlt : size < 2 ^ 64) : lacking size last = size - last + 16 := by
  rw [lacking, u64_sub hle hlt, u64_of_lt hs]

theorem LastTooSmall.lastRoom_le {h : Heap} {lo size : Nat} {nodes : List (Nat × Bool)}
    (hlast : LastTooSmall h nodes size) (hr : Rep h lo nodes) :
    lastRoom 16 h.heapEnd nodes ≤ size := by
  obtain ⟨front, ⟨t, f⟩, rfl, -⟩ := hr.tail
  rw [lastRoom_concat]
  cases f with
  | false => simp
  | true => exact Nat.le_of_lt (hlast front t rfl)

/-- **Expanding the heap** when the last region is too small: that fails if too little is
mapped. -/
theorem makeFree_spec {h : Heap} {lo size : Nat} {nodes : List (Nat × Bool)} (hr : Rep h lo nodes)
    (hlast : LastTooSmall h nodes size) {expand : Expand} (hx : ExpandsTo expand lo h.heapEnd)
    (hsize : size < 2 ^ 64) (hs : size - lastRoom 16 h.heapEnd nodes + 16 < 2 ^ 64) :
    ∃ c h' nodes', makeFree h size expand = .ok (c, h') ∧ Rep h' lo nodes' ∧
      Keeps h nodes h' nodes' ∧ UsedBefore nodes nodes' ∧
      (c = 0 ∧ expand h.heapEnd (lacking size (lastRoom 16 h.heapEnd nodes)) <
          lacking size (lastRoom 16 h.heapEnd nodes) ∨
        lacking size (lastRoom 16 h.heapEnd nodes) ≤
            expand h.heapEnd (lacking size (lastRoom 16 h.heapEnd nodes)) ∧
          ∃ front back, nodes' = front ++ (c, true) :: back ∧
            size ≤ startOr h'.heapEnd back - (c + 16)) := by
  have hle := hlast.lastRoom_le hr
  rw [lacking_eq hle hs hsize, makeFree, lastSize_eq hr, ok_bind, u64_sub hle hsize]
  obtain ⟨front, ⟨t, f⟩, rfl, ht⟩ := hr.tail
  obtain rfl : t = h.tail := ht
  have hroom : h.tail + 16 ≤ h.heapEnd := hr.tiles.room
  simp only
  rcases expandHeap_spec hr hx hs with ⟨h', he, hr', hk, hfew⟩ | ⟨h', he, hmany, hr', hk, hend⟩
  · rw [he, ok_bind]
    exact ⟨0, h', _, rfl, hr', hk, fun _ hc => hc, Or.inl ⟨rfl, hfew⟩⟩
  · rw [he, ok_bind]
    simp only [Bool.true_eq_false, if_false]
    have hr₁ : Rep h' lo (front ++ (h.tail, f) :: [(h.heapEnd, true)]) := by simpa using hr'
    have hr₂ : Rep h' lo ((front ++ [(h.tail, f)]) ++ (h.heapEnd, true) :: []) := hr'
    rw [lastRoom_concat] at hend
    rcases hr₁.tryMergeAfter with ⟨b, l, rfl, hb, hm⟩ | ⟨hno, hm⟩
    · -- the old last region was free: it takes the new one in
      obtain ⟨rfl, rfl⟩ : h.heapEnd = b ∧ l = [] := by simpa [eq_comm] using hb
      have hj := hr₁.join
      have htail : h.heapEnd = h'.tail := hr₂.eq_tail_iff.mpr rfl
      have hk' := hk.trans (by simpa using join_keeps h' front [] h.tail h.heapEnd)
      rw [hm, ok_bind]
      simp only [if_pos htail] at hj hk' ⊢
      rw [if_pos rfl] at hend
      rw [ensure_of hj.header.free, ok_bind, hj.lliRegionSize_eq, ok_bind, ensure_of, ok_bind]
      · refine ⟨h.tail, _, _, rfl, hj, hk', fun _ hc => hc, Or.inr ⟨hmany, front, [], rfl, ?_⟩⟩
        simp only [startOr_nil]
        omega
      · simp only [startOr_nil]
        omega
    · have hf : f = false := by
        cases f with
        | false => rfl
        | true => exact absurd rfl (hno h.heapEnd [] rfl)
      subst hf
      have htail : h.heapEnd = h'.tail := hr₂.eq_tail_iff.mpr rfl
      rw [htail] at hr₂ hk
      rw [hm, ok_bind]
      simp only [Bool.false_eq_true, if_false] at hend
      simp only
      rw [ensure_of hr₂.header.free, ok_bind, hr₂.lliRegionSize_eq, ok_bind, ensure_of, ok_bind]
      · refine ⟨h'.tail, _, _, rfl, hr₂, hk, fun c hc => ?_, Or.inr ⟨hmany, _, [], rfl, ?_⟩⟩
        · simpa using hc
        · simp only [startOr_nil]
          omega
      · simp only [startOr_nil]
        omega

/-- **The search from the head of the list** is the first fit. -/
theorem search_firstFit {h : Heap} {lo : Nat} {nodes : List (Nat × Bool)} (size : Nat)
    (hr : Rep h lo nodes) :
    ∃ h', findLoop size (h.heapEnd + 1) h h.head =
        .ok ((firstFit 16 size h.heapEnd nodes).1, h') ∧
      Rep h' lo (firstFit 16 size h.heapEnd nodes).2 ∧ h'.heapEnd = h.heapEnd ∧
      Keeps h nodes h' (firstFit 16 size h.heapEnd nodes).2 := by
  have hlen := hr.tiles.length_le (by omega)
  have hhead := hr.head
  have hpos := hr.pos
  have hstart := hr.start
  rw [hhead]
  cases nodes with
  | nil => simp at hstart; omega
  | cons x l =>
    obtain ⟨a, f⟩ := x
    rw [startOr_cons] at hstart hlen
    obtain rfl : a = lo := hstart
    rw [List.length_cons] at hlen
    have hr₀ : Rep h a ([] ++ (a, f) :: l) := hr
    exact findLoop_spec (h.heapEnd + 1) h [] l a f (by simp only at hlen; omega) hr₀

/-- No region fits, and too little is mapped when the heap is expanded. -/
def Short (expand : Expand) (h : Heap) (nodes : List (Nat × Bool)) (size : Nat) : Prop :=
  (firstFit 16 size h.heapEnd nodes).1 = none ∧
    expand h.heapEnd (lacking size (trailing 16 h.heapEnd nodes)) <
      lacking size (trailing 16 h.heapEnd nodes)

theorem findOrMakeFree_spec {h : Heap} {lo size : Nat} {nodes : List (Nat × Bool)}
    (hr : Rep h lo nodes) {expand : Expand} (hx : ExpandsTo expand lo h.heapEnd)
    (hsize : size < 2 ^ 64) (hs : size - trailing 16 h.heapEnd nodes + 16 < 2 ^ 64) :
    ∃ c h' nodes', findOrMakeFree h size expand = .ok (c, h') ∧ Rep h' lo nodes' ∧
      Keeps h nodes h' nodes' ∧ UsedBefore nodes nodes' ∧
      (c = 0 ∧ Short expand h nodes size ∨
        ¬ Short expand h nodes size ∧ ∃ front back, nodes' = front ++ (c, true) :: back ∧
          size ≤ startOr h'.heapEnd back - (c + 16)) := by
  obtain ⟨h', he, hr', hend, hk⟩ := search_firstFit size hr
  have hu : UsedBefore nodes (firstFit 16 size h.heapEnd nodes).2 :=
    fun c hc => (firstFit_sublist nodes).subset hc
  rw [findOrMakeFree, he, ok_bind]
  cases hfound : (firstFit 16 size h.heapEnd nodes).1 with
  | some c =>
    refine ⟨c, h', _, rfl, hr', hk, hu, Or.inr ⟨fun hshort => ?_, ?_⟩⟩
    · rw [hshort.1] at hfound
      cases hfound
    · rw [hend]
      exact firstFit_found hfound
  | none =>
    have hlast : LastTooSmall h' (firstFit 16 size h.heapEnd nodes).2 size := by
      intro front t hfront
      rw [hend]
      exact firstFit_last hfound hfront
    have hroom := firstFit_lastRoom hfound
    have hms := makeFree_spec hr' hlast (hend ▸ hx) hsize
    rw [hend, hroom] at hms
    obtain ⟨c, h'', nodes'', he', hr'', hk', hu', hc⟩ := hms hs
    refine ⟨c, h'', nodes'', he', hr'', hk.trans hk', fun a ha => hu a (hu' a ha), ?_⟩
    rcases hc with ⟨rfl, hfew⟩ | ⟨hmany, hfit⟩
    · exact Or.inl ⟨rfl, hfound, hfew⟩
    · exact Or.inr ⟨fun hshort => Nat.not_lt.mpr hmany hshort.2, hfit⟩

/-! ### malloc -/

theorem Rep.not_mem_of_mem {h : Heap} {lo : Nat} {front back : List (Nat × Bool)} {c : Nat}
    {f g : Bool} (hr : Rep h lo (front ++ (c, f) :: back)) (hfg : g ≠ f) :
    (c, g) ∉ front ++ (c, f) :: back := by
  intro hc
  rw [List.mem_append, List.mem_cons] at hc
  rcases hc with hc | hc | hc
  · have hlt := hr.tiles.before hc
    simp only at hlt
    omega
  · exact hfg (Prod.mk.inj hc).2
  · have h1 := hr.tiles.room
    have h2 := hr.tiles.after hc
    simp only at h1 h2
    omega

/-- A used region is held with no bytes at all. -/
theorem Rep.held_zero {h : Heap} {lo : Nat} {nodes : List (Nat × Bool)} (hr : Rep h lo nodes)
    {c : Nat} (hc : (c, false) ∈ nodes) : Held nodes h.heapEnd c 0 := by
  obtain ⟨front, back, rfl⟩ := List.append_of_mem hc
  refine ⟨hc, hr.tiles.clear hr.tiles.room, ?_⟩
  exact (hr.bounds hc).2

theorem markUsed_keeps (h : Heap) (front back : List (Nat × Bool)) (c : Nat) :
    Keeps h (front ++ (c, true) :: back) { h with mem := setIsFree h.mem c false }
      (front ++ (c, false) :: back) := by
  intro a n hh
  refine ⟨⟨?_, ?_, hh.le⟩, ?_⟩
  · have := hh.mem
    simp only [List.mem_append, List.mem_cons, Prod.mk.injEq, Bool.false_eq_true, and_false,
      false_or] at this
    rcases this with hm | hm <;> simp [hm]
  · refine hh.clear.mono fun x hx => ?_
    rw [List.mem_append, List.mem_cons] at hx
    rcases hx with hx | rfl | hx
    · exact ⟨x, by simp [hx], rfl⟩
    · exact ⟨(c, true), by simp, rfl⟩
    · exact ⟨x, by simp [hx], rfl⟩
  · exact fun i h1 h2 => sameBut_setIsFree h.mem c false i
      (hh.header_apart (x := (c, true)) (by simp) h1 h2)

theorem split_held {heapEnd : Nat} {front back : List (Nat × Bool)} {c b : Nat} {f : Bool}
    (ht : Tiles 16 heapEnd (front ++ (c, f) :: back)) (h1 : c + 16 ≤ b)
    (h2 : b + 16 ≤ startOr heapEnd back) {a n : Nat}
    (hh : Held (front ++ (c, f) :: back) heapEnd a n) (ha : a = c → a + 16 + n ≤ b) :
    Held (front ++ (c, f) :: (b, true) :: back) heapEnd a n := by
  have hmem := hh.mem
  simp only [List.mem_append, List.mem_cons] at hmem
  refine ⟨by rcases hmem with hm | hm | hm <;> simp [hm], ?_, hh.le⟩
  by_cases hac : a = c
  · intro x hx
    simp only [List.mem_append, List.mem_cons] at hx
    rcases hx with hx | rfl | rfl | hx
    · exact hh.clear x (by simp [hx])
    · exact hh.clear _ (by simp)
    · exact Or.inr (ha hac)
    · exact hh.clear x (by simp [hx])
  · have hmem' : (a, false) ∈ front ++ back := by
      rcases hmem with hm | hm | hm
      · simp [hm]
      · exact absurd (Prod.mk.inj hm).1 hac
      · simp [hm]
    exact Clear.split (by omega) ht true h1 h2 hmem' hh.clear

/-- **Reserving a free region** that is large enough. -/
theorem reserve_spec {h : Heap} {lo size c : Nat} {front back : List (Nat × Bool)}
    (hr : Rep h lo (front ++ (c, true) :: back))
    (hfit : size ≤ startOr h.heapEnd back - (c + 16)) (hal : 16 ∣ size) :
    ∃ h' nodes', reserve h size c = .ok (c + 16, h') ∧ Rep h' lo nodes' ∧
      Keeps h (front ++ (c, true) :: back) h' nodes' ∧ Held nodes' h'.heapEnd c size ∧
      ∀ b, (b, false) ∈ nodes' → b = c ∨ (b, false) ∈ front ++ (c, true) :: back := by
  have hm := hr.markAs false
  have hroom := hr.tiles.room
  have hle := hr.tiles.region_le
  have hlt := hr.endLt
  have hc : 16 ∣ c := hr.aligned (c, true) (by simp)
  have hs : size + 16 < 2 ^ 64 := by
    have hlo := (hr.bounds (x := (c, true)) (by simp)).1
    have hsize := hr.size
    simp only at hlo hroom hle
    omega
  have hheld : Held (front ++ (c, false) :: back) h.heapEnd c size :=
    ⟨by simp, hm.tiles.clear (by simp only at hroom ⊢; omega), by simp only at hroom; omega⟩
  have hk := markUsed_keeps h front back c
  have hu : ∀ b, (b, false) ∈ front ++ (c, false) :: back →
      b = c ∨ (b, false) ∈ front ++ (c, true) :: back := by
    intro b hb
    simp only [List.mem_append, List.mem_cons, Prod.mk.injEq] at hb ⊢
    rcases hb with hb | ⟨rfl, -⟩ | hb
    · exact Or.inr (Or.inl hb)
    · exact Or.inl rfl
    · exact Or.inr (Or.inr (Or.inr hb))
  rw [reserve, lliMarkAs_eq hr.header, ok_bind]
  have hsz := hm.lliRegionSize_eq
  have hst := hm.lliRegionStart_eq
  simp only at hsz hst hroom
  rw [hsz, ok_bind, hst, ok_bind, u64_of_lt hs]
  by_cases hsplit : size + 16 ≤ startOr h.heapEnd back - (c + 16)
  · rw [if_pos hsplit, u64_of_lt (by omega)]
    have h1 : c + 16 ≤ c + 16 + size := by omega
    have h2 : c + 16 + size + 16 ≤ startOr h.heapEnd back := by omega
    obtain ⟨r, he, hr', hsame⟩ := hm.insertAfter h1 h2 (by omega)
    simp only at he
    rw [he, ok_bind]
    refine ⟨_, _, rfl, hr', ?_, split_held hm.tiles h1 h2 hheld fun _ => Nat.le_refl _,
      fun b hb => hu b (by simpa using hb)⟩
    intro a n hh
    have hac : a ≠ c := by
      rintro rfl
      exact hr.not_mem_of_mem (by simp) hh.mem
    obtain ⟨hh', hd⟩ := hk a n hh
    have hh'' := split_held hm.tiles h1 h2 hh' fun e => absurd e hac
    refine ⟨hh'', fun i hi hi' => (hsame i ?_ ?_).trans (hd i hi hi')⟩
    · exact hh''.header_apart (x := (c, false)) (by simp) hi hi'
    · exact hh''.header_apart (x := (c + 16 + size, true)) (by simp) hi hi'
  · rw [if_neg hsplit]
    exact ⟨_, _, rfl, hm, hk, hheld, hu⟩

theorem reserve_heapEnd {h h' : Heap} {size c p : Nat} (he : reserve h size c = .ok (p, h')) :
    h'.heapEnd = h.heapEnd := by
  rw [reserve] at he
  simp only [bind_eq_ok] at he
  obtain ⟨mem, -, reservedSize, -, reservedData, -, he⟩ := he
  split at he
  · rw [bind_eq_ok] at he
    obtain ⟨r, -, he⟩ := he
    cases he
    rfl
  · cases he
    rfl

theorem alignSize_eq {n : Nat} (hn : n + 15 < 2 ^ 64) : alignSize n = (n + 15) / 16 * 16 := by
  rw [alignSize, u64_of_lt hn, u64_of_lt (by omega)]

theorem alignSize_dvd (n : Nat) : 16 ∣ alignSize n := by
  unfold alignSize u64
  omega

theorem alignSize_lt (n : Nat) : alignSize n < 2 ^ 64 := Nat.mod_lt _ (by omega)

theorem alignSize_spec {n : Nat} (hn : n + 31 < 2 ^ 64) :
    n ≤ alignSize n ∧ alignSize n + 16 < 2 ^ 64 := by
  rw [alignSize_eq (by omega)]
  omega

theorem Held.mono {nodes : List (Nat × Bool)} {heapEnd a n k : Nat} (hh : Held nodes heapEnd a n)
    (hk : k ≤ n) : Held nodes heapEnd a k := by
  refine ⟨hh.mem, fun x hx => ?_, ?_⟩
  · rcases hh.clear x hx with hcl | hcl
    · exact Or.inl hcl
    · exact Or.inr (by omega)
  · have := hh.le
    omega

/-- **`malloc`** of any size for which the missing bytes can be counted: it returns 0, or a new
block with room for the aligned size. -/
theorem malloc_aligned_spec {h : Heap} {lo n : Nat} {nodes : List (Nat × Bool)}
    (hr : Rep h lo nodes) {expand : Expand} (hx : ExpandsTo expand lo h.heapEnd)
    (hs : alignSize n - trailing 16 h.heapEnd nodes + 16 < 2 ^ 64) :
    ∃ p h' nodes', malloc h n expand = .ok (p, h') ∧ Rep h' lo nodes' ∧
      Keeps h nodes h' nodes' ∧
      (∀ b, (b, false) ∈ nodes' → p = b + 16 ∨ (b, false) ∈ nodes) ∧
      (p = 0 ∧ (n = 0 ∨ Short expand h nodes (alignSize n)) ∨
        n ≠ 0 ∧ ¬ Short expand h nodes (alignSize n) ∧
          ∃ c, p = c + 16 ∧ Held nodes' h'.heapEnd c (alignSize n) ∧ (c, false) ∉ nodes) := by
  rw [malloc]
  by_cases h0 : n = 0
  · rw [if_pos h0]
    exact ⟨0, h, nodes, rfl, hr, Keeps.refl h nodes, fun _ hb => Or.inr hb, Or.inl ⟨rfl, Or.inl h0⟩⟩
  · rw [if_neg h0]
    obtain ⟨c, h', nodes', he, hr', hk, hu, hc⟩ :=
      findOrMakeFree_spec hr hx (alignSize_lt n) hs
    rw [he, ok_bind]
    rcases hc with ⟨rfl, hshort⟩ | ⟨hshort, front, back, rfl, hfit⟩
    · exact ⟨0, h', nodes', rfl, hr', hk, fun b hb => Or.inr (hu b hb),
        Or.inl ⟨rfl, Or.inr hshort⟩⟩
    · have hc0 : c ≠ 0 := by
        have hlo := (hr'.bounds (x := (c, true)) (by simp)).1
        have hpos := hr'.pos
        simp only at hlo
        omega
      rw [if_neg hc0]
      obtain ⟨h'', nodes'', he', hr'', hk', hheld, hu'⟩ := reserve_spec hr' hfit (alignSize_dvd n)
      refine ⟨c + 16, h'', nodes'', he', hr'', hk.trans hk', fun b hb => ?_,
        Or.inr ⟨h0, hshort, c, rfl, hheld, fun hmem => ?_⟩⟩
      · exact (hu' b hb).imp (fun hbc : b = c => hbc ▸ rfl) (hu b)
      · exact hr'.not_mem_of_mem (by simp) (hk c 0 (hr.held_zero hmem)).1.mem

/-- **`malloc`** returns 0, or a new block with room for the request. -/
theorem malloc_spec {h : Heap} {lo n : Nat} {nodes : List (Nat × Bool)} (hr : Rep h lo nodes)
    {expand : Expand} (hx : ExpandsTo expand lo h.heapEnd) (hn : n + 31 < 2 ^ 64) :
    ∃ p h' nodes', malloc h n expand = .ok (p, h') ∧ Rep h' lo nodes' ∧
      Keeps h nodes h' nodes' ∧
      (∀ b, (b, false) ∈ nodes' → p = b + 16 ∨ (b, false) ∈ nodes) ∧
      (p = 0 ∨ ∃ c, p = c + 16 ∧ Held nodes' h'.heapEnd c n ∧ (c, false) ∉ nodes) := by
  obtain ⟨hle, hlt⟩ := alignSize_spec hn
  obtain ⟨p, h', nodes', he, hr', hk, hu, hp⟩ := malloc_aligned_spec (n := n) hr hx (by omega)
  refine ⟨p, h', nodes', he, hr', hk, hu, ?_⟩
  rcases hp with ⟨hp, -⟩ | ⟨-, -, c, hp, hheld, hnew⟩
  · exact Or.inl hp
  · exact Or.inr ⟨c, hp, hheld.mono hle, hnew⟩

/-- **When the search finds a region**, `malloc` does not ask for memory. -/
theorem malloc_of_found {h : Heap} {lo n c : Nat} {nodes : List (Nat × Bool)} (hr : Rep h lo nodes)
    (h0 : 0 < n)
    (hfound : (firstFit 16 (alignSize n) h.heapEnd nodes).1 = some c) :
    ∃ h', h'.heapEnd = h.heapEnd ∧ ∀ expand, malloc h n expand = .ok (c + 16, h') := by
  obtain ⟨h₁, he, hr₁, hend, -⟩ := search_firstFit (alignSize n) hr
  obtain ⟨front, back, hsplit, hfit⟩ := firstFit_found hfound
  rw [hsplit] at hr₁
  rw [← hend] at hfit
  obtain ⟨h', nodes', he', hr', -⟩ := reserve_spec hr₁ hfit (alignSize_dvd n)
  have hc0 : c ≠ 0 := by
    have hlo := (hr₁.bounds (x := (c, true)) (by simp)).1
    have hpos := hr₁.pos
    simp only at hlo
    omega
  refine ⟨h', (reserve_heapEnd he').trans hend, fun expand => ?_⟩
  rw [malloc, if_neg (by omega), findOrMakeFree, he, hfound, ok_bind]
  simp only [ok_bind]
  rw [if_neg hc0, he']

/-! ### free and realloc -/

/-- Every held block but the one at `a` stays held and keeps its bytes. -/
def KeepsBut (a : Nat) (h : Heap) (nodes : List (Nat × Bool)) (h' : Heap)
    (nodes' : List (Nat × Bool)) : Prop :=
  ∀ b n, b ≠ a → Held nodes h.heapEnd b n → Held nodes' h'.heapEnd b n ∧
    ∀ i, b + 16 ≤ i → i < b + 16 + n → h'.mem i = h.mem i

theorem headerOf_eq {a : Nat} (h : a < 2 ^ 64) : headerOf (a + 16) = a := by
  rw [headerOf, Nat.add_right_comm, Nat.add_sub_cancel, u64, Nat.add_mod_right]
  exact Nat.mod_eq_of_lt h

/-- **`free`** of a used region marks it free. -/
theorem free_spec {h : Heap} {lo a : Nat} {nodes : List (Nat × Bool)} (hr : Rep h lo nodes)
    (ha : (a, false) ∈ nodes) :
    ∃ h' nodes', free h (a + 16) = .ok h' ∧ Rep h' lo nodes' ∧ KeepsBut a h nodes h' nodes' ∧
      (a, true) ∈ nodes' ∧ ∀ b, (b, false) ∈ nodes' → b ≠ a ∧ (b, false) ∈ nodes := by
  have halt : a < 2 ^ 64 := hr.addr_lt ha
  obtain ⟨front, back, rfl⟩ := List.append_of_mem ha
  have hr' := hr.markAs true
  rw [free, if_neg (by omega), headerOf_eq halt, lliMarkAs_eq hr.header, ok_bind]
  refine ⟨_, _, rfl, hr', ?_, by simp, fun b hb => ?_⟩
  · intro b n hba hh
    refine ⟨⟨?_, hh.clear.mono fun x hx => ?_, hh.le⟩, ?_⟩
    · have := hh.mem
      simp only [List.mem_append, List.mem_cons, Prod.mk.injEq, hba, false_and, false_or] at this
      rcases this with hm | hm <;> simp [hm]
    · rw [List.mem_append, List.mem_cons] at hx
      rcases hx with hx | rfl | hx
      · exact ⟨x, by simp [hx], rfl⟩
      · exact ⟨(a, false), by simp, rfl⟩
      · exact ⟨x, by simp [hx], rfl⟩
    · exact fun i h1 h2 => sameBut_setIsFree h.mem a true i
        (hh.header_apart (x := (a, false)) (by simp) h1 h2)
  · have hne : b ≠ a := by
      rintro rfl
      exact hr'.not_mem_of_mem (by simp) hb
    simp only [List.mem_append, List.mem_cons, Prod.mk.injEq, hne, false_and, false_or] at hb ⊢
    exact ⟨hne, hb⟩

theorem Held.apart {nodes : List (Nat × Bool)} {heapEnd a b n k : Nat}
    (ha : Held nodes heapEnd a n) (hb : Held nodes heapEnd b k) (hab : a ≠ b) :
    a + 16 + n ≤ b ∨ b + 16 + k ≤ a := by
  have h1 := ha.clear (b, false) hb.mem
  have h2 := hb.clear (a, false) ha.mem
  simp only at h1 h2
  omega

/-- **Writing into a held block** leaves the list and the other blocks alone. -/
theorem Rep.store {h : Heap} {lo c n : Nat} {nodes : List (Nat × Bool)} (hr : Rep h lo nodes)
    (hh : Held nodes h.heapEnd c n) (addr : Nat) (bytes : List UInt8) (h1 : c + 16 ≤ addr)
    (h2 : addr + bytes.length ≤ c + 16 + n) :
    Rep { h with mem := h.mem.write addr bytes } lo nodes ∧
      KeepsBut c h nodes { h with mem := h.mem.write addr bytes } nodes := by
  have hout : ∀ i, i < c + 16 ∨ c + 16 + n ≤ i → h.mem.write addr bytes i = h.mem i := by
    intro i hi
    rcases hi with hi | hi
    · exact Mem.write_of_lt _ _ (by omega)
    · exact Mem.write_of_ge _ _ (by omega)
  constructor
  · refine ⟨hr.start, hr.head, hr.pos, hr.tail, ?_, hr.tiles, hr.aligned, hr.endAligned, hr.size,
      hr.endLt⟩
    refine hr.linked.frame fun x hx i hi hi' => hout i ?_
    have := hh.clear x hx
    omega
  · intro b k hbc hb
    refine ⟨hb, fun i hi hi' => hout i ?_⟩
    have := hh.apart hb (Ne.symm hbc)
    omega

theorem Held.region_le {heapEnd a n : Nat} {f : Bool} {front back : List (Nat × Bool)}
    (hh : Held (front ++ (a, f) :: back) heapEnd a n)
    (ht : Tiles 16 heapEnd (front ++ (a, f) :: back)) : a + 16 + n ≤ startOr heapEnd back := by
  cases back with
  | nil => exact hh.le
  | cons y l =>
    have hroom := ht.room
    have hclear := hh.clear y (by simp)
    simp only [startOr_cons] at hroom ⊢
    omega

/-- **`realloc`** of a held block returns 0 and keeps everything, or returns a new block with the
bytes of the old one, which is freed. -/
theorem realloc_spec {h : Heap} {lo a k n : Nat} {nodes : List (Nat × Bool)} (hr : Rep h lo nodes)
    {expand : Expand} (hx : ExpandsTo expand lo h.heapEnd) (hn : n + 31 < 2 ^ 64)
    (ha : Held nodes h.heapEnd a k) :
    ∃ p h' nodes', realloc h (a + 16) n expand = .ok (p, h') ∧ Rep h' lo nodes' ∧
      (p = 0 ∧ Keeps h nodes h' nodes' ∧ UsedBefore nodes nodes' ∨
        KeepsBut a h nodes h' nodes' ∧ (a, true) ∈ nodes' ∧
          (∀ b, (b, false) ∈ nodes' → b ≠ a ∧ (p = b + 16 ∨ (b, false) ∈ nodes)) ∧
          ∃ c, p = c + 16 ∧ Held nodes' h'.heapEnd c n ∧ (c, false) ∉ nodes ∧
            ∀ i < min k n, h'.mem (c + 16 + i) = h.mem (a + 16 + i)) := by
  obtain ⟨p, h', nodes', he, hr', hk, hu, hp⟩ := malloc_spec hr hx hn
  rw [realloc, he, ok_bind]
  rcases hp with rfl | ⟨c, rfl, hheld, hnew⟩
  · rw [if_pos (Or.inr rfl)]
    refine ⟨0, h', nodes', rfl, hr', Or.inl ⟨rfl, hk, fun b hb => ?_⟩⟩
    exact (hu b hb).resolve_left (by omega)
  · rw [if_neg (by simp)]
    have hca : c ≠ a := by
      rintro rfl
      exact hnew ha.mem
    obtain ⟨ha', hdata⟩ := hk a k ha
    obtain ⟨front, back, hsplit⟩ := List.append_of_mem ha'.mem
    -- the old region still holds the old block
    have hsz := (hsplit ▸ hr').lliRegionSize_eq
    have hregion : a + 16 + k ≤ startOr h'.heapEnd back :=
      (hsplit ▸ ha').region_le (hsplit ▸ hr'.tiles)
    rw [headerOf_eq (hr'.addr_lt ha'.mem), hsz, ok_bind]
    simp only
    obtain ⟨smallest, hsm⟩ :
        ∃ s, (if startOr h'.heapEnd back - (a + 16) > n then n
          else startOr h'.heapEnd back - (a + 16)) = s := ⟨_, rfl⟩
    have hle : smallest ≤ n ∧ min k n ≤ smallest := by
      rw [← hsm]
      split <;> omega
    rw [hsm]
    obtain ⟨hr₁, hk₁⟩ := hr'.store hheld (c + 16) (h'.mem.read (a + 16) smallest) (Nat.le_refl _)
      (by rw [Mem.read_length]; omega)
    obtain ⟨h₂, nodes₂, he₂, hr₂, hk₂, hfreed, hu₂⟩ := free_spec hr₁ ha'.mem
    obtain ⟨hheld₂, hdata₂⟩ := hk₂ c n hca hheld
    rw [he₂, ok_bind]
    refine ⟨c + 16, h₂, nodes₂, rfl, hr₂, Or.inr ⟨?_, hfreed, ?_, c, rfl, hheld₂, hnew, ?_⟩⟩
    · intro b m hba hb
      have hbc : b ≠ c := by
        rintro rfl
        exact hnew hb.mem
      obtain ⟨hb', hd'⟩ := hk b m hb
      obtain ⟨hb₁, hd₁⟩ := hk₁ b m hbc hb'
      obtain ⟨hb₂, hd₂⟩ := hk₂ b m hba hb₁
      exact ⟨hb₂, fun i h1 h2 => (hd₂ i h1 h2).trans ((hd₁ i h1 h2).trans (hd' i h1 h2))⟩
    · exact fun b hb => ⟨(hu₂ b hb).1, hu b (hu₂ b hb).2⟩
    · intro i hi
      rw [hdata₂ _ (by omega) (by omega), ← hdata _ (by omega) (by omega)]
      simp only
      have hlt : c + 16 + i - (c + 16) < smallest := by omega
      rw [Mem.write_of_mem _ _ (by omega) (by rw [Mem.read_length]; omega),
        List.getD_eq_getElem?_getD, Mem.read_getElem?, if_pos hlt, Option.getD_some,
        Nat.add_sub_cancel_left]

end Stuos.Malloc
