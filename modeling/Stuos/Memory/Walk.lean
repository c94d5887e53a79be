import Stuos.Memory.Mapping

/-!
# Walking a tree

`walk_virtual_tree` reads the tables while its callbacks change memory.  As long as the
callbacks leave the tables alone, it is a fold over the frames of the address space in
post-order, `visits`, and the four loop indices make up the virtual address of a page.

* `walkVirtualTree_eq`: the walk is that fold.
-/

namespace Stuos.Memory

open Stuos.Lib

/-! ### Virtual addresses -/

/-- The address that the loop indices make up; the first one stands `shift` bits up. -/
def virtOf : Nat → Path → Nat
  | _, [] => 0
  | shift, i :: p => i.val * 2 ^ shift + virtOf (shift - 9) p

theorem virtOf_concat (shift : Nat) (p : Path) (i : Fin 512) :
    virtOf shift (p ++ [i]) = virtOf shift p + i.val * 2 ^ (shift - 9 * p.length) := by
  induction p generalizing shift with
  | nil => simp [virtOf]
  | cons j p ih =>
    have hshift : shift - 9 - 9 * p.length = shift - 9 * (p.length + 1) := by omega
    rw [List.cons_append, virtOf, virtOf, ih, hshift, List.length_cons]
    omega

/-- **The indices of the address** are the loop indices again, and it is page aligned. -/
theorem pathOf_virtOf {p : Path} (h : p.length = 4) :
    pathOf (virtOf 39 p) = p ∧ pageOffset (virtOf 39 p) = 0 := by
  match p, h with
  | [a, b, c, d], _ =>
    have ha := a.isLt
    have hb := b.isLt
    have hc := c.isLt
    have hd := d.isLt
    have hvirt : virtOf 39 [a, b, c, d] =
        a.val * 2 ^ 39 + (b.val * 2 ^ 30 + (c.val * 2 ^ 21 + (d.val * 2 ^ 12 + 0))) := rfl
    rw [hvirt]
    refine ⟨?_, ?_⟩
    · simp only [pathOf, List.cons.injEq, and_true]
      refine ⟨Fin.ext ?_, Fin.ext ?_, Fin.ext ?_, Fin.ext ?_⟩
      · simp only [pml4Index, Fin.val_ofNat]
        omega
      · simp only [pdptIndex, Fin.val_ofNat]
        omega
      · simp only [pdIndex, Fin.val_ofNat]
        omega
      · simp only [ptIndex, Fin.val_ofNat]
        omega
    · simp only [pageOffset]
      omega

/-! ### The callbacks in order -/

/-- `!pt->nx` for the entry at the end of a path. -/
def canExecuteAt (m : Machine) (root : Nat) (p : Path) : Bool :=
  match entryAt m root p with
  | some e => !e.nx
  | none => false

/-- The callback for a frame of the address space `root` of `m₀`. -/
def visit (cb : Callbacks) (m₀ : Machine) (root : Nat) (m : Machine) (v : Path × Nat) :
    Except Halt Machine :=
  if v.1.length = 4 then cb.leaf m (virtOf 39 v.1) v.2 (canExecuteAt m₀ root v.1)
  else cb.table m v.2

/-- The frames of the lower half of an address space in the order of the walk. -/
def frameList (m : Machine) (root : Nat) : List (Path × Nat) :=
  visits (child m) (List.finRange 512) 4 lowerIndices root ++ [([], root)]

theorem mem_lowerIndices {i : Fin 512} : i ∈ lowerIndices ↔ i.val < 256 := by
  simp [lowerIndices]

theorem mem_frameList {m : Machine} {root : Nat} {p : Path} {f : Nat} :
    (p, f) ∈ frameList m root ↔ Lower p ∧ reach m root p = some f := by
  rw [frameList, List.mem_append, mem_visits (by simp), List.mem_singleton, Prod.mk.injEq]
  constructor
  · rintro (⟨-, hlen, hhead, hf⟩ | ⟨rfl, rfl⟩)
    · exact ⟨⟨hlen, fun i hi => mem_lowerIndices.mp (hhead i hi)⟩, hf⟩
    · exact ⟨lower_nil, rfl⟩
  · rintro ⟨hl, hf⟩
    by_cases hp : p = []
    · subst hp
      exact Or.inr ⟨rfl, (Option.some.inj hf).symm⟩
    · exact Or.inl ⟨hp, hl.1, fun i hi => mem_lowerIndices.mpr (hl.2 i hi), hf⟩

theorem frameList_nodup (m : Machine) (root : Nat) :
    ((frameList m root).map Prod.fst).Nodup := by
  rw [frameList, List.map_append, List.nodup_append]
  refine ⟨visits_nodup (List.nodup_finRange 512) 4 ((List.nodup_finRange 512).filter _) root,
    by simp, ?_⟩
  rintro p hp q hq rfl
  obtain ⟨v, hv, rfl⟩ := List.mem_map.mp hp
  simp only [List.map_cons, List.map_nil, List.mem_singleton] at hq
  exact visits_ne_nil hv hq

theorem lower_concat {q : Path} (hq : q ≠ []) (hlow : Lower q) (hlen : q.length < 4) (n : Fin 512) :
    Lower (q ++ [n]) := by
  refine ⟨by simp only [List.length_append, List.length_singleton]; omega, fun i hi => ?_⟩
  rw [List.head?_append_of_ne_nil _ hq] at hi
  exact hlow.2 i hi

section

variable {cb : Callbacks} {m₀ : Machine} {root : Nat} {P : Machine → Prop}

theorem visits_below {q : Path} {t depth : Nat} (hq : q ≠ []) (hlow : Lower q)
    (ht : reach m₀ root q = some t) (hdepth : q.length + depth ≤ 4) {v : Path × Nat}
    (hv : v ∈ (visits (child m₀) (List.finRange 512) depth (List.finRange 512) t).map
      fun v => (q ++ v.1, v.2)) : Lower v.1 ∧ reach m₀ root v.1 = some v.2 := by
  obtain ⟨⟨p, f⟩, hpf, rfl⟩ := List.mem_map.mp hv
  obtain ⟨-, hl, -, hf⟩ := (mem_visits List.mem_finRange _ _ _ _ _).mp hpf
  refine ⟨⟨?_, fun i hi => ?_⟩, ?_⟩
  · simp only [List.length_append]
    omega
  · rw [List.head?_append_of_ne_nil _ hq] at hi
    exact hlow.2 i hi
  · have ht' : follow (child m₀) root q = some t := ht
    rw [reach, follow_append, ht']
    exact hf

theorem visit_below
    (hstep : ∀ m m' v, Lower v.1 → reach m₀ root v.1 = some v.2 → P m →
      visit cb m₀ root m v = .ok m' → P m') {q : Path} {t depth : Nat} (hq : q ≠ [])
    (hlow : Lower q) (ht : reach m₀ root q = some t) (hdepth : q.length + depth ≤ 4) :
    ∀ v ∈ (visits (child m₀) (List.finRange 512) depth (List.finRange 512) t).map
      (fun v => (q ++ v.1, v.2)), ∀ m m', P m → visit cb m₀ root m v = .ok m' → P m' := by
  intro v hv m m' hm he
  obtain ⟨hl, hr⟩ := visits_below hq hlow ht hdepth hv
  exact hstep m m' v hl hr hm he

theorem getPageTableChild_eq {m : Machine} {parent : EntryPtr} {t : Nat}
    (hparent : m.entry parent = m₀.entry parent) (hpresent : (m₀.entry parent).present = true)
    (haddr : (m₀.entry parent).addr.toNat = t) (n : Fin 512) :
    getPageTableChild m parent n = .ok ⟨t, n⟩ := by
  rw [getPageTableChild, hparent, ensure_of hpresent, ok_bind, haddr]

theorem visit_leaf {q : Path} {t : Nat} (ht : reach m₀ root q = some t) (hlen : q.length = 3)
    (m : Machine) (n : Fin 512) (c : Nat) : visit cb m₀ root m (q ++ [n], c) =
      cb.leaf m (virtOf 39 q + n.val * 2 ^ 12) c (!(m₀.frames t n).nx) := by
  have hpath : (q ++ [n]).length = 4 := by
    rw [List.length_append, List.length_singleton]
    omega
  have hcan : canExecuteAt m₀ root (q ++ [n]) = !(m₀.frames t n).nx := by
    rw [canExecuteAt, entryAt_concat, ht]
    rfl
  have hexp : 39 - 9 * q.length = 12 := by omega
  rw [visit, if_pos hpath, hcan, virtOf_concat, hexp]

theorem visit_table {q : Path} (hlen : q.length ≠ 4) (m : Machine) (c : Nat) :
    visit cb m₀ root m (q, c) = cb.table m c := by
  rw [visit, if_neg hlen]

theorem map_below_concat (q : Path) (n : Fin 512) (l : List (Path × Nat)) :
    (l.map fun v => (n :: v.1, v.2)).map (fun v => (q ++ v.1, v.2)) =
      l.map fun v => (q ++ [n] ++ v.1, v.2) := by
  rw [List.map_map]
  exact List.map_congr_left fun v _ => by simp

/-- **The inner loops are a fold** over the frames below an entry, as long as the callbacks
leave the tables alone. -/
theorem walkChildren_eq
    (hP : ∀ m, P m → ∀ q t, Lower q → q.length < 4 → reach m₀ root q = some t →
      m.frames t = m₀.frames t)
    (hstep : ∀ m m' v, Lower v.1 → reach m₀ root v.1 = some v.2 → P m →
      visit cb m₀ root m v = .ok m' → P m')
    (level : Nat) {q : Path} {parent : EntryPtr} {t : Nat} {m : Machine} (hm : P m)
    (hlen : q.length + level = 3) (hq : q ≠ []) (hlow : Lower q) (ht : reach m₀ root q = some t)
    (hparent : ∀ m, P m → m.entry parent = m₀.entry parent)
    (hpresent : (m₀.entry parent).present = true) (haddr : (m₀.entry parent).addr.toNat = t) :
    walkChildren cb level parent (virtOf 39 q) m =
      ((visits (child m₀) (List.finRange 512) (level + 1) (List.finRange 512) t).map
        fun v => (q ++ v.1, v.2)).foldlM (visit cb m₀ root) m := by
  have hentry : ∀ {q t}, Lower q → q.length < 4 → reach m₀ root q = some t → ∀ m n, P m →
      m.entry ⟨t, n⟩ = m₀.frames t n := fun hlow hlen ht m n hm =>
    congrFun (hP m hm _ _ hlow hlen ht) n
  induction level generalizing q parent t m with
  | zero =>
    have hk := visit_below hstep hq hlow ht (show q.length + 1 ≤ 4 by omega)
    rw [visits, List.map_flatMap] at hk
    rw [walkChildren, visits, List.map_flatMap]
    refine foldlM_flatMap (P := P) (fun n _ m hm => ?_) hk hm
    rw [getPageTableChild_eq (hparent m hm) hpresent haddr, ok_bind, hentry hlow (by omega) ht m n hm]
    cases hc : child m₀ t n with
    | none =>
      rw [child_eq_none] at hc
      simp [hc]
    | some c =>
      obtain ⟨hp, ha⟩ := child_eq_some.mp hc
      simp [hp, ha, visits, visit_leaf ht hlen]
  | succ level ih =>
    have hk := visit_below hstep hq hlow ht (show q.length + (level + 2) ≤ 4 by omega)
    rw [visits, List.map_flatMap] at hk
    rw [walkChildren, visits, List.map_flatMap]
    refine foldlM_flatMap (P := P) (fun n _ m hm => ?_) hk hm
    rw [getPageTableChild_eq (hparent m hm) hpresent haddr, ok_bind, hentry hlow (by omega) ht m n hm]
    cases hc : child m₀ t n with
    | none =>
      rw [child_eq_none] at hc
      simp [hc]
    | some c =>
      obtain ⟨hp, ha⟩ := child_eq_some.mp hc
      have hlow' := lower_concat hq hlow (by omega) n
      have ht' : reach m₀ root (q ++ [n]) = some c := (reach_concat ht n).trans hc
      have hlen' : (q ++ [n]).length + level = 3 := by
        rw [List.length_append, List.length_singleton]
        omega
      have hexp : 39 - 9 * q.length = 12 + 9 * (level + 1) := by omega
      have hparent' : ∀ m, P m → m.entry ⟨t, n⟩ = m₀.entry ⟨t, n⟩ := fun m hm =>
        hentry hlow (by omega) ht m n hm
      have hrec := ih (q := q ++ [n]) hm hlen' (by simp) hlow' ht' hparent' hp ha
      rw [virtOf_concat, hexp] at hrec
      rw [if_pos hp, hrec]
      simp only
      rw [List.map_append, map_below_concat, List.foldlM_append]
      refine bind_congr_ok fun m' hm' => ?_
      have hP' : P m' :=
        foldlM_invariant (visit_below hstep (by simp) hlow' ht' (by omega)) hm hm'
      rw [hentry hlow (by omega) ht m' n hP', ha]
      simp [visit_table (show (q ++ [n]).length ≠ 4 by omega)]

/-- **`walk_virtual_tree` is a fold** over the frames of the address space in post-order. -/
theorem walkVirtualTree_eq
    (hP : ∀ m, P m → ∀ q t, Lower q → q.length < 4 → reach m₀ root q = some t →
      m.frames t = m₀.frames t)
    (hstep : ∀ m m' v, Lower v.1 → reach m₀ root v.1 = some v.2 → P m →
      visit cb m₀ root m v = .ok m' → P m') {m : Machine} (hm : P m) :
    walkVirtualTree cb m root = (frameList m₀ root).foldlM (visit cb m₀ root) m := by
  have hroot : ∀ m n, P m → m.entry ⟨root, n⟩ = m₀.frames root n := fun m n hm =>
    congrFun (hP m hm [] root lower_nil (by simp) rfl) n
  have hkeeps : ∀ v ∈ visits (child m₀) (List.finRange 512) 4 lowerIndices root, ∀ m m', P m →
      visit cb m₀ root m v = .ok m' → P m' := by
    intro v hv m m' hm he
    obtain ⟨hl, hr⟩ := mem_frameList.mp (List.mem_append_left [([], root)] hv)
    exact hstep m m' v hl hr hm he
  have hlast : ∀ m, visit cb m₀ root m ([], root) = cb.table m root := fun m => rfl
  suffices hfold : lowerIndices.foldlM (fun m n =>
      if (m.entry ⟨root, n⟩).present then do
        let m ← walkChildren cb 2 ⟨root, n⟩ (n.val * 2 ^ 39) m
        cb.table m (m.entry ⟨root, n⟩).addr.toNat
      else .ok m) m =
      (visits (child m₀) (List.finRange 512) 4 lowerIndices root).foldlM (visit cb m₀ root) m by
    rw [walkVirtualTree, frameList, List.foldlM_append, hfold]
    simp only [List.foldlM_cons, List.foldlM_nil, hlast, pure_eq_ok, bind_ok]
  rw [visits] at hkeeps ⊢
  refine foldlM_flatMap (P := P) (fun n hn m hm => ?_) hkeeps hm
  rw [hroot m n hm]
  cases hc : child m₀ root n with
  | none =>
    rw [child_eq_none] at hc
    simp [hc]
  | some c =>
    obtain ⟨hp, ha⟩ := child_eq_some.mp hc
    have hlow : Lower [n] := by
      refine ⟨by simp, fun i hi => ?_⟩
      rw [List.head?_cons, Option.some.injEq] at hi
      exact hi ▸ mem_lowerIndices.mp hn
    have ht : reach m₀ root [n] = some c := by
      rw [← hc]
      exact reach_concat (q := []) rfl n
    have hrec := walkChildren_eq hP hstep 2 hm (by simp) (by simp) hlow ht
      (fun m hm => hroot m n hm) hp ha
    have hvirt : virtOf 39 [n] = n.val * 2 ^ 39 := by simp [virtOf]
    rw [hvirt] at hrec
    rw [if_pos hp, hrec, List.foldlM_append]
    refine bind_congr_ok fun m' hm' => ?_
    have hP' : P m' := foldlM_invariant (visit_below hstep (by simp) hlow ht (by simp)) hm hm'
    have hvisit : visit cb m₀ root m' ([n], c) = cb.table m' c := rfl
    rw [hroot m' n hP', ha]
    simp [hvisit]

end

end Stuos.Memory
