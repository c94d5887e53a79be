import Stuos.Memory.Mapping

/-!
# What the processor translates

`walk m virt` is the four-level walk of the processor from `CR3`, for both halves of the address
space and with large pages.  The tables are a trie under `CR3`, `tableAt`; what the entries of a
table say about pages does not matter for it.

* `Sprouts`: tables have been added on a path, and nothing is translated in another way.
* `lastTable_sprouts`: that is all that the first part of `map_page` does.
* `map_page_translation`: `map_page` changes one translation.
-/

namespace Stuos.Memory

open Stuos.Lib

/-! ### The walk -/

/-- Where a page is and what may be done with it. -/
structure Translation where
  frame : Nat
  readWrite : Bool
  user : Bool
  pwt : Bool
  pcd : Bool
  nx : Bool
  deriving DecidableEq

/-- The number that indices make up. -/
def pageNumber : Path → Nat
  | [] => 0
  | i :: p => i.val * 512 ^ p.length + pageNumber p

/-- An entry that maps a page, or with the indices that are left, a part of a large page. -/
def PageTableEntry.leaf (e : PageTableEntry) (p : Path) : Translation where
  frame := e.addr.toNat / 512 ^ p.length * 512 ^ p.length + pageNumber p
  readWrite := e.readWrite
  user := e.user
  pwt := e.pwt
  pcd := e.pcd
  nx := e.nx

/-- A table lets through what its entry allows. -/
def Translation.through (t : Translation) (e : PageTableEntry) : Translation :=
  { t with readWrite := e.readWrite && t.readWrite, user := e.user && t.user, nx := e.nx || t.nx }

/-- The walk from a table on.  In the last table the `huge` bit means something else. -/
def walkFrom (m : Machine) : Nat → Path → Option Translation
  | _, [] => none
  | t, i :: p =>
    let e := m.frames t i
    if e.present = false then none
    else if p = [] ∨ e.huge = true then some (e.leaf p)
    else (walkFrom m e.addr.toNat p).map fun t => t.through e

def walk (m : Machine) (virt : Nat) : Option Translation := walkFrom m m.cr3 (pathOf virt)

/-- The bits above the indices are copies of the highest one of these. -/
def Canonical (virt : Nat) : Prop := virt < 2 ^ 47 ∨ 2 ^ 64 - 2 ^ 47 ≤ virt ∧ virt < 2 ^ 64

/-- **A canonical page** is its indices. -/
theorem pathOf_eq_iff_of_canonical {a b : Nat} (ha : Canonical a) (hb : Canonical b) :
    pathOf a = pathOf b ↔ a / 4096 = b / 4096 := by
  have hmod : ∀ v, pathOf (v % 2 ^ 48) = pathOf v := by
    intro v
    simp only [pathOf, List.cons.injEq, and_true, pml4Index, pdptIndex, pdIndex, ptIndex,
      Fin.ext_iff, Fin.val_ofNat]
    omega
  have hlt : ∀ v, v % 2 ^ 48 < 2 ^ 48 := fun v => Nat.mod_lt _ (by decide)
  rw [← hmod a, ← hmod b, pathOf_eq_iff (hlt a) (hlt b)]
  unfold Canonical at ha hb
  omega

/-! ### The tables -/

/-- The table that an entry leads to, if it is one. -/
def subtable (m : Machine) (t : Nat) (i : Fin 512) : Option Nat :=
  if (m.frames t i).present = true ∧ (m.frames t i).huge = false then
    some (m.frames t i).addr.toNat
  else none

/-- The table at the end of a path from `CR3`. -/
abbrev tableAt (m : Machine) (p : Path) : Option Nat := follow (subtable m) m.cr3 p

/-- **A tree of page tables under `CR3`**: no table is reached twice or free, the entries that
lead to tables allow execution, and there are no large pages right below the root. -/
structure WellFormed (m : Machine) : Prop where
  addressable : m.base + m.pages ≤ 2 ^ 40
  separate : ∀ p q t, p.length ≤ 3 → q.length ≤ 3 → tableAt m p = some t → tableAt m q = some t →
    p = q
  inUse : ∀ p t, p.length ≤ 3 → tableAt m p = some t → ¬ Free m t
  root : ∀ i, (m.frames m.cr3 i).present = true → (m.frames m.cr3 i).huge = false
  executable : ∀ p t i, p.length ≤ 2 → tableAt m p = some t → (m.frames t i).present = true →
    (m.frames t i).huge = false → (m.frames t i).nx = false

variable {m m' m'' : Machine} {idx p q : Path} {t u f : Nat} {i j : Fin 512}

theorem subtable_eq_some : subtable m t i = some u ↔
    ((m.frames t i).present = true ∧ (m.frames t i).huge = false) ∧
      (m.frames t i).addr.toNat = u := by
  unfold subtable
  split <;> simp [*]

theorem subtable_of_absent (h : (m.frames t i).present = false) : subtable m t i = none := by
  simp [subtable, h]

theorem subtable_congr (h : m'.frames t i = m.frames t i) : subtable m' t i = subtable m t i := by
  rw [subtable, subtable, h]

theorem tableAt_concat (ht : tableAt m q = some t) (i : Fin 512) :
    tableAt m (q ++ [i]) = subtable m t i := by
  have ht' : follow (subtable m) m.cr3 q = some t := ht
  rw [tableAt, follow_concat, ht', Option.bind_some]

/-! ### Walks along tables -/

theorem walkFrom_of_absent (h : (m.frames t i).present = false) : walkFrom m t (i :: p) = none := by
  simp [walkFrom, h]

theorem walkFrom_of_subtable (h : subtable m t i = some u) (hp : p ≠ []) :
    walkFrom m t (i :: p) = (walkFrom m u p).map fun tr => tr.through (m.frames t i) := by
  obtain ⟨⟨hpresent, hhuge⟩, haddr⟩ := subtable_eq_some.mp h
  rw [walkFrom]
  simp [hpresent, hhuge, haddr, hp]

/-- At an entry that leads to no table. -/
theorem walkFrom_of_leaf (hpresent : (m.frames t i).present = true)
    (h : p = [] ∨ (m.frames t i).huge = true) :
    walkFrom m t (i :: p) = some ((m.frames t i).leaf p) := by
  rw [walkFrom]
  simp only [hpresent, Bool.true_eq_false, if_false, if_pos h]

/-- **A walk depends only on the entries that it reads**: these are the ones on its path, in the
tables there. -/
theorem walkFrom_congr (ht : tableAt m q = some t) (ht' : tableAt m' q = some t)
    (h : ∀ q' t' j s, p = q' ++ j :: s → tableAt m (q ++ q') = some t' →
      m'.frames t' j = m.frames t' j) : walkFrom m' t p = walkFrom m t p := by
  induction p generalizing q t with
  | nil => rfl
  | cons i p ih =>
    have hentry : m'.frames t i = m.frames t i := h [] t i p rfl (by rwa [List.append_nil])
    by_cases hpresent : (m.frames t i).present = false
    · rw [walkFrom_of_absent hpresent, walkFrom_of_absent (hentry ▸ hpresent)]
    · rw [Bool.not_eq_false] at hpresent
      by_cases hleaf : p = [] ∨ (m.frames t i).huge = true
      · rw [walkFrom_of_leaf hpresent hleaf,
          walkFrom_of_leaf (hentry ▸ hpresent) (hentry ▸ hleaf), hentry]
      · rw [not_or, Bool.not_eq_true] at hleaf
        have hs : subtable m t i = some (m.frames t i).addr.toNat :=
          subtable_eq_some.mpr ⟨⟨hpresent, hleaf.2⟩, rfl⟩
        have hs' := (subtable_congr hentry).trans hs
        have hu := (tableAt_concat ht i).trans hs
        have hu' := (tableAt_concat ht' i).trans hs'
        rw [walkFrom_of_subtable hs hleaf.1, walkFrom_of_subtable hs' hleaf.1, hentry]
        rw [ih hu hu' fun q' t' j s hps hq' => h (i :: q') t' j s (by rw [hps]; rfl) ?_]
        rwa [List.append_assoc] at hq'

theorem walkFrom_append_eq_none_iff (ht : tableAt m q = some t) (hu : tableAt m (q ++ p) = some u)
    {s : Path} (hs : s ≠ []) : walkFrom m t (p ++ s) = none ↔ walkFrom m u s = none := by
  induction p generalizing q t with
  | nil =>
    rw [List.append_nil, ht] at hu
    obtain rfl := Option.some.inj hu
    rfl
  | cons i p ih =>
    have hsplit : q ++ i :: p = (q ++ [i]) ++ p := by simp
    rw [hsplit] at hu
    obtain ⟨c, hc, -⟩ := follow_of_append hu
    have hsub : subtable m t i = some c := (tableAt_concat ht i).symm.trans hc
    rw [List.cons_append, walkFrom_of_subtable hsub (by simp [hs]), Option.map_eq_none_iff]
    exact ih hc hu

theorem walk_append_eq_none_iff (hu : tableAt m p = some u) {s : Path} (hs : s ≠ []) :
    walkFrom m m.cr3 (p ++ s) = none ↔ walkFrom m u s = none :=
  walkFrom_append_eq_none_iff (q := []) rfl hu hs

/-! ### Adding tables -/

/-- **Tables have been added** on the path `idx`: all other entries of tables are absent still, and
every page is translated as before. -/
structure Sprouts (idx : Path) (m m' : Machine) : Prop where
  cr3 : m'.cr3 = m.cr3
  wellFormed : WellFormed m'
  tables : ∀ p t, p.length ≤ 3 → tableAt m p = some t → tableAt m' p = some t
  new : ∀ p t j, p.length ≤ 3 → tableAt m' p = some t → (m'.frames t j).present = true →
    (tableAt m p = some t ∧ (m.frames t j).present = true) ∨ p ++ [j] <+: idx
  walks : ∀ p, p.length = 4 → walkFrom m' m'.cr3 p = walkFrom m m.cr3 p

theorem Sprouts.refl (h : WellFormed m) (idx : Path) : Sprouts idx m m where
  cr3 := rfl
  wellFormed := h
  tables _ _ _ ht := ht
  new _ _ _ _ ht hj := Or.inl ⟨ht, hj⟩
  walks _ _ := rfl

theorem Sprouts.trans (h : Sprouts idx m m') (h' : Sprouts idx m' m'') : Sprouts idx m m'' where
  cr3 := h'.cr3.trans h.cr3
  wellFormed := h'.wellFormed
  tables p t hp ht := h'.tables p t hp (h.tables p t hp ht)
  new p t j hp ht hj := by
    rcases h'.new p t j hp ht hj with ⟨ht, hj⟩ | hpre
    · exact h.new p t j hp ht hj
    · exact Or.inr hpre
  walks p hp := (h'.walks p hp).trans (h.walks p hp)

theorem WellFormed.separate_trie (h : WellFormed m) :
    Separate (subtable m) fun r p => r = m.cr3 ∧ p.length ≤ 3 := by
  rintro _ p _ p' t ⟨rfl, hp⟩ ⟨rfl, hp'⟩ ht ht'
  exact ⟨rfl, h.separate p p' t hp hp' ht ht'⟩

theorem WellFormed.walks_other (h : WellFormed m) (hcr3 : m'.cr3 = m.cr3) (hq : q.length ≤ 3)
    (ht : tableAt m q = some t)
    (hsame : ∀ p u j, p.length ≤ 3 → tableAt m p = some u → (u = t → j ≠ i) →
      m'.frames u j = m.frames u j) (hp : p.length = 4) (hpath : ¬ q ++ [i] <+: p) :
    walkFrom m' m'.cr3 p = walkFrom m m.cr3 p := by
  rw [hcr3]
  refine walkFrom_congr (q := []) rfl (by rw [← hcr3]; rfl) fun q' t' j s hps ht' => ?_
  rw [List.nil_append] at ht'
  have hlen : q'.length ≤ 3 := by
    rw [hps, List.length_append, List.length_cons] at hp
    omega
  refine hsame q' t' j hlen ht' ?_
  rintro rfl rfl
  obtain rfl := h.separate q' q t' hlen hq ht' ht
  exact hpath ⟨s, by rw [hps, List.append_assoc]; rfl⟩

/-- `f` was free, is empty now, and has been hung in at the entry `i` of the table `t`, which is the
one at `q`. -/
structure Attached (q : Path) (t : Nat) (i : Fin 512) (f : Nat) (m m' : Machine) : Prop where
  short : q.length ≤ 2
  table : tableAt m q = some t
  absent : (m.frames t i).present = false
  free : Free m f
  cr3 : m'.cr3 = m.cr3
  addressable : m'.base + m'.pages ≤ 2 ^ 40
  taken : ∀ g, Free m' g → Free m g ∧ g ≠ f
  entry : subtable m' t i = some f
  nx : (m'.frames t i).nx = false
  clear : ∀ j, (m'.frames f j).present = false
  same : ∀ u j, u ≠ f → (u = t → j ≠ i) → m'.frames u j = m.frames u j

namespace Attached

theorem ne_of_tableAt (x : Attached q t i f m m') (h : WellFormed m) (hp : p.length ≤ 3)
    (hu : tableAt m p = some u) : u ≠ f := by
  rintro rfl
  exact h.inUse p u hp hu x.free

/-- **The tables**: the new one, and those that were there. -/
theorem tables (x : Attached q t i f m m') (h : WellFormed m) :
    tableAt m' (q ++ [i]) = some f ∧
      ∀ p : Path, p.length ≤ 3 → p ≠ q ++ [i] → tableAt m' p = tableAt m p := by
  have hclosed : ∀ r (p s : Path), r = m.cr3 ∧ (p ++ s).length ≤ 3 → r = m.cr3 ∧ p.length ≤ 3 := by
    rintro r p s ⟨hr, hlen⟩
    rw [List.length_append] at hlen
    exact ⟨hr, by omega⟩
  have hfresh : ∀ r (p : Path), r = m.cr3 ∧ p.length ≤ 3 → follow (subtable m) r p ≠ some f := by
    rintro _ p ⟨rfl, hp⟩ hf
    exact x.ne_of_tableAt h hp hf rfl
  have hsub : ∀ u j, u ≠ f → (u = t → j ≠ i) → subtable m' u j = subtable m u j :=
    fun u j hu hj => subtable_congr (x.same u j hu hj)
  have hqP : m.cr3 = m.cr3 ∧ q.length ≤ 3 := ⟨rfl, x.short.trans (by decide)⟩
  constructor
  · rw [tableAt, x.cr3]
    exact follow_attach_self hclosed h.separate_trie hqP x.table hfresh x.entry hsub
  · intro p hp hne
    rw [tableAt, x.cr3]
    exact follow_attach hclosed h.separate_trie hqP x.table (subtable_of_absent x.absent) hfresh
      x.entry hsub (fun j _ _ => subtable_of_absent (x.clear j)) ⟨rfl, hp⟩ fun hc => hne hc.2

/-- **A table** is the new one, or it was there and has only got the new entry. -/
theorem cases (x : Attached q t i f m m') (h : WellFormed m) (hp : p.length ≤ 3)
    (hu : tableAt m' p = some u) :
    (p = q ++ [i] ∧ u = f) ∨ (tableAt m p = some u ∧ u ≠ f ∧
      ∀ j, m'.frames u j = m.frames u j ∨ (p = q ∧ u = t ∧ j = i)) := by
  obtain ⟨hself, hother⟩ := x.tables h
  have hshort := x.short
  by_cases hpq : p = q ++ [i]
  · subst hpq
    exact Or.inl ⟨rfl, (Option.some.inj (hself.symm.trans hu)).symm⟩
  · rw [hother p hp hpq] at hu
    have huf := x.ne_of_tableAt h hp hu
    refine Or.inr ⟨hu, huf, fun j => ?_⟩
    by_cases hj : u = t ∧ j = i
    · obtain ⟨rfl, rfl⟩ := hj
      exact Or.inr ⟨h.separate p q u hp (by omega) hu x.table, rfl, rfl⟩
    · exact Or.inl (x.same u j huf fun hut hji => hj ⟨hut, hji⟩)

theorem wellFormed (x : Attached q t i f m m') (h : WellFormed m) : WellFormed m' := by
  refine ⟨x.addressable, ?_, ?_, ?_, ?_⟩
  · intro p p' u hp hp' hu hu'
    rcases x.cases h hp hu with ⟨rfl, rfl⟩ | ⟨hu, huf, -⟩
    · rcases x.cases h hp' hu' with ⟨rfl, -⟩ | ⟨-, huf, -⟩
      · rfl
      · exact absurd rfl huf
    · rcases x.cases h hp' hu' with ⟨-, rfl⟩ | ⟨hu', -⟩
      · exact absurd rfl huf
      · exact h.separate p p' u hp hp' hu hu'
  · intro p u hp hu hg
    obtain ⟨hg, hgf⟩ := x.taken u hg
    rcases x.cases h hp hu with ⟨-, rfl⟩ | ⟨hu, -⟩
    · exact hgf rfl
    · exact h.inUse p u hp hu hg
  · intro j hj
    rcases x.cases h (p := []) (by simp) rfl with ⟨hbad, -⟩ | ⟨-, -, hentry⟩
    · simp at hbad
    · rcases hentry j with he | ⟨-, hu, rfl⟩
      · rw [he, x.cr3] at hj ⊢
        exact h.root j hj
      · rw [hu]
        exact (subtable_eq_some.mp x.entry).1.2
  · intro p u j hp hu hj hju
    rcases x.cases h (by omega) hu with ⟨-, rfl⟩ | ⟨hu, -, hentry⟩
    · rw [x.clear j] at hj
      cases hj
    · rcases hentry j with he | ⟨-, rfl, rfl⟩
      · rw [he] at hj hju ⊢
        exact h.executable p u j hp hu hj hju
      · exact x.nx

/-- **Every page is translated as before**: where the new table is, nothing was, and it is empty. -/
theorem walks (x : Attached q t i f m m') (h : WellFormed m) (hp : p.length = 4) :
    walkFrom m' m'.cr3 p = walkFrom m m.cr3 p := by
  have hshort := x.short
  by_cases hpath : q ++ [i] <+: p
  · obtain ⟨s, rfl⟩ := hpath
    obtain ⟨j, s, rfl⟩ : ∃ j s', s = j :: s' := by
      cases s with
      | nil =>
        simp only [List.append_nil, List.length_append, List.length_singleton] at hp
        omega
      | cons j s => exact ⟨j, s, rfl⟩
    have hold : walkFrom m m.cr3 (q ++ [i] ++ j :: s) = none := by
      rw [List.append_assoc, walk_append_eq_none_iff x.table (by simp)]
      exact walkFrom_of_absent x.absent
    rw [hold, walk_append_eq_none_iff (x.tables h).1 (by simp)]
    exact walkFrom_of_absent (x.clear j)
  · exact h.walks_other x.cr3 (by omega) x.table
      (fun p' u j hp' hu hj => x.same u j (x.ne_of_tableAt h hp' hu) hj) hp hpath

/-- **Hanging in a table** on a path adds it there. -/
theorem sprouts (x : Attached q t i f m m') (h : WellFormed m) (hidx : q ++ [i] <+: idx) :
    Sprouts idx m m' where
  cr3 := x.cr3
  wellFormed := x.wellFormed h
  tables p u hp hu := by
    rw [(x.tables h).2 p hp, hu]
    rintro rfl
    rw [(tableAt_concat x.table i).trans (subtable_of_absent x.absent)] at hu
    cases hu
  new p u j hp hu hj := by
    rcases x.cases h hp hu with ⟨-, rfl⟩ | ⟨hu, -, hentry⟩
    · rw [x.clear j] at hj
      cases hj
    · rcases hentry j with he | ⟨rfl, rfl, rfl⟩
      · exact Or.inl ⟨hu, he ▸ hj⟩
      · exact Or.inr hidx
  walks _ hp := x.walks h hp

end Attached

/-- At most `n` frames are free. -/
def FewFree (n : Nat) (m : Machine) : Prop := ∃ l : List Nat, l.length ≤ n ∧ ∀ g, Free m g → g ∈ l

theorem FewFree.of_step {n : Nat} (h : FewFree n m') (hstep : ∀ g, Free m g → Free m' g ∨ g = f) :
    FewFree (n + 1) m := by
  obtain ⟨l, hl, hall⟩ := h
  refine ⟨f :: l, Nat.succ_le_succ hl, fun g hg => ?_⟩
  rcases hstep g hg with hg | rfl
  · exact List.mem_cons_of_mem _ (hall g hg)
  · exact List.mem_cons_self

/-- The frame `f` is taken out of the slab and emptied, and the entry `i` of the table `t` leads to
it. -/
def hangIn (m : Machine) (t : Nat) (i : Fin 512) (f : Nat) : Machine :=
  let m := { m with slabFlags := Function.update m.slabFlags (f - m.base) true }
  let m := m.setFrame f fun j => { m.frames f j with present := false, addr := 0 }
  m.setEntry ⟨t, i⟩ { m.entry ⟨t, i⟩ with
    glob := false, addr := BitVec.ofNat 40 f, huge := false, pcd := false, pwt := true
    user := true, readWrite := true, present := true, nx := false }

theorem free_hangIn {g : Nat} (hf : InSlab m f) :
    Free (hangIn m t i f) g ↔ Free m g ∧ g ≠ f := by
  have hslab : InSlab (hangIn m t i f) g ↔ InSlab m g := Iff.rfl
  have hflag : (hangIn m t i f).slabFlags (g - m.base) =
      if g - m.base = f - m.base then true else m.slabFlags (g - m.base) :=
    Function.update_apply _ _ _ _
  have hbase : (hangIn m t i f).base = m.base := rfl
  rw [Free, Free, hslab, hbase, hflag, and_assoc]
  refine and_congr_right fun hg => ?_
  have hiff : g - m.base = f - m.base ↔ g = f := by
    have := hg.1
    have := hf.1
    omega
  by_cases hgf : g = f
  · rw [if_pos (hiff.mpr hgf)]
    simp [hgf]
  · rw [if_neg (mt hiff.mp hgf)]
    simp [hgf]

theorem attached_hangIn (h : WellFormed m) (hq : q.length ≤ 2) (ht : tableAt m q = some t)
    (habs : (m.frames t i).present = false) (hfree : Free m f) :
    Attached q t i f m (hangIn m t i f) := by
  have htf : t ≠ f := by
    rintro rfl
    exact h.inUse q t (by omega) ht hfree
  have haddr : (BitVec.ofNat 40 f).toNat = f := by
    rw [BitVec.toNat_ofNat, Nat.mod_eq_of_lt]
    have := hfree.1.2
    have := h.addressable
    omega
  refine ⟨hq, ht, habs, hfree, rfl, h.addressable, fun g hg => (free_hangIn hfree.1).mp hg, ?_, ?_,
    fun j => ?_, fun u j hu hj => ?_⟩
  · rw [subtable_eq_some, hangIn, setEntry_same]
    exact ⟨⟨rfl, rfl⟩, haddr⟩
  · rw [hangIn, setEntry_same]
  · rw [hangIn, setEntry_other _ _ fun hft => absurd hft htf.symm, setFrame_same]
  · rw [hangIn, setEntry_other _ _ hj, setFrame_other _ _ hu]

/-- **`if(!entry->present) setup_page_table_entry(entry)`** adds a table if there is none, whatever
its frame held before. -/
theorem ensureTable_sprouts (h : WellFormed m) (hq : q.length ≤ 2) (ht : tableAt m q = some t)
    (hhuge : (m.frames t i).present = true → (m.frames t i).huge = false)
    (hidx : q ++ [i] <+: idx) :
    (∃ m' u f, ensureTable m ⟨t, i⟩ = .ok m' ∧ Sprouts idx m m' ∧ tableAt m' (q ++ [i]) = some u ∧
      tableBase m' ⟨t, i⟩ = u ∧ ∀ g, Free m g → Free m' g ∨ g = f) ∨
    (ensureTable m ⟨t, i⟩ = .error .outOfMemory ∧ FewFree 0 m) := by
  unfold ensureTable
  by_cases hp : (m.frames t i).present = true
  · left
    rw [Machine.entry, if_pos hp]
    refine ⟨m, (m.frames t i).addr.toNat, 0, rfl, Sprouts.refl h idx, ?_, rfl,
      fun g hg => Or.inl hg⟩
    exact (tableAt_concat ht i).trans (subtable_eq_some.mpr ⟨⟨hp, hhuge hp⟩, rfl⟩)
  · have habs : (m.frames t i).present = false := by simpa using hp
    rw [Machine.entry, if_neg hp, setupPageTableEntry, Machine.entry, ensure_of habs, ok_bind]
    rcases malloc4kPhys_cases m with ⟨f, hf, hflag, he⟩ | ⟨he, hall⟩
    · left
      have hx := attached_hangIn h hq ht habs ⟨hf, hflag⟩
      rw [he, ok_bind]
      refine ⟨hangIn m t i f, f, f, rfl, hx.sprouts h hidx, (hx.tables h).1, ?_, fun g hg => ?_⟩
      · exact (subtable_eq_some.mp hx.entry).2
      · by_cases hgf : g = f
        · exact Or.inr hgf
        · exact Or.inl ((free_hangIn hf).mpr ⟨hg, hgf⟩)
    · right
      rw [he]
      refine ⟨rfl, [], Nat.le_refl _, fun g hg => ?_⟩
      have := hall g hg.1
      rw [hg.2] at this
      cases this

theorem huge_of_walk {s : Path} (ht : tableAt m q = some t)
    (hnone : walkFrom m m.cr3 (q ++ i :: s) = none) (hp : (m.frames t i).present = true) :
    (m.frames t i).huge = false := by
  rw [walk_append_eq_none_iff ht (by simp)] at hnone
  by_contra hhuge
  rw [walkFrom_of_leaf hp (Or.inr (by simpa using hhuge))] at hnone
  cases hnone

/-- **The first part of `map_page`** comes to the last table, and only adds tables. -/
theorem lastTable_sprouts {virt : Nat} (h : WellFormed m) (hnone : walk m virt = none) :
    (∃ m' t, lastTable m virt = .ok (m', t) ∧ Sprouts (tablePath virt) m m' ∧
      tableAt m' (tablePath virt) = some t) ∨
    (lastTable m virt = .error .outOfMemory ∧ FewFree 2 m) := by
  have hp2 : [pml4Index virt, pdptIndex virt] <+: tablePath virt := ⟨[pdIndex virt], rfl⟩
  have hp1 : [pml4Index virt] <+: tablePath virt := ⟨[pdptIndex virt, pdIndex virt], rfl⟩
  have hfew : ∀ {n m}, FewFree n m → n ≤ 2 → FewFree 2 m :=
    fun ⟨l, hl, hall⟩ hn => ⟨l, by omega, hall⟩
  -- the page is not mapped while the tables are added
  have hwalk : ∀ {m₁ idx}, Sprouts idx m m₁ → walkFrom m₁ m₁.cr3 (pathOf virt) = none :=
    fun x => (x.walks _ rfl).trans hnone
  unfold lastTable
  dsimp only
  rcases ensureTable_sprouts (q := []) (i := pml4Index virt) h (by simp) rfl
      (huge_of_walk (q := []) (s := [pdptIndex virt, pdIndex virt, ptIndex virt]) rfl
        hnone) hp1 with
    ⟨m₁, t₁, f₁, he₁, x₁, ht₁, hb₁, hl₁⟩ | ⟨he, hfull⟩
  swap
  · exact Or.inr ⟨by rw [he]; rfl, hfew hfull (by omega)⟩
  rw [he₁, ok_bind, hb₁]
  rcases ensureTable_sprouts (i := pdptIndex virt) x₁.wellFormed (by simp) ht₁
      (huge_of_walk (s := [pdIndex virt, ptIndex virt]) ht₁ (hwalk x₁)) hp2 with
    ⟨m₂, t₂, f₂, he₂, x₂, ht₂, hb₂, hl₂⟩ | ⟨he, hfull⟩
  swap
  · exact Or.inr ⟨by rw [he]; rfl, hfew (hfull.of_step hl₁) (by omega)⟩
  have x₁₂ := x₁.trans x₂
  rw [he₂, ok_bind, hb₂]
  rcases ensureTable_sprouts (i := pdIndex virt) x₂.wellFormed (by simp) ht₂
      (huge_of_walk (s := [ptIndex virt]) ht₂ (hwalk x₁₂)) (List.prefix_refl _) with
    ⟨m₃, t₃, f₃, he₃, x₃, ht₃, hb₃, -⟩ | ⟨he, hfull⟩
  swap
  · exact Or.inr ⟨by rw [he]; rfl, hfew ((hfull.of_step hl₂).of_step hl₁) (by omega)⟩
  left
  rw [he₃, ok_bind, hb₃]
  exact ⟨m₃, t₃, rfl, x₁₂.trans x₃, ht₃⟩

/-! ### Mapping the page -/

/-- The tables on the way of a page only take the right to write and to user mode away. -/
theorem WellFormed.walk_through (h : WellFormed m) {s : Path} {tr : Translation}
    (ht : tableAt m q = some t) (hu : tableAt m (q ++ p) = some u) (hs : s ≠ [])
    (hlen : (q ++ p).length ≤ 3) (htr : walkFrom m u s = some tr) :
    ∃ tr', walkFrom m t (p ++ s) = some tr' ∧ tr'.frame = tr.frame ∧ tr'.pcd = tr.pcd ∧
      tr'.nx = tr.nx := by
  induction p generalizing q t with
  | nil =>
    rw [List.append_nil, ht] at hu
    obtain rfl := Option.some.inj hu
    exact ⟨tr, htr, rfl, rfl, rfl⟩
  | cons i p ih =>
    have hsplit : q ++ i :: p = (q ++ [i]) ++ p := by simp
    rw [hsplit] at hu hlen
    obtain ⟨c, hc, -⟩ := follow_of_append hu
    have hsub : subtable m t i = some c := (tableAt_concat ht i).symm.trans hc
    obtain ⟨⟨hpresent, hhuge⟩, -⟩ := subtable_eq_some.mp hsub
    have hq : q.length ≤ 2 := by
      simp only [List.length_append, List.length_singleton] at hlen
      omega
    have hnx := h.executable q t i hq ht hpresent hhuge
    obtain ⟨tr', htr', hframe, hpcd, hnx'⟩ := ih hc hu hlen
    refine ⟨tr'.through (m.frames t i), ?_, hframe, hpcd, ?_⟩
    · rw [List.cons_append, walkFrom_of_subtable hsub (by simp [hs]), htr', Option.map_some]
    · rw [Translation.through, hnx, Bool.false_or, hnx']

theorem WellFormed.setLeaf (h : WellFormed m) (hq : q.length = 3) (ht : tableAt m q = some t)
    (e : PageTableEntry) : WellFormed (m.setEntry ⟨t, i⟩ e) ∧
      ∀ p, p.length ≤ 3 → tableAt (m.setEntry ⟨t, i⟩ e) p = tableAt m p := by
  have hsame : ∀ p u j, p.length ≤ 2 → tableAt m p = some u →
      (m.setEntry ⟨t, i⟩ e).frames u j = m.frames u j := by
    intro p u j hp hu
    refine setEntry_other m e ?_
    rintro rfl
    -- the table would be reached by a shorter path
    obtain rfl := h.separate p q u (by omega) (by omega) hu ht
    omega
  have htables : ∀ p, p.length ≤ 3 → tableAt (m.setEntry ⟨t, i⟩ e) p = tableAt m p := by
    intro p hp
    refine follow_congr fun p' j s hps u hu => subtable_congr (hsame p' u j ?_ hu)
    rw [hps, List.length_append, List.length_cons] at hp
    omega
  refine ⟨⟨h.addressable, ?_, ?_, ?_, ?_⟩, htables⟩
  · intro p p' u hp hp' hu hu'
    rw [htables p hp] at hu
    rw [htables p' hp'] at hu'
    exact h.separate p p' u hp hp' hu hu'
  · intro p u hp hu
    rw [htables p hp] at hu
    exact h.inUse p u hp hu
  · intro j hj
    have hroot := hsame [] m.cr3 j (by simp) rfl
    exact hroot ▸ h.root j (hroot ▸ hj)
  · intro p u j hp hu hj hju
    rw [htables p (by omega)] at hu
    rw [hsame p u j hp hu] at hj hju ⊢
    exact h.executable p u j hp hu hj hju

/-- **`map_page` changes one translation**: at a canonical page that is not mapped, in a tree of
page tables, the walk of that page gives the frame with the requested bits afterwards, that of
every other page what it gave before, and the new tables have no other entries than those on the
way to the page.  It only fails if there are too few free frames. -/
theorem map_page_translation {f virt : Nat} (canCache canExecute : Bool) (h : WellFormed m)
    (hcanonical : Canonical virt) (haligned : pageOffset virt = 0) (hnone : walk m virt = none)
    (hf : f < 2 ^ 40) :
    (∃ m', mapPage m f virt canCache canExecute = .ok m' ∧ WellFormed m' ∧ m'.cr3 = m.cr3 ∧
      (∃ tr, walk m' virt = some tr ∧ tr.frame = f ∧ tr.nx = !canExecute ∧ tr.pcd = !canCache) ∧
      (∀ v, Canonical v → v / 4096 ≠ virt / 4096 → walk m' v = walk m v) ∧
      ∀ p t j, p.length ≤ 3 → tableAt m p = none → tableAt m' p = some t →
        (m'.frames t j).present = true → p ++ [j] <+: pathOf virt) ∨
    (mapPage m f virt canCache canExecute = .error .outOfMemory ∧ FewFree 2 m) := by
  rw [mapPage_eq canCache canExecute haligned]
  rcases lastTable_sprouts h hnone with ⟨m₃, t, he, x, ht⟩ | ⟨he, hfew⟩
  swap
  · exact Or.inr ⟨by rw [he]; rfl, hfew⟩
  left
  rw [he, ok_bind]
  dsimp only
  have habs : (m₃.frames t (ptIndex virt)).present = false := by
    have hwalk : walkFrom m₃ m₃.cr3 (tablePath virt ++ [ptIndex virt]) = none :=
      (x.walks _ rfl).trans hnone
    rw [walk_append_eq_none_iff ht (by simp)] at hwalk
    by_contra hpresent
    rw [walkFrom_of_leaf (by simpa using hpresent) (Or.inl rfl)] at hwalk
    cases hwalk
  rw [Machine.entry, ensure_of habs, ok_bind]
  generalize hentry : ({ m₃.frames t (ptIndex virt) with
    glob := false, addr := BitVec.ofNat 40 f, huge := false, pcd := !canCache, pwt := true
    user := true, readWrite := true, present := true, nx := !canExecute } : PageTableEntry) = e
  obtain ⟨hwf, htables⟩ := x.wellFormed.setLeaf (i := ptIndex virt) rfl ht e
  have hset := setEntry_same m₃ t (ptIndex virt) e
  refine ⟨_, rfl, hwf, x.cr3, ?_, fun v hv hne => ?_, fun p u j hp hold hu hj => ?_⟩
  · have hleaf : walkFrom (m₃.setEntry ⟨t, ptIndex virt⟩ e) t [ptIndex virt] = some (e.leaf []) := by
      rw [walkFrom_of_leaf (by rw [hset, ← hentry]) (Or.inl rfl), hset]
    have ht' := (htables (tablePath virt) (Nat.le_refl _)).trans ht
    obtain ⟨tr, htr, hframe, hpcd, hnx⟩ :=
      hwf.walk_through (q := []) rfl ht' (by simp) (Nat.le_refl _) hleaf
    have haddr : (BitVec.ofNat 40 f).toNat = f := by
      rw [BitVec.toNat_ofNat, Nat.mod_eq_of_lt hf]
    refine ⟨tr, htr, ?_, ?_, ?_⟩
    · rw [hframe, ← hentry]
      simp [PageTableEntry.leaf, pageNumber, haddr]
    · rw [hnx, ← hentry]
      rfl
    · rw [hpcd, ← hentry]
      rfl
  · have hpath : ¬ tablePath virt ++ [ptIndex virt] <+: pathOf v := by
      intro hpre
      have hsame : pathOf virt = pathOf v := hpre.eq_of_length rfl
      exact hne ((pathOf_eq_iff_of_canonical hcanonical hv).mp hsame).symm
    have hother : walkFrom (m₃.setEntry ⟨t, ptIndex virt⟩ e) m₃.cr3 (pathOf v) =
        walkFrom m₃ m₃.cr3 (pathOf v) :=
      x.wellFormed.walks_other rfl (Nat.le_refl _) ht
        (fun p u j _ _ hj => setEntry_other m₃ e hj) rfl hpath
    exact hother.trans (x.walks _ rfl)
  · rw [htables p hp] at hu
    by_cases hj' : u = t ∧ j = ptIndex virt
    · obtain ⟨rfl, rfl⟩ := hj'
      obtain rfl := x.wellFormed.separate p (tablePath virt) u hp (Nat.le_refl _) hu ht
      exact List.prefix_refl _
    · rw [setEntry_other m₃ e fun hut hji => hj' ⟨hut, hji⟩] at hj
      rcases x.new p u j hp hu hj with ⟨hu, -⟩ | hpre
      · rw [hold] at hu
        cases hu
      · exact hpre.trans (tablePath_initial virt)

/-- An empty root in frame 16, and ones in all other frames. -/
def emptyRoot : Machine where
  frames := Function.update (fun _ _ => .ofWord 0xFFFFFFFFFFFFFFFF) 16 fun _ => .ofWord 0
  slabFlags := Function.update (fun _ => false) 0 true
  base := 16
  pages := 16
  cr3 := 16
  originalKernelPageTable := 0
  freeLog := []

theorem emptyRoot_wellFormed : WellFormed emptyRoot := by
  have habs : ∀ i, (emptyRoot.frames emptyRoot.cr3 i).present = false := fun _ => rfl
  have htable : ∀ p t, tableAt emptyRoot p = some t → p = [] ∧ t = emptyRoot.cr3 := by
    intro p t ht
    cases p with
    | nil => exact ⟨rfl, (Option.some.inj ht).symm⟩
    | cons i p =>
      rw [tableAt, follow_cons, subtable_of_absent (habs i)] at ht
      cases ht
  refine ⟨by decide, fun p q t _ _ hp hq => ?_, fun p t _ ht hfree => ?_, fun i hi => ?_,
    fun p t i _ ht hi _ => ?_⟩
  · rw [(htable p t hp).1, (htable q t hq).1]
  · obtain ⟨-, rfl⟩ := htable p t ht
    exact absurd hfree.2 (by decide)
  · rw [habs i] at hi
    cases hi
  · obtain ⟨-, rfl⟩ := htable p t ht
    rw [habs i] at hi
    cases hi

/-- A page in an empty address space: three tables come from frames full of ones. -/
theorem map_page_translation_empty :
    ∃ m', mapPage emptyRoot 0x500 0x400000 true false = .ok m' ∧
      (∃ tr, walk m' 0x400000 = some tr ∧ tr.frame = 0x500 ∧ tr.nx = true ∧ tr.pcd = false) ∧
      walk m' 0x401000 = none := by
  have hcanonical : Canonical 0x400000 := Or.inl (by decide)
  have hnone : walk emptyRoot 0x400000 = none := rfl
  have hok : (mapPage emptyRoot 0x500 0x400000 true false).isOk = true := rfl
  obtain ⟨m', he, -, -, htr, hother, -⟩ := (map_page_translation true false emptyRoot_wellFormed
    hcanonical (by decide) hnone (by decide : 0x500 < 2 ^ 40)).resolve_right fun hbad => by
      rw [hbad.1] at hok
      cases hok
  exact ⟨m', he, htr, hother 0x401000 (Or.inl (by decide)) (by decide)⟩

end Stuos.Memory
