import Stuos.Memory.Accounting

/-!
# Mapping a page

What `generate_clean_virtual_addressing`, `map_page` and `allocate_ram_page` do to the
address spaces.  `Extends live F r idx m m'` says that from `m` to `m'` the address space
`r` has only grown, by tables and pages on the path `idx` in frames of `F`, and that
nothing else has changed.

* `generate_spec`: a new address space is empty, and the only way to fail is to run out of
  pages.
* `mapPage_spec`, `allocateRamPage_spec`: the page is mapped, or it could not be because of
  its address, or the pages have run out.
-/

namespace Stuos.Memory

open Stuos.Lib

/-- The parts of the machine that mapping leaves alone. -/
structure SameSetup (m m' : Machine) : Prop where
  base : m'.base = m.base
  pages : m'.pages = m.pages
  cr3 : m'.cr3 = m.cr3
  original : m'.originalKernelPageTable = m.originalKernelPageTable
  freeLog : m'.freeLog = m.freeLog

theorem SameSetup.refl (m : Machine) : SameSetup m m := ⟨rfl, rfl, rfl, rfl, rfl⟩

theorem SameSetup.trans {m m' m'' : Machine} (h : SameSetup m m') (h' : SameSetup m' m'') :
    SameSetup m m'' :=
  ⟨h'.base.trans h.base, h'.pages.trans h.pages, h'.cr3.trans h.cr3,
    h'.original.trans h.original, h'.freeLog.trans h.freeLog⟩

theorem SameSetup.inSlab {m m' : Machine} (h : SameSetup m m') (f : Nat) :
    InSlab m' f ↔ InSlab m f := by
  rw [InSlab, InSlab, h.base, h.pages]

/-- The page is free. -/
def Free (m : Machine) (f : Nat) : Prop := InSlab m f ∧ m.slabFlags (f - m.base) = false

theorem Accounted.not_reached {m : Machine} {live kernel : List Nat} {f : Nat}
    (h : Accounted m live kernel) (hf : Free m f) :
    f ∉ kernel ∧ ∀ r ∈ live, ∀ p, Lower p → reach m r p ≠ some f :=
  (h.take hf.1 hf.2).2

/-! ### Growing -/

/-- **The address space `r` has grown along `idx`**, by frames of `F`, and nothing else has
changed. -/
structure Extends (live : List Nat) (F : Nat → Prop) (r : Nat) (idx : Path) (m m' : Machine) :
    Prop where
  setup : SameSetup m m'
  kept : ∀ p f, Lower p → reach m r p = some f → reach m' r p = some f
  new : ∀ p f, Lower p → reach m' r p = some f →
    reach m r p = some f ∨ (p <+: idx ∧ F f)
  others : ∀ r' ∈ live, r' ≠ r → ∀ p, Lower p → reach m' r' p = reach m r' p
  frames : ∀ g, ¬ F g → (∀ p, Lower p → reach m r p ≠ some g) → m'.frames g = m.frames g
  entries : ∀ q t i, Lower (q ++ [i]) → reach m r q = some t → (m.frames t i).present = true →
    m'.frames t i = m.frames t i
  leaves : ∀ p g, p.length = 4 → Lower p → reach m r p = some g → m'.frames g = m.frames g
  free : ∀ f, Free m' f → Free m f

namespace Extends

variable {live : List Nat} {F : Nat → Prop} {r : Nat} {idx : Path} {m m' m'' : Machine}

theorem reach_eq_none (x : Extends live F r idx m m') {p : Path} (hp : Lower p)
    (h : reach m' r p = none) : reach m r p = none := by
  rw [Option.eq_none_iff_forall_not_mem]
  intro g hg
  cases h.symm.trans (x.kept p g hp hg)

theorem refl (live : List Nat) (F : Nat → Prop) (r : Nat) (idx : Path) (m : Machine) :
    Extends live F r idx m m where
  setup := SameSetup.refl m
  kept _ _ _ h := h
  new _ _ _ h := Or.inl h
  others _ _ _ _ _ := rfl
  frames _ _ _ := rfl
  entries _ _ _ _ _ _ := rfl
  leaves _ _ _ _ _ := rfl
  free _ h := h

theorem trans (h : Extends live F r idx m m') (h' : Extends live F r idx m' m'') :
    Extends live F r idx m m'' where
  setup := h.setup.trans h'.setup
  kept p f hp hf := h'.kept p f hp (h.kept p f hp hf)
  new p f hp hf := by
    rcases h'.new p f hp hf with hf | hn
    · exact h.new p f hp hf
    · exact Or.inr hn
  others r' hr hne p hp := (h'.others r' hr hne p hp).trans (h.others r' hr hne p hp)
  frames g hF hg := by
    have hg' : ∀ p, Lower p → reach m' r p ≠ some g := by
      intro p hp he
      rcases h.new p g hp he with ho | ⟨-, hn⟩
      · exact hg p hp ho
      · exact hF hn
    rw [h'.frames g hF hg', h.frames g hF hg]
  entries q t i hl ht hp := by
    have h1 := h.entries q t i hl ht hp
    rw [h'.entries q t i hl (h.kept q t hl.initial ht) (by rw [h1]; exact hp), h1]
  leaves p g hlen hp hg := by
    rw [h'.leaves p g hlen hp (h.kept p g hp hg), h.leaves p g hlen hp hg]
  free f hf := h.free f (h'.free f hf)

theorem mono {idx' : Path} (h : Extends live F r idx m m') (hidx : idx <+: idx') :
    Extends live F r idx' m m' where
  setup := h.setup
  kept := h.kept
  new p f hp hf := (h.new p f hp hf).imp_right fun hn => ⟨hn.1.trans hidx, hn.2⟩
  others := h.others
  frames := h.frames
  entries := h.entries
  leaves := h.leaves
  free := h.free

end Extends

variable {live kernel : List Nat} {F : Nat → Prop} {r : Nat} {idx : Path} {m : Machine}

/-- The page `f` has been given to the kernel. -/
structure Taken (live kernel : List Nat) (m : Machine) (f : Nat) (m' : Machine) : Prop where
  fresh : Free m f
  setup : SameSetup m m'
  frames : m'.frames = m.frames
  free : ∀ g, Free m' g → Free m g
  accounted : Accounted m' live (f :: kernel)
  notKernel : f ∉ kernel

theorem Taken.reach_eq {f : Nat} {m' : Machine} (h : Taken live kernel m f m') (r : Nat) (p : Path) :
    reach m' r p = reach m r p :=
  reach_congr fun _ i _ _ t _ => congrFun (congrFun h.frames t) i

theorem Taken.extends {f : Nat} {m' : Machine} (h : Taken live kernel m f m') (F : Nat → Prop)
    (r : Nat) (idx : Path) : Extends live F r idx m m' where
  setup := h.setup
  kept p _ _ hg := (h.reach_eq r p).trans hg
  new p _ _ hg := Or.inl ((h.reach_eq r p).symm.trans hg)
  others r' _ _ p _ := h.reach_eq r' p
  frames g _ _ := congrFun h.frames g
  entries _ t i _ _ _ := congrFun (congrFun h.frames t) i
  leaves _ g _ _ _ := congrFun h.frames g
  free := h.free

/-- **`malloc4k_phys`** gives a free page to the kernel, or there is none. -/
theorem malloc_spec (h : Accounted m live kernel) :
    (∃ f m', malloc4kPhys m = .ok (f, m') ∧ Taken live kernel m f m') ∨
    (malloc4kPhys m = .error .outOfMemory ∧ ∀ f, ¬ Free m f) := by
  rcases malloc4kPhys_cases m with ⟨f, hf, hfree, he⟩ | ⟨he, hall⟩
  · obtain ⟨h1, hk, -⟩ := h.take hf hfree
    refine Or.inl ⟨f, _, he, ⟨hf, hfree⟩, ⟨rfl, rfl, rfl, rfl, rfl⟩, rfl, fun g hg => ?_, h1, hk⟩
    refine ⟨hg.1, ?_⟩
    have hfree := hg.2
    simp only [Function.update_apply] at hfree
    split at hfree
    · simp at hfree
    · exact hfree
  · refine Or.inr ⟨he, fun f hf => ?_⟩
    have := hall f hf.1
    rw [hf.2] at this
    simp at this

theorem Accounted.extends_setFrame {f : Nat} (h : Accounted m live kernel) (hr : r ∈ live)
    (hf : f ∈ kernel) (hF : F f) (content : Frame) (idx : Path) :
    Extends live F r idx m (m.setFrame f content) := by
  obtain ⟨-, hreach⟩ := h.setKernelFrame hf content
  have hne : ∀ p g, Lower p → reach m r p = some g → g ≠ f := by
    rintro p g hp hg rfl
    exact h.kernelApart g hf r hr p hp hg
  constructor
  · exact ⟨rfl, rfl, rfl, rfl, rfl⟩
  · intro p g hp hg
    rw [hreach r hr p hp, hg]
  · intro p g hp hg
    rw [hreach r hr p hp] at hg
    exact Or.inl hg
  · exact fun r' hr' _ p hp => hreach r' hr' p hp
  · intro g hg _
    refine setFrame_other m content ?_
    rintro rfl
    exact hg hF
  · intro q t i hl ht _
    rw [setFrame_other m content (hne q t hl.initial ht)]
  · exact fun p g _ hp hg => setFrame_other m content (hne p g hp hg)
  · exact fun _ hg => hg

/-- **Hanging in a frame** of the kernel. -/
theorem Accounted.extends_attach {f t : Nat} {q : Path} {i : Fin 512} {e : PageTableEntry}
    (h : Accounted m live (f :: kernel)) (hr : r ∈ live)
    (ht : reach m r q = some t) (hl : Lower (q ++ [i])) (habs : (m.frames t i).present = false)
    (hself : reach (m.setEntry ⟨t, i⟩ e) r (q ++ [i]) = some f)
    (hother : ∀ r' ∈ live, ∀ p, Lower p → ¬ (r' = r ∧ p = q ++ [i]) →
      reach (m.setEntry ⟨t, i⟩ e) r' p = reach m r' p)
    (hidx : q ++ [i] <+: idx) (hF : F f) :
    Extends live F r idx m (m.setEntry ⟨t, i⟩ e) := by
  have hnone : reach m r (q ++ [i]) = none := by
    have ht' : follow (child m) r q = some t := ht
    rw [reach, follow_concat, ht', Option.bind_some, child_eq_none.mpr habs]
  have hne : ∀ {p g}, reach m r p = some g → ¬ (r = r ∧ p = q ++ [i]) := by
    rintro p g hg ⟨-, rfl⟩
    rw [hnone] at hg
    simp at hg
  constructor
  · exact ⟨rfl, rfl, rfl, rfl, rfl⟩
  · intro p g hp hg
    rw [hother r hr p hp (hne hg), hg]
  · intro p g hp hg
    by_cases hpq : r = r ∧ p = q ++ [i]
    · obtain ⟨-, rfl⟩ := hpq
      rw [hself, Option.some.injEq] at hg
      exact Or.inr ⟨hidx, hg ▸ hF⟩
    · rw [hother r hr p hp hpq] at hg
      exact Or.inl hg
  · intro r' hr' hrr p hp
    exact hother r' hr' p hp fun hc => hrr hc.1
  · intro g _ hg
    refine setEntry_frame m e ?_
    rintro rfl
    exact hg q hl.initial ht
  · intro q' t' j _ _ hp
    refine setEntry_other m e ?_
    rintro rfl rfl
    rw [habs] at hp
    simp at hp
  · intro p g hlen hp hg
    refine setEntry_frame m e ?_
    rintro rfl
    -- a page is not a table
    obtain ⟨-, rfl⟩ := h.separate r p r q g ⟨hr, hp⟩ ⟨hr, hl.initial⟩ hg ht
    have := hl.1
    rw [List.length_append, List.length_singleton] at this
    omega
  · exact fun _ hg => hg

/-! ### Page tables -/

theorem reach_concat {t : Nat} {q : Path} (ht : reach m r q = some t) (i : Fin 512) :
    reach m r (q ++ [i]) = child m t i := by
  have ht' : follow (child m) r q = some t := ht
  rw [reach, follow_concat, ht', Option.bind_some]

theorem Accounted.addr_ofNat (h : Accounted m live kernel) {f : Nat} (hf : InSlab m f) :
    (BitVec.ofNat 40 f).toNat = f := by
  rw [BitVec.toNat_ofNat, Nat.mod_eq_of_lt]
  have := hf.2
  have := h.addressable
  omega

/-- **`if(!entry->present) setup_page_table_entry(entry)`**: afterwards the entry leads to a
table, or the pages have run out. -/
theorem ensureTable_spec {t : Nat} {q : Path} {i : Fin 512} (h : Accounted m live kernel)
    (hr : r ∈ live) (ht : reach m r q = some t) (hl : Lower (q ++ [i]))
    (hidx : q ++ [i] <+: idx) (hF : ∀ f, Free m f → F f) :
    (∃ m' u, ensureTable m ⟨t, i⟩ = .ok m' ∧ Accounted m' live kernel ∧
      Extends live F r idx m m' ∧ reach m' r (q ++ [i]) = some u ∧ tableBase m' ⟨t, i⟩ = u) ∨
    (ensureTable m ⟨t, i⟩ = .error .outOfMemory ∧ (∀ f, ¬ Free m f) ∧
      reach m r (q ++ [i]) = none) := by
  unfold ensureTable
  by_cases hp : (m.frames t i).present = true
  · left
    rw [Machine.entry, if_pos hp]
    refine ⟨m, (m.frames t i).addr.toNat, rfl, h, Extends.refl _ _ _ _ _, ?_, rfl⟩
    rw [reach_concat ht, child_eq_some]
    exact ⟨hp, rfl⟩
  · have habs : (m.frames t i).present = false := by simpa using hp
    rw [Machine.entry, if_neg hp, setupPageTableEntry, Machine.entry, ensure_of habs, ok_bind]
    rcases malloc_spec h with ⟨f, m1, he, htaken⟩ | ⟨he, hall⟩
    · left
      rw [he, ok_bind]
      have h1 := htaken.accounted
      have ht1 : reach m1 r q = some t := (htaken.reach_eq r q).trans ht
      have htf : t ≠ f := fun he => h1.kernelApart f (by simp) r hr q hl.initial (he ▸ ht1)
      have hFf := hF f htaken.fresh
      obtain ⟨h2, hreach⟩ := h1.setKernelFrame (f := f) (by simp)
        (fun j => { m1.frames f j with present := false, addr := 0 })
      have e2 := h1.extends_setFrame hr (f := f) (F := F) (by simp) hFf
        (fun j => { m1.frames f j with present := false, addr := 0 }) idx
      have hcleared : ∀ j, ((m1.setFrame f fun j =>
          { m1.frames f j with present := false, addr := 0 }).frames f j).present = false := by
        intro j
        rw [setFrame_same]
      have ht2 := (hreach r hr q hl.initial).trans ht1
      have habs2 : ((m1.setFrame f fun j =>
          { m1.frames f j with present := false, addr := 0 }).frames t i).present = false := by
        rw [setFrame_other m1 _ htf, htaken.frames]
        exact habs
      dsimp only
      generalize (m1.setFrame f fun j => { m1.frames f j with present := false, addr := 0 }) = m2 at *
      have haddr := h2.addr_ofNat (h2.kernelInSlab f (by simp))
      obtain ⟨h3, hself, hother⟩ := h2.attach (e := { m2.entry ⟨t, i⟩ with
          glob := false, addr := BitVec.ofNat 40 f, huge := false, pcd := false, pwt := true
          user := true, readWrite := true, present := true, nx := false })
        htaken.notKernel hr ht2 hl habs2 rfl haddr fun _ => ⟨rfl, hcleared⟩
      have e3 : Extends live F r idx m2 _ := h2.extends_attach hr ht2 hl habs2 hself hother hidx hFf
      refine ⟨_, f, rfl, h3, ((htaken.extends F r idx).trans e2).trans e3, hself, ?_⟩
      rw [tableBase, Machine.entry, setEntry_same]
      exact haddr
    · right
      rw [he]
      refine ⟨rfl, hall, ?_⟩
      rw [reach_concat ht, child_eq_none]
      exact habs

/-! ### Pages -/

/-- The indices of a virtual address. -/
def pathOf (virt : Nat) : Path := [pml4Index virt, pdptIndex virt, pdIndex virt, ptIndex virt]

theorem lower_pathOf {virt : Nat} (h : (pml4Index virt).val < 256) : Lower (pathOf virt) := by
  refine ⟨by simp [pathOf], fun i hi => ?_⟩
  rw [pathOf, List.head?_cons, Option.some.injEq] at hi
  exact hi ▸ h

theorem pml4Index_lt {virt : Nat} (h : virt < 2 ^ 47) : (pml4Index virt).val < 256 := by
  simp only [pml4Index, Fin.val_ofNat]
  omega

theorem pathOf_eq_iff {a b : Nat} (ha : a < 2 ^ 48) (hb : b < 2 ^ 48) :
    pathOf a = pathOf b ↔ a / 4096 = b / 4096 := by
  constructor
  · intro h
    simp only [pathOf, List.cons.injEq, and_true, pml4Index, pdptIndex, pdIndex, ptIndex,
      Fin.ext_iff, Fin.val_ofNat] at h
    omega
  · intro h
    have h1 : a / 2 ^ 12 = b / 2 ^ 12 := h
    have h2 : a / 2 ^ 21 = b / 2 ^ 21 := by omega
    have h3 : a / 2 ^ 30 = b / 2 ^ 30 := by omega
    have h4 : a / 2 ^ 39 = b / 2 ^ 39 := by omega
    rw [pathOf, pathOf, pml4Index, pml4Index, pdptIndex, pdptIndex, pdIndex, pdIndex, ptIndex,
      ptIndex, h1, h2, h3, h4]

/-- The entry at the end of a path. -/
def entryAt (m : Machine) (r : Nat) (p : Path) : Option PageTableEntry :=
  match p.getLast? with
  | none => none
  | some i => (reach m r p.dropLast).map fun t => m.frames t i

theorem entryAt_concat (m : Machine) (r : Nat) (q : Path) (i : Fin 512) :
    entryAt m r (q ++ [i]) = (reach m r q).map fun t => m.frames t i := by
  simp [entryAt]

theorem Extends.entryAt_eq {m' : Machine} {p : Path} {f : Nat} (h : Extends live F r idx m m')
    (hp : Lower p) (hne : p ≠ []) (hf : reach m r p = some f) :
    entryAt m' r p = entryAt m r p := by
  obtain ⟨q, i, rfl⟩ : ∃ q i, p = q ++ [i] := ⟨_, _, (List.dropLast_append_getLast hne).symm⟩
  obtain ⟨t, ht, hi⟩ := follow_of_append hf
  have hc : child m t i = some f := (reach_concat (m := m) ht i).symm.trans hf
  rw [entryAt_concat, entryAt_concat, h.kept q t hp.initial ht, (show reach m r q = some t from ht),
    Option.map_some, Option.map_some, h.entries q t i hp ht (child_eq_some.mp hc).1]

/-- What `map_page` leaves behind when the pages run out on the way to the page at `idx`. -/
structure Exhausted (live kernel : List Nat) (F : Nat → Prop) (r : Nat) (idx : Path)
    (m m' : Machine) : Prop where
  accounted : Accounted m' live kernel
  ext : Extends live F r idx m m'
  full : ∀ f, ¬ Free m' f
  missing : ∃ p, p <+: idx ∧ p ≠ idx ∧ reach m' r p = none

theorem Exhausted.reach_eq_none {live kernel : List Nat} {F : Nat → Prop} {r : Nat} {idx : Path}
    {m m' : Machine} (h : Exhausted live kernel F r idx m m') : reach m' r idx = none := by
  obtain ⟨p, ⟨s, rfl⟩, -, hmissing⟩ := h.missing
  have hp : follow (child m') r p = none := hmissing
  rw [reach, follow_append, hp]
  rfl

/-- The part of `map_page` that walks down to the last table: the machine afterwards, and the
table. -/
def lastTable (m : Machine) (virt : Nat) : Except Halt (Machine × Nat) := do
  let myPml4 : EntryPtr := ⟨m.cr3, pml4Index virt⟩
  let m ← ensureTable m myPml4
  let myPdpt : EntryPtr := ⟨tableBase m myPml4, pdptIndex virt⟩
  let m ← ensureTable m myPdpt
  let myPd : EntryPtr := ⟨tableBase m myPdpt, pdIndex virt⟩
  let m ← ensureTable m myPd
  .ok (m, tableBase m myPd)

/-- The path to the last table on the way to the page at `virt`. -/
def tablePath (virt : Nat) : Path := [pml4Index virt, pdptIndex virt, pdIndex virt]

theorem tablePath_append (virt : Nat) : pathOf virt = tablePath virt ++ [ptIndex virt] := rfl

theorem tablePath_initial (virt : Nat) : tablePath virt <+: pathOf virt := ⟨[ptIndex virt], rfl⟩

theorem lastTable_spec {virt : Nat} (h : Accounted m live kernel) (hr : m.cr3 ∈ live)
    (hlow : (pml4Index virt).val < 256) (hF : ∀ g, Free m g → F g) :
    (∃ m' t, lastTable m virt = .ok (m', t) ∧ Accounted m' live kernel ∧
      Extends live F m.cr3 (tablePath virt) m m' ∧ reach m' m.cr3 (tablePath virt) = some t) ∨
    (lastTable m virt = .error .outOfMemory ∧
      ∃ m', Exhausted live kernel F m.cr3 (pathOf virt) m m') := by
  have hlower : ∀ p, p <+: tablePath virt → Lower p := by
    rintro p ⟨s, hs⟩
    have := (lower_pathOf hlow).initial (p := tablePath virt)
    rw [← hs] at this
    exact this.initial
  have hp3 := tablePath_initial virt
  have hp2 : [pml4Index virt, pdptIndex virt] <+: tablePath virt := ⟨[pdIndex virt], rfl⟩
  have hp1 : [pml4Index virt] <+: tablePath virt := ⟨[pdptIndex virt, pdIndex virt], rfl⟩
  have hproper : ∀ {p : Path}, p.length < 4 → p ≠ pathOf virt := by
    rintro p hp rfl
    simp [pathOf] at hp
  unfold lastTable
  dsimp only
  -- one table after the other, from the root down
  rcases ensureTable_spec (q := []) (i := pml4Index virt) (F := F) h hr rfl
      (hlower _ hp1) hp1 hF with
    ⟨m1, t1, he1, h1, x1, hr1, hb1⟩ | ⟨he1, hfull, hnone⟩
  swap
  · right
    refine ⟨by rw [he1]; rfl, m, h, Extends.refl _ _ _ _ _, hfull, _, hp1.trans hp3,
      hproper (by simp), hnone⟩
  rw [he1, ok_bind, hb1]
  rcases ensureTable_spec (q := [pml4Index virt]) (i := pdptIndex virt) (F := F) h1 hr hr1
      (hlower _ hp2) hp2 (fun g hg => hF g (x1.free g hg)) with
    ⟨m2, t2, he2, h2, x2, hr2, hb2⟩ | ⟨he2, hfull, hnone⟩
  swap
  · right
    refine ⟨by rw [he2]; rfl, m1, h1, x1.mono hp3, hfull, _, hp2.trans hp3, hproper (by simp), hnone⟩
  rw [he2, ok_bind, hb2]
  have x12 := x1.trans x2
  rcases ensureTable_spec (q := [pml4Index virt, pdptIndex virt]) (i := pdIndex virt) (F := F) h2 hr
      hr2 (hlower _ (List.prefix_refl _)) (List.prefix_refl _)
      (fun g hg => hF g (x12.free g hg)) with
    ⟨m3, t3, he3, h3, x3, hr3, hb3⟩ | ⟨he3, hfull, hnone⟩
  swap
  · right
    refine ⟨by rw [he3]; rfl, m2, h2, x12.mono hp3, hfull, _, hp3,
      hproper (by simp [tablePath]), hnone⟩
  left
  rw [he3, ok_bind, hb3]
  exact ⟨m3, t3, rfl, h3, x12.trans x3, hr3⟩

theorem mapPage_eq {f virt : Nat} (canCache canExecute : Bool) (hoff : pageOffset virt = 0) :
    mapPage m f virt canCache canExecute = (do
      let r ← lastTable m virt
      ensure ((r.1.entry ⟨r.2, ptIndex virt⟩).present = false) .hcf
      .ok (r.1.setEntry ⟨r.2, ptIndex virt⟩ { r.1.entry ⟨r.2, ptIndex virt⟩ with
        glob := false, addr := BitVec.ofNat 40 f, huge := false, pcd := !canCache, pwt := true
        user := true, readWrite := true, present := true, nx := !canExecute })) := by
  rw [mapPage, ensure_of hoff, ok_bind, lastTable]
  simp only [bind_assoc, ok_bind]

/-- **`map_page`** of a frame of the kernel at a lower-half address: the page is mapped, or
the address is bad, or the pages for the tables have run out. -/
theorem mapPage_spec {f virt : Nat} (canCache canExecute : Bool)
    (h : Accounted m live (f :: kernel)) (hk : f ∉ kernel) (hr : m.cr3 ∈ live)
    (hlow : (pml4Index virt).val < 256) (hF : ∀ g, Free m g → F g) (hFf : F f) :
    (∃ m', mapPage m f virt canCache canExecute = .ok m' ∧ pageOffset virt = 0 ∧
      reach m m.cr3 (pathOf virt) = none ∧ Accounted m' live kernel ∧
      Extends live F m.cr3 (pathOf virt) m m' ∧ reach m' m.cr3 (pathOf virt) = some f ∧
      ∃ e, entryAt m' m.cr3 (pathOf virt) = some e ∧ e.nx = !canExecute) ∨
    (mapPage m f virt canCache canExecute = .error .hcf ∧
      (pageOffset virt ≠ 0 ∨ reach m m.cr3 (pathOf virt) ≠ none)) ∨
    (mapPage m f virt canCache canExecute = .error .outOfMemory ∧
      ∃ m', Exhausted live (f :: kernel) F m.cr3 (pathOf virt) m m') := by
  by_cases hoff : pageOffset virt = 0
  swap
  · right; left
    rw [mapPage, ensure_of_not hoff]
    exact ⟨rfl, Or.inl hoff⟩
  rw [mapPage_eq canCache canExecute hoff]
  rcases lastTable_spec h hr hlow hF with ⟨m3, t3, he, h3, x3, hr3⟩ | ⟨he, hexh⟩
  swap
  · right; right
    rw [he]
    exact ⟨rfl, hexh⟩
  rw [he, ok_bind]
  dsimp only
  have hleaf : reach m3 m.cr3 (pathOf virt) = child m3 t3 (ptIndex virt) := reach_concat hr3 _
  by_cases hpres : (m3.entry ⟨t3, ptIndex virt⟩).present = false
  swap
  · right; left
    rw [ensure_of_not hpres]
    refine ⟨rfl, Or.inr fun hnone => ?_⟩
    have hsome : reach m3 m.cr3 (pathOf virt) =
        some (m3.frames t3 (ptIndex virt)).addr.toNat := by
      rw [hleaf, child_eq_some]
      exact ⟨by simpa [Machine.entry] using hpres, rfl⟩
    rcases x3.new _ _ (lower_pathOf hlow) hsome with hold | ⟨hpre, -⟩
    · rw [hnone] at hold
      simp at hold
    · have := hpre.length_le
      simp [pathOf, tablePath] at this
  left
  rw [ensure_of hpres, ok_bind]
  have hlq : Lower (tablePath virt ++ [ptIndex virt]) := lower_pathOf hlow
  have haddr := h3.addr_ofNat (h3.kernelInSlab f (by simp))
  have hunmapped : reach m m.cr3 (pathOf virt) = none := by
    rw [Option.eq_none_iff_forall_not_mem]
    intro g hg
    have := x3.kept _ g (lower_pathOf hlow) hg
    rw [hleaf, child_eq_none.mpr hpres] at this
    simp at this
  obtain ⟨h4, hself, hother⟩ := h3.attach (e := { m3.entry ⟨t3, ptIndex virt⟩ with
      glob := false, addr := BitVec.ofNat 40 f, huge := false, pcd := !canCache, pwt := true
      user := true, readWrite := true, present := true, nx := !canExecute })
    hk hr hr3 hlq hpres rfl haddr fun hlen => absurd hlen (by simp [tablePath])
  have x4 : Extends live F m.cr3 (pathOf virt) m3 _ :=
    h3.extends_attach hr hr3 hlq hpres hself hother (List.prefix_refl _) hFf
  refine ⟨_, rfl, hoff, hunmapped, h4, (x3.mono (tablePath_initial virt)).trans x4, hself, ?_⟩
  rw [tablePath_append, entryAt_concat, x4.kept _ t3 hlq.initial hr3, Option.map_some,
    setEntry_same]
  exact ⟨_, rfl, rfl⟩

/-- **`allocate_ram_page`** at a lower-half address of the current address space. -/
theorem allocateRamPage_spec {virt : Nat} (canExecute : Bool) (h : Accounted m live kernel)
    (hr : m.cr3 ∈ live) (hlow : (pml4Index virt).val < 256) :
    (∃ m' f, allocateRamPage m virt canExecute = .ok m' ∧ pageOffset virt = 0 ∧
      reach m m.cr3 (pathOf virt) = none ∧ Accounted m' live kernel ∧
      Extends live (Free m) m.cr3 (pathOf virt) m m' ∧ Free m f ∧
      reach m' m.cr3 (pathOf virt) = some f ∧
      ∃ e, entryAt m' m.cr3 (pathOf virt) = some e ∧ e.nx = !canExecute) ∨
    (allocateRamPage m virt canExecute = .error .hcf ∧
      (pageOffset virt ≠ 0 ∨ reach m m.cr3 (pathOf virt) ≠ none)) ∨
    (allocateRamPage m virt canExecute = .error .outOfMemory ∧
      ((∀ f, ¬ Free m f) ∨ ∃ f m', Free m f ∧
        Exhausted live (f :: kernel) (Free m) m.cr3 (pathOf virt) m m')) := by
  unfold allocateRamPage
  rcases malloc_spec h with ⟨f, m1, he, htaken⟩ | ⟨he, hall⟩
  swap
  · right; right
    rw [he]
    exact ⟨rfl, Or.inl hall⟩
  rw [he, ok_bind]
  have x1 := htaken.extends (Free m) m.cr3 (pathOf virt)
  have hcr3 : m1.cr3 = m.cr3 := htaken.setup.cr3
  have hspec := mapPage_spec (F := Free m) true canExecute htaken.accounted htaken.notKernel
    (hcr3 ▸ hr) hlow htaken.free htaken.fresh
  rw [hcr3, htaken.reach_eq] at hspec
  rcases hspec with ⟨m', he', hoff, hnone, h2, x2, hself, hentry⟩ | hbad | ⟨he', m', hex⟩
  · exact Or.inl ⟨m', f, he', hoff, hnone, h2, x1.trans x2, htaken.fresh, hself, hentry⟩
  · exact Or.inr (Or.inl hbad)
  · exact Or.inr (Or.inr ⟨he', Or.inr ⟨f, m', htaken.fresh, hex.accounted, x1.trans hex.ext, hex.full,
      hex.missing⟩⟩)

/-- What `generate_clean_virtual_addressing` makes: `f` is the root of an empty address space
with the kernel's upper half. -/
structure Generated (live kernel : List Nat) (m : Machine) (f : Nat) (m' : Machine) : Prop where
  setup : SameSetup m m'
  fresh : Free m f
  root : m'.frames f = m.frames m.originalKernelPageTable
  frames : ∀ g, g ≠ f → m'.frames g = m.frames g
  free : ∀ g, Free m' g → Free m g
  accounted : Accounted m' (f :: live) kernel
  others : ∀ r ∈ live, ∀ p, Lower p → reach m' r p = reach m r p
  empty : ∀ p g, Lower p → reach m' f p = some g → p = [] ∧ g = f

/-- The loop over the lower half looks at the first entry only. -/
theorem generate_eq {f : Nat} {m₁ : Machine} (he : malloc4kPhys m = .ok (f, m₁))
    (habs : ((m₁.setFrame f (m₁.frames m₁.originalKernelPageTable)).entry ⟨f, 0⟩).present = false) :
    generateCleanVirtualAddressing m =
      .ok (f, m₁.setFrame f (m₁.frames m₁.originalKernelPageTable)) := by
  have hloop : ∀ _i < 256, ((m₁.setFrame f (m₁.frames m₁.originalKernelPageTable)).entry
      ⟨f, 0⟩).present = false := fun _ _ => habs
  rw [generateCleanVirtualAddressing, he, ok_bind]
  dsimp only
  rw [ensure_of hloop, ok_bind]

/-- **`generate_clean_virtual_addressing`**: a new empty address space, or no page was left. -/
theorem generate_spec (h : Accounted m live kernel) :
    (∃ f m', generateCleanVirtualAddressing m = .ok (f, m') ∧ Generated live kernel m f m') ∨
    (generateCleanVirtualAddressing m = .error .outOfMemory ∧ ∀ f, ¬ Free m f) := by
  rcases malloc_spec h with ⟨f, m1, he, htaken⟩ | ⟨he, hall⟩
  swap
  · right
    rw [generateCleanVirtualAddressing, he]
    exact ⟨rfl, hall⟩
  left
  have h1 := htaken.accounted
  have horig := htaken.setup.original
  have hne : m1.originalKernelPageTable ≠ f := (h1.ne_original (h1.kernelInSlab f (by simp))).symm
  obtain ⟨h2, hreach⟩ := h1.setKernelFrame (f := f) (by simp) (m1.frames m1.originalKernelPageTable)
  have hlower : ∀ i : Fin 512, i.val < 256 → ((m1.setFrame f
      (m1.frames m1.originalKernelPageTable)).frames f i).present = false := by
    intro i hi
    rw [setFrame_same]
    exact h1.originalClean i hi
  obtain ⟨h3, hempty⟩ := h2.adopt htaken.notKernel hlower fun i _ => by
    rw [setFrame_same]
    exact (congrFun (setFrame_other m1 _ hne) i).symm
  refine ⟨f, _, generate_eq he (hlower 0 (by decide)),
    ⟨?_, htaken.fresh, ?_, ?_, htaken.free, h3, ?_, hempty⟩⟩
  · exact htaken.setup.trans ⟨rfl, rfl, rfl, rfl, rfl⟩
  · rw [setFrame_same, htaken.frames, horig]
  · intro g hg
    rw [setFrame_other m1 _ hg, htaken.frames]
  · intro r hr p hp
    rw [hreach r hr p hp, htaken.reach_eq]

end Stuos.Memory
