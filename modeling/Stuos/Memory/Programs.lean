import Stuos.Memory.Spaces

/-!
# Programs in memory

What `instantiate_ELF` allocates for a program, and `Drop for Process`, which removes the
address space of a process.

* `instantiate_spec`: a program is loaded into fresh frames, and nothing else changes.
* `drop_spec`: a process that is dropped gives back its frames; `CR3` is put back to what it
  was, whether or not that still is a page table.
* `allocateRamPage_few`: a page can be mapped if there are as many free pages as are missing
  on its path.
-/

namespace Stuos.Memory

open Stuos.Lib

/-! ### The user's view -/

/-- What the processor finds at an entry in user mode. -/
def userChild (m : Machine) (table : Nat) (index : Fin 512) : Option Nat :=
  if (m.frames table index).present ∧ (m.frames table index).user then
    some (m.frames table index).addr.toNat
  else none

/-- The frame at the end of a path whose entries are all user-accessible. -/
abbrev userReach (m : Machine) (r : Nat) (p : Path) : Option Nat := follow (userChild m) r p

/-- What is user-accessible in the upper half, which all address spaces share, belongs to the
kernel. -/
def UpperKernel (m : Machine) (kernel : List Nat) : Prop :=
  ∀ (i : Fin 512) (p : Path) (f : Nat), 256 ≤ i.val → p.length < 4 →
    userReach m m.originalKernelPageTable (i :: p) = some f → f ∈ kernel ∨ ¬ InSlab m f

/-! ### Programs -/

/-- What `instantiate_ELF` allocates, segment by segment, then the stack and the arguments. -/
structure Image (S : Type) where
  pages : List (Nat × Bool)
  heapStart : Nat
  initialState : S

/-- One page of `allocate_virtual_range`, which halts outside the lower half. -/
def loadPage (m : Machine) (page : Nat × Bool) : Except Halt Machine := do
  ensure (2 ^ 12 ≤ page.1 ∧ page.1 + 2 ^ 12 ≤ 0x00007FFFFFFFFFFF) .hcf
  allocateRamPage m page.1 page.2

/-- `instantiate_ELF`: the new root, and the machine with `CR3` as it was. -/
def instantiateElf {S : Type} (m : Machine) (image : Image S) : Except Halt (Nat × Machine) := do
  let prevCr3 := m.cr3
  let r ← generateCleanVirtualAddressing m
  let m ← image.pages.foldlM loadPage (r.2.setPml4Phys r.1)
  -- reset
  .ok (r.1, m.setPml4Phys prevCr3)

/-- `Drop for Process`. -/
def dropProcess (m : Machine) (pageTableRoot : Nat) : Except Halt Machine := do
  let pt := m.cr3
  let m ← removeVirtualAddressing (m.setPml4Phys pageTableRoot)
  .ok (m.setPml4Phys pt)

/-! ### What the kernel keeps -/

variable {m m' : Machine} {live kernel : List Nat}

/-- The kernel's own frames are as they were. -/
structure Untouched (kernel : List Nat) (m m' : Machine) : Prop where
  base : m'.base = m.base
  pages : m'.pages = m.pages
  original : m'.originalKernelPageTable = m.originalKernelPageTable
  frames : ∀ g, g ∈ kernel ∨ ¬ InSlab m g → m'.frames g = m.frames g

theorem Untouched.trans {m'' : Machine} (h : Untouched kernel m m') (h' : Untouched kernel m' m'') :
    Untouched kernel m m'' where
  base := h'.base.trans h.base
  pages := h'.pages.trans h.pages
  original := h'.original.trans h.original
  frames g hg := by
    have hg' : g ∈ kernel ∨ ¬ InSlab m' g := by
      rw [InSlab, h.base, h.pages]
      exact hg
    rw [h'.frames g hg', h.frames g hg]

theorem Untouched.setPml4Phys (kernel : List Nat) (m : Machine) (r : Nat) :
    Untouched kernel m (m.setPml4Phys r) :=
  ⟨rfl, rfl, rfl, fun _ _ => rfl⟩

theorem Untouched.of_fresh (hm : Accounted m live kernel) (hbase : m'.base = m.base)
    (hpages : m'.pages = m.pages)
    (horig : m'.originalKernelPageTable = m.originalKernelPageTable)
    (hframes : ∀ g, ¬ Free m g → (∀ r ∈ live, ¬ Owned m r g) → m'.frames g = m.frames g) :
    Untouched kernel m m' := by
  refine ⟨hbase, hpages, horig, fun g hg => hframes g ?_ ?_⟩
  · intro hfree
    rcases hg with hk | hslab
    · exact (hm.not_reached hfree).1 hk
    · exact hslab hfree.1
  · rintro r hr ⟨p, hp, hreach⟩
    rcases hg with hk | hslab
    · exact hm.kernelApart g hk r hr p hp hreach
    · exact hslab (hm.owned r hr p g hp hreach)

theorem Extends.untouched {r : Nat} {idx : Path} (hm : Accounted m live kernel) (hr : r ∈ live)
    (x : Extends live (Free m) r idx m m') : Untouched kernel m m' :=
  .of_fresh hm x.setup.base x.setup.pages x.setup.original fun g hfree hown =>
    x.frames g hfree fun p hp hreach => hown r hr ⟨p, hp, hreach⟩

theorem Cloned.untouched {root new : Nat} {done : List (Path × Nat)} (hm : Accounted m live kernel)
    (h : Cloned live kernel m root new done m') : Untouched kernel m m' :=
  .of_fresh hm h.base h.pages h.original fun g hfree _ => h.frames g hfree

/-- **The upper half stays the kernel's** as long as its frames are not touched. -/
theorem UpperKernel.untouched (h : UpperKernel m kernel)
    (horig : ¬ InSlab m m.originalKernelPageTable) (hu : Untouched kernel m m') :
    UpperKernel m' kernel := by
  intro i p f hi hlen hf
  rw [InSlab, hu.base, hu.pages]
  refine h i p f hi hlen ?_
  rw [← hf, hu.original]
  symm
  refine follow_congr fun q j s hqs t ht => ?_
  have ht' : t ∈ kernel ∨ ¬ InSlab m t := by
    cases q with
    | nil =>
      obtain rfl := Option.some.inj ht
      exact Or.inr horig
    | cons k q =>
      rw [List.cons_append, List.cons.injEq] at hqs
      obtain ⟨rfl, rfl⟩ := hqs
      refine h i q t hi ?_ ht
      rw [List.length_append, List.length_cons] at hlen
      omega
  rw [userChild, userChild, hu.frames t ht']

theorem reach_of_userReach {r f : Nat} {p : Path} (h : userReach m r p = some f) :
    reach m r p = some f := by
  induction p generalizing r with
  | nil => exact h
  | cons i p ih =>
    rw [userReach, follow_cons, Option.bind_eq_some_iff] at h
    obtain ⟨c, hc, hf⟩ := h
    have hchild : child m r i = some c := by
      unfold userChild at hc
      split at hc
      · rename_i hp
        rw [child_eq_some]
        exact ⟨hp.1, Option.some.inj hc⟩
      · simp at hc
    rw [reach, follow_cons, hchild]
    exact ih hf

/-! ### How many pages are needed -/

/-- The frames that are missing on a path. -/
def missing (m : Machine) (r : Nat) (idx : Path) : List Path :=
  idx.inits.filter fun p => reach m r p = none

/-- **A page can be mapped** if there are as many free pages as are missing on its path. -/
theorem allocateRamPage_few {virt : Nat} {canExecute : Bool} (h : Accounted m live kernel)
    (hr : m.cr3 ∈ live) (hlow : (pml4Index virt).val < 256)
    (hunmapped : reach m m.cr3 (pathOf virt) = none)
    (he : allocateRamPage m virt canExecute = .error .outOfMemory) :
    (freePages m).length < (missing m m.cr3 (pathOf virt)).length := by
  have hmem : ∀ {p}, p <+: pathOf virt → reach m m.cr3 p = none →
      p ∈ missing m m.cr3 (pathOf virt) := fun hpre hnone =>
    List.mem_filter.mpr ⟨(List.mem_inits _ _).mpr hpre, by simpa using hnone⟩
  have hself := hmem (List.prefix_refl _) hunmapped
  rcases allocateRamPage_spec canExecute h hr hlow with ⟨m', f, he', -⟩ | ⟨he', -⟩ | ⟨-, hbad⟩
  · simp [he'] at he
  · simp [he'] at he
  rcases hbad with hfull | ⟨f, m', hf, hex⟩
  · have hnil : freePages m = [] :=
      List.eq_nil_iff_forall_not_mem.mpr fun g hg => hfull g (mem_freePages.mp hg)
    rw [hnil]
    exact List.length_pos_of_mem hself
  · obtain ⟨p₀, hpre, hne, hmissing⟩ := hex.missing
    have hlower : ∀ {p}, p <+: pathOf virt → Lower p := by
      rintro p ⟨t, ht⟩
      have := lower_pathOf hlow
      rw [← ht] at this
      exact this.initial
    refine freePages_length_lt (hmem hpre (hex.ext.reach_eq_none (hlower hpre) hmissing))
      (fun q => if q = pathOf virt then f else (reach m' m.cr3 q).getD 0) fun g hg => ?_
    have hfresh := h.not_reached hg
    rcases h.taken hex.accounted hex.ext.setup.base hex.ext.setup.pages
        (fun r hr hne => ⟨hr, hex.ext.others r hr hne⟩) hg (hex.full g) with
      ⟨q, hq, hreach⟩ | hk
    · have hqne : q ≠ pathOf virt := by
        rintro rfl
        cases hreach.symm.trans hex.reach_eq_none
      rcases hex.ext.new q g hq hreach with hold | ⟨hqpre, -⟩
      · exact absurd hold (hfresh.2 _ hr q hq)
      · have hqnone : reach m m.cr3 q = none := by
          rw [Option.eq_none_iff_forall_not_mem]
          intro g' hg'
          have := Option.some.inj ((hex.ext.kept q g' hq hg').symm.trans hreach)
          exact hfresh.2 _ hr q hq (this ▸ hg')
        refine ⟨q, hmem hqpre hqnone, ?_, by rw [if_neg hqne, hreach]; rfl⟩
        rintro rfl
        cases hreach.symm.trans hmissing
    · rcases List.mem_cons.mp hk with rfl | hk
      · exact ⟨pathOf virt, hself, hne.symm, if_pos rfl⟩
      · exact absurd hk hfresh.1

/-! ### Loading -/

/-- A program is being loaded into the address space `root`; its pages `done` are there. -/
structure Loading (live kernel : List Nat) (m : Machine) (root : Nat) (done : List (Nat × Bool))
    (m' : Machine) : Prop where
  base : m'.base = m.base
  pages : m'.pages = m.pages
  original : m'.originalKernelPageTable = m.originalKernelPageTable
  cr3 : m'.cr3 = root
  accounted : Accounted m' (root :: live) kernel
  others : ∀ r ∈ live, ∀ p, Lower p → reach m' r p = reach m r p
  frames : ∀ g, ¬ Free m g → m'.frames g = m.frames g
  free : ∀ g, Free m' g → Free m g
  sub : ∀ p g, Lower p → reach m' root p = some g →
    Free m g ∧ (p = [] ∨ ∃ page ∈ done, p <+: pathOf page.1)

theorem Generated.loading {root : Nat} {m₁ : Machine} (h : Generated live kernel m root m₁) :
    Loading live kernel m root [] (m₁.setPml4Phys root) where
  base := h.setup.base
  pages := h.setup.pages
  original := h.setup.original
  cr3 := rfl
  accounted := h.accounted.setPml4Phys root
  others := h.others
  frames g hg := h.frames g fun he => hg (he ▸ h.fresh)
  free := h.free
  sub p g hp hg := by
    obtain ⟨rfl, rfl⟩ := h.empty p g hp hg
    exact ⟨h.fresh, Or.inl rfl⟩

theorem pml4Index_lt_of_lower {virt : Nat} (h : virt + 2 ^ 12 ≤ 0x00007FFFFFFFFFFF) :
    (pml4Index virt).val < 256 :=
  pml4Index_lt (by omega)

theorem Loading.extend {root : Nat} {done : List (Nat × Bool)} {page : Nat × Bool} {m'' : Machine}
    (h : Loading live kernel m root done m')
    (hacc : Accounted m'' (root :: live) kernel)
    (x : Extends (root :: live) (Free m') root (pathOf page.1) m' m'') :
    Loading live kernel m root (done ++ [page]) m'' := by
  refine ⟨x.setup.base.trans h.base, x.setup.pages.trans h.pages,
    x.setup.original.trans h.original, x.setup.cr3.trans h.cr3, hacc, ?_, ?_, ?_, ?_⟩
  · intro r hr q hq
    have hne : r ≠ root := fun he => (List.nodup_cons.mp h.accounted.nodup).1 (he ▸ hr)
    rw [x.others r (by simp [hr]) hne q hq, h.others r hr q hq]
  · intro g hg
    rw [x.frames g (mt (h.free g) hg) fun q hq he => hg (h.sub q g hq he).1, h.frames g hg]
  · exact fun g hg => h.free g (x.free g hg)
  · intro q g hq hg
    rcases x.new q g hq hg with hold | ⟨hpre, hfree⟩
    · obtain ⟨hf, hnil | ⟨w, hw, hrest⟩⟩ := h.sub q g hq hold
      · exact ⟨hf, Or.inl hnil⟩
      · exact ⟨hf, Or.inr ⟨w, by simp [hw], hrest⟩⟩
    · exact ⟨h.free g hfree, Or.inr ⟨page, by simp, hpre⟩⟩

theorem Loading.loadPage {root : Nat} {done : List (Nat × Bool)} {page : Nat × Bool} {m'' : Machine}
    (h : Loading live kernel m root done m') (he : loadPage m' page = .ok m'') :
    Loading live kernel m root (done ++ [page]) m'' := by
  simp only [Memory.loadPage, bind_eq_ok, ensure_eq_ok] at he
  obtain ⟨_, ⟨-, hhigh⟩, he⟩ := he
  have hspec := allocateRamPage_spec page.2 h.accounted (by simp [h.cr3])
    (pml4Index_lt_of_lower hhigh)
  rcases hspec with ⟨m₁, f, he', -, -, hacc, x, -⟩ | ⟨he', -⟩ | ⟨he', -⟩
  · obtain rfl := Except.ok.inj (he.symm.trans he')
    rw [h.cr3] at x
    exact h.extend hacc x
  · simp [he'] at he
  · simp [he'] at he

/-- **A loaded program**: a new address space in fresh frames, and nothing else has changed. -/
structure Loaded (live kernel : List Nat) (m : Machine) (root : Nat) (m' : Machine) : Prop where
  base : m'.base = m.base
  pages : m'.pages = m.pages
  original : m'.originalKernelPageTable = m.originalKernelPageTable
  cr3 : m'.cr3 = m.cr3
  fresh : Free m root
  accounted : Accounted m' (root :: live) kernel
  others : ∀ r ∈ live, ∀ p, Lower p → reach m' r p = reach m r p
  frames : ∀ g, ¬ Free m g → m'.frames g = m.frames g

theorem Loading.loaded {root : Nat} {done : List (Nat × Bool)} (hroot : Free m root)
    (h : Loading live kernel m root done m') :
    Loaded live kernel m root (m'.setPml4Phys m.cr3) where
  base := h.base
  pages := h.pages
  original := h.original
  cr3 := rfl
  fresh := hroot
  accounted := h.accounted.setPml4Phys m.cr3
  others := h.others
  frames := h.frames

theorem Loaded.untouched {root : Nat} (h : Loaded live kernel m root m')
    (hm : Accounted m live kernel) : Untouched kernel m m' :=
  .of_fresh hm h.base h.pages h.original fun g hfree _ => h.frames g hfree

/-- **`instantiate_ELF`.** -/
theorem instantiate_spec {S : Type} {image : Image S} {root : Nat} (h : Accounted m live kernel)
    (he : instantiateElf m image = .ok (root, m')) : Loaded live kernel m root m' := by
  simp only [instantiateElf, bind_eq_ok, Except.ok.injEq] at he
  obtain ⟨⟨f, m₁⟩, hg, m₂, hfold, he⟩ := he
  obtain ⟨rfl, rfl⟩ := Prod.mk.inj he
  rcases generate_spec h with ⟨f', m₁', hg', hgen⟩ | ⟨hg', -⟩
  swap
  · simp [hg'] at hg
  obtain ⟨rfl, rfl⟩ := Prod.mk.inj (Except.ok.inj (hg.symm.trans hg'))
  obtain ⟨done, hdone⟩ : ∃ done, Loading live kernel m f done m₂ := by
    refine foldlM_invariant (P := fun m₂ => ∃ done, Loading live kernel m f done m₂) ?_
      ⟨[], hgen.loading⟩ hfold
    rintro page - m₂ m₃ ⟨done, hd⟩ hl
    exact ⟨_, hd.loadPage hl⟩
  exact hdone.loaded hgen.fresh

/-! ### Dropping -/

/-- **A dropped process**: its frames are given back, and `CR3` is what it was. -/
structure Dropped (live kernel : List Nat) (m : Machine) (root : Nat) (m' : Machine) : Prop where
  accounted : Accounted m' (live.erase root) kernel
  cr3 : m'.cr3 = m.cr3
  untouched : Untouched kernel m m'
  freed : m'.slabFlags (root - m.base) = false
  others : ∀ r ∈ live, r ≠ root → ∀ p, Lower p → reach m' r p = reach m r p

/-- **`Drop for Process`** always returns. -/
theorem drop_spec {root : Nat} (h : Accounted m live kernel) (hr : root ∈ live) :
    ∃ m', dropProcess m root = .ok m' ∧ Dropped live kernel m root m' := by
  obtain ⟨m₁, he, hacc, -, horig, hbase, hpages, -, hframes, hothers⟩ :=
    remove_spec (h.setPml4Phys root) hr
  have hroot : InSlab m root := h.rootInSlab hr
  refine ⟨m₁.setPml4Phys m.cr3, ?_, hacc.setPml4Phys m.cr3, rfl, ⟨hbase, hpages, horig, ?_⟩, ?_,
    hothers⟩
  · rw [dropProcess, he]
    rfl
  · rintro g hg
    refine hframes g ?_
    rintro ⟨p, hp, hreach⟩
    rcases hg with hk | hslab
    · exact h.kernelApart g hk root hr p hp hreach
    · exact hslab (h.owned root hr p g hp hreach)
  · -- the root itself is not in use any more
    rw [Bool.eq_false_iff]
    intro hflag
    have hbase' : m₁.base = m.base := hbase
    have hslab : InSlab m₁ root := by
      rw [InSlab, hbase', (hpages : m₁.pages = m.pages)]
      exact hroot
    have hflag' : m₁.slabFlags (root - m₁.base) = true := by
      rw [hbase']
      exact hflag
    rcases (hacc.used root hslab).mp hflag' with ⟨r, hrl, p, hp, hreach⟩ | hk
    · have hne : r ≠ root := fun he => absurd (he ▸ hrl) h.nodup.not_mem_erase
      rw [hothers r (List.mem_of_mem_erase hrl) hne p hp] at hreach
      have hsep := h.separate r p root [] root ⟨List.mem_of_mem_erase hrl, hp⟩ ⟨hr, lower_nil⟩
        hreach rfl
      exact hne hsep.1
    · exact h.kernelApart root hk root hr [] lower_nil rfl

end Stuos.Memory
