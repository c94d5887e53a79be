import Stuos.Memory.Programs

/-!
# Enough memory

The operations that allocate can only run out of pages, so they return if there are enough
free pages.  No address space needs more than five frames for each of its pages.

* `allocateRamPage_ok`: five free pages are enough to map a page.
* `instantiate_ok`: five free pages for each page of the program, and one for the root, are
  enough to load it.
-/

namespace Stuos.Memory

open Stuos.Lib

variable {m m' : Machine} {live live' kernel : List Nat} {root : Nat}

theorem Accounted.freePages_le {l : List Nat} (hm : Accounted m live kernel)
    (hm' : Accounted m' live' kernel) (hbase : m'.base = m.base) (hpages : m'.pages = m.pages)
    (hnew : ∀ r ∈ live', ∀ p g, Lower p → reach m' r p = some g →
      (∃ r ∈ live, Owned m r g) ∨ g ∈ l) :
    (freePages m).length ≤ (freePages m').length + l.length := by
  have hsub : freePages m ⊆ freePages m' ++ l := by
    intro g hg
    have hfree := mem_freePages.mp hg
    have hslab : InSlab m' g := by
      rw [InSlab, hbase, hpages]
      exact hfree.1
    have hun := hm.not_reached hfree
    rw [List.mem_append]
    by_cases hflag : m'.slabFlags (g - m'.base) = true
    · right
      rcases (hm'.used g hslab).mp hflag with ⟨r, hr, p, hp, hreach⟩ | hk
      · rcases hnew r hr p g hp hreach with ⟨r', hr', p', hp', hreach'⟩ | hl
        · exact absurd hreach' (hun.2 r' hr' p' hp')
        · exact hl
      · exact absurd hk hun.1
    · exact Or.inl (mem_freePages.mpr ⟨hslab, by simpa using hflag⟩)
  have hlen := (List.subperm_of_subset (freePages_nodup m) hsub).length_le
  rwa [List.length_append] at hlen

theorem Extends.freePages_le {idx : Path} (hm : Accounted m live kernel)
    (hm' : Accounted m' live kernel) (hr : root ∈ live) {F : Nat → Prop}
    (x : Extends live F root idx m m') :
    (freePages m).length ≤ (freePages m').length + (idx.length + 1) := by
  have hlen : idx.length + 1 = (idx.inits.map fun p => (reach m' root p).getD 0).length := by
    rw [List.length_map, List.length_inits]
  rw [hlen]
  refine hm.freePages_le hm' x.setup.base x.setup.pages fun r hr' p g hp hreach => ?_
  by_cases he : r = root
  · subst he
    rcases x.new p g hp hreach with hold | ⟨hpre, -⟩
    · exact Or.inl ⟨r, hr, p, hp, hold⟩
    · refine Or.inr (List.mem_map.mpr ⟨p, (List.mem_inits _ _).mpr hpre, ?_⟩)
      rw [hreach, Option.getD_some]
  · rw [x.others r hr' he p hp] at hreach
    exact Or.inl ⟨r, hr', p, hp, hreach⟩

/-- **Five free pages are enough** to map a page that is aligned and not mapped yet. -/
theorem allocateRamPage_ok {virt : Nat} (canExecute : Bool) (h : Accounted m live kernel)
    (hr : m.cr3 ∈ live) (hlow : (pml4Index virt).val < 256) (halign : pageOffset virt = 0)
    (hunmapped : reach m m.cr3 (pathOf virt) = none) (hfree : 5 ≤ (freePages m).length) :
    ∃ m' f, allocateRamPage m virt canExecute = .ok m' ∧ Accounted m' live kernel ∧
      Extends live (Free m) m.cr3 (pathOf virt) m m' ∧ reach m' m.cr3 (pathOf virt) = some f ∧
      (freePages m).length ≤ (freePages m').length + 5 := by
  rcases allocateRamPage_spec canExecute h hr hlow with
    ⟨m', f, he, -, -, hacc, x, -, hreach, -⟩ | ⟨he, hbad⟩ | ⟨he, -⟩
  · exact ⟨m', f, he, hacc, x, hreach, x.freePages_le h hacc hr⟩
  · rcases hbad with hbad | hbad
    · exact absurd halign hbad
    · exact absurd hunmapped hbad
  · have hfew := allocateRamPage_few h hr hlow hunmapped he
    have hle : (missing m m.cr3 (pathOf virt)).length ≤ 5 := List.length_filter_le _ _
    omega

theorem ensureTable_present {t u : Nat} {i : Fin 512} (h : child m t i = some u) :
    ensureTable m ⟨t, i⟩ = .ok m ∧ tableBase m ⟨t, i⟩ = u := by
  obtain ⟨hp, ha⟩ := child_eq_some.mp h
  exact ⟨if_pos hp, ha⟩

/-- **A page under tables that exist already**, in either half: only the entry of the page is
written. -/
theorem allocateRamPage_entry (virt : Nat) {t₁ t₂ t₃ : Nat} (canExecute : Bool)
    (h : Accounted m live kernel) (hfree : 0 < (freePages m).length) (halign : pageOffset virt = 0)
    (h₁ : child m m.cr3 (pml4Index virt) = some t₁) (h₂ : child m t₁ (pdptIndex virt) = some t₂)
    (h₃ : child m t₂ (pdIndex virt) = some t₃)
    (habs : (m.frames t₃ (ptIndex virt)).present = false) :
    ∃ f e m', Free m f ∧ allocateRamPage m virt canExecute = .ok m' ∧ m'.cr3 = m.cr3 ∧
      m'.frames = (m.setEntry ⟨t₃, ptIndex virt⟩ e).frames ∧ e.present = true ∧ e.user = true ∧
      e.addr.toNat = f := by
  rcases malloc_spec h with ⟨f, m₁, he, ht⟩ | ⟨-, hfull⟩
  swap
  · obtain ⟨g, hg⟩ := List.exists_mem_of_length_pos hfree
    exact absurd (mem_freePages.mp hg) (hfull g)
  have hchild : ∀ t i, child m₁ t i = child m t i := fun t i =>
    child_congr (congrFun (congrFun ht.frames t) i)
  have hcr3 : m₁.cr3 = m.cr3 := ht.setup.cr3
  rw [← hchild, ← hcr3] at h₁
  rw [← hchild] at h₂ h₃
  have habs₁ : (m₁.entry ⟨t₃, ptIndex virt⟩).present = false := by
    rw [Machine.entry, ht.frames]
    exact habs
  have haddr := ht.accounted.addr_ofNat (ht.accounted.kernelInSlab f (by simp))
  obtain ⟨he₁, hb₁⟩ := ensureTable_present h₁
  obtain ⟨he₂, hb₂⟩ := ensureTable_present h₂
  obtain ⟨he₃, hb₃⟩ := ensureTable_present h₃
  have hmap : ∃ e, allocateRamPage m virt canExecute =
      .ok (m₁.setEntry ⟨t₃, ptIndex virt⟩ e) ∧ e.present = true ∧ e.user = true ∧
        e.addr = BitVec.ofNat 40 f := by
    rw [allocateRamPage, he, ok_bind, mapPage, ensure_of halign, ok_bind]
    dsimp only
    rw [he₁, ok_bind, hb₁, he₂, ok_bind, hb₂, he₃, ok_bind, hb₃, ensure_of habs₁, ok_bind]
    exact ⟨_, rfl, rfl, rfl, rfl⟩
  obtain ⟨e, hmap, hpres, huser, ha⟩ := hmap
  refine ⟨f, e, _, ht.fresh, hmap, hcr3, ?_, hpres, huser, by rw [ha, haddr]⟩
  rw [Machine.setEntry, Machine.setEntry, Machine.setFrame, Machine.setFrame, ht.frames]

/-! ### Loading -/

/-- What `instantiate_ELF` accepts: pages of the lower half, aligned, none of them twice. -/
structure Image.Good {S : Type} (image : Image S) : Prop where
  range : ∀ page ∈ image.pages, 2 ^ 12 ≤ page.1 ∧ page.1 + 2 ^ 12 ≤ 0x00007FFFFFFFFFFF
  aligned : ∀ page ∈ image.pages, pageOffset page.1 = 0
  nodup : (image.pages.map fun page => pathOf page.1).Nodup

theorem Loading.unmapped {done : List (Nat × Bool)} {virt : Nat}
    (h : Loading live kernel m root done m') (hlow : (pml4Index virt).val < 256)
    (hnew : pathOf virt ∉ done.map fun page => pathOf page.1) :
    reach m' root (pathOf virt) = none := by
  rw [Option.eq_none_iff_forall_not_mem]
  intro g hg
  obtain ⟨-, hnil | ⟨page, hpage, hpre⟩⟩ := h.sub _ g (lower_pathOf hlow) hg
  · simp [pathOf] at hnil
  · have heq := hpre.eq_of_length rfl
    exact hnew (List.mem_map.mpr ⟨page, hpage, heq.symm⟩)

theorem Loading.foldlM_ok {done rest : List (Nat × Bool)} (h : Loading live kernel m root done m')
    (hrange : ∀ page ∈ rest, 2 ^ 12 ≤ page.1 ∧ page.1 + 2 ^ 12 ≤ 0x00007FFFFFFFFFFF)
    (haligned : ∀ page ∈ rest, pageOffset page.1 = 0)
    (hnodup : ((done ++ rest).map fun page => pathOf page.1).Nodup)
    (hfree : 5 * rest.length ≤ (freePages m').length) :
    ∃ m'', rest.foldlM Memory.loadPage m' = .ok m'' ∧
      Loading live kernel m root (done ++ rest) m'' ∧
      (freePages m').length ≤ (freePages m'').length + 5 * rest.length := by
  induction rest generalizing done m' with
  | nil => exact ⟨m', rfl, by simpa using h, by simp⟩
  | cons page rest ih =>
    rw [List.length_cons] at hfree
    have hr := hrange page (by simp)
    have hlow := pml4Index_lt_of_lower hr.2
    have hnew : pathOf page.1 ∉ done.map fun page => pathOf page.1 := by
      rw [List.map_append, List.map_cons, List.nodup_append] at hnodup
      intro hmem
      exact hnodup.2.2 _ hmem _ (by simp) rfl
    have hun := h.unmapped hlow hnew
    obtain ⟨m₁, f, he, hacc, x, -, hle⟩ := allocateRamPage_ok page.2 h.accounted
      (by simp [h.cr3]) hlow (haligned page (by simp)) (by rw [h.cr3]; exact hun) (by omega)
    have hload : Memory.loadPage m' page = .ok m₁ := by
      rw [Memory.loadPage, ensure_of hr, ok_bind, he]
    obtain ⟨m₂, he₂, h₂, hle₂⟩ := ih (h.loadPage hload) (fun p hp => hrange p (by simp [hp]))
      (fun p hp => haligned p (by simp [hp])) (by simpa using hnodup) (by omega)
    refine ⟨m₂, ?_, by simpa using h₂, ?_⟩
    · rw [List.foldlM_cons, hload, ok_bind, he₂]
    · rw [List.length_cons]
      omega

theorem Generated.freePages_le {m₁ : Machine} (hm : Accounted m live kernel)
    (h : Generated live kernel m root m₁) :
    (freePages m).length ≤ (freePages m₁).length + 1 := by
  refine hm.freePages_le (l := [root]) h.accounted h.setup.base h.setup.pages
    fun r hr p g hp hreach => ?_
  rcases List.mem_cons.mp hr with rfl | hr
  · exact Or.inr (by simp [(h.empty p g hp hreach).2])
  · rw [h.others r hr p hp] at hreach
    exact Or.inl ⟨r, hr, p, hp, hreach⟩

theorem Loading.frameList_le {done : List (Nat × Bool)} (h : Loading live kernel m root done m') :
    (frameList m' root).length ≤ 1 + 5 * done.length := by
  have hsub : (frameList m' root).map Prod.fst ⊆
      [] :: done.flatMap fun page => (pathOf page.1).inits := by
    intro p hp
    obtain ⟨⟨p, g⟩, hv, rfl⟩ := List.mem_map.mp hp
    obtain ⟨hlow, hreach⟩ := mem_frameList.mp hv
    rw [List.mem_cons, List.mem_flatMap]
    rcases (h.sub p g hlow hreach).2 with hnil | ⟨page, hpage, hpre⟩
    · exact Or.inl hnil
    · exact Or.inr ⟨page, hpage, (List.mem_inits _ _).mpr hpre⟩
  have hlen := (List.subperm_of_subset (frameList_nodup m' root) hsub).length_le
  have hsum : (done.map fun page => (pathOf page.1).inits.length).sum = 5 * done.length := by
    have hconst : (fun page : Nat × Bool => (pathOf page.1).inits.length) = fun _ => 5 := by
      funext page
      rw [List.length_inits, pathOf]
      rfl
    rw [hconst, List.map_const', List.sum_replicate_nat, Nat.mul_comm]
  rw [List.length_map, List.length_cons, List.length_flatMap, hsum] at hlen
  omega

/-- **A program is loaded** if there are enough free pages. -/
theorem instantiate_ok {S : Type} {image : Image S} (h : Accounted m live kernel)
    (hgood : image.Good) (hfree : 5 * image.pages.length < (freePages m).length) :
    ∃ root m', instantiateElf m image = .ok (root, m') ∧ Loaded live kernel m root m' ∧
      (frameList m' root).length ≤ 1 + 5 * image.pages.length ∧
      (freePages m).length ≤ (freePages m').length + (1 + 5 * image.pages.length) ∧
      ∀ virt, (pml4Index virt).val < 256 →
        (pathOf virt ∉ image.pages.map fun page => pathOf page.1) →
        reach m' root (pathOf virt) = none := by
  rcases generate_spec h with ⟨root, m₁, he, hgen⟩ | ⟨-, hfull⟩
  swap
  · obtain ⟨g, hg⟩ := List.exists_mem_of_length_pos (Nat.lt_of_le_of_lt (Nat.zero_le _) hfree)
    exact absurd (mem_freePages.mp hg) (hfull g)
  have hle := hgen.freePages_le h
  have hset : freePages (m₁.setPml4Phys root) = freePages m₁ := rfl
  obtain ⟨m₂, he₂, hload, hle₂⟩ := hgen.loading.foldlM_ok hgood.range hgood.aligned
    (by simpa using hgood.nodup) (by rw [hset]; omega)
  rw [List.nil_append] at hload
  rw [hset] at hle₂
  refine ⟨root, m₂.setPml4Phys m.cr3, ?_, hload.loaded hgen.fresh, hload.frameList_le, ?_,
    fun virt hlow hnew => hload.unmapped hlow hnew⟩
  · rw [instantiateElf, he, ok_bind, he₂, ok_bind]
  · have hset₂ : freePages (m₂.setPml4Phys m.cr3) = freePages m₂ := rfl
    rw [hset₂]
    omega

theorem Cloned.freePages_le {new : Nat} (hm : Accounted m live kernel)
    (h : Cloned live kernel m root new (frameList m root) m') :
    (freePages m).length ≤ (freePages m').length + (frameList m root).length := by
  have hlen : (frameList m root).length =
      (((frameList m root).map Prod.fst).map fun p => (reach m' new p).getD 0).length := by
    rw [List.length_map, List.length_map]
  rw [hlen]
  refine hm.freePages_le h.accounted h.base h.pages fun r hr p g hp hreach => ?_
  rcases List.mem_cons.mp hr with rfl | hr
  · refine Or.inr (List.mem_map.mpr ⟨p, ?_, by rw [hreach, Option.getD_some]⟩)
    rcases (h.sub p g hp hreach).2 with rfl | ⟨v, hv, -, hpre⟩
    · exact List.mem_map.mpr ⟨([], root), mem_frameList.mpr ⟨lower_nil, rfl⟩, rfl⟩
    · exact mem_paths_of_initial hv hpre
  · rw [h.others r hr p hp] at hreach
    exact Or.inl ⟨r, hr, p, hp, hreach⟩

end Stuos.Memory
