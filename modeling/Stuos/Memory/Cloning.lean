import Mathlib.Data.List.Infix
import Stuos.Memory.Removing

/-!
# Cloning an address space

`clone_virtual_addressing` walks the old tree while its callback builds the new one through
`CR3`.  `Cloned live kernel m root new done m'` is what holds after the frames `done`.

* `clone_copies`: the clone maps the same pages with the same contents, and nothing of the
  original changes; the only other outcome is that there were fewer free pages than the
  address space has frames.
-/

namespace Stuos.Memory

open Stuos.Lib

variable {m m' : Machine} {live kernel : List Nat} {root new : Nat}

/-! ### Free pages -/

def freePages (m : Machine) : List Nat :=
  ((List.range m.pages).filter fun pageNum => !m.slabFlags pageNum).map (m.base + ·)

theorem mem_freePages {f : Nat} : f ∈ freePages m ↔ Free m f := by
  simp only [freePages, List.mem_map, List.mem_filter, List.mem_range, Free, InSlab,
    Bool.not_eq_true']
  constructor
  · rintro ⟨n, ⟨hn, hfree⟩, rfl⟩
    exact ⟨⟨by omega, by omega⟩, by simpa using hfree⟩
  · rintro ⟨⟨hb, hp⟩, hfree⟩
    exact ⟨f - m.base, ⟨by omega, hfree⟩, by omega⟩

theorem freePages_nodup (m : Machine) : (freePages m).Nodup :=
  List.Nodup.map (fun _ _ h => Nat.add_left_cancel h) (List.nodup_range.filter _)

/-- If every free page has a place on a path, but one path has none, then there are fewer
free pages than paths. -/
theorem freePages_length_lt {paths : List Path} {p₀ : Path} (hp : p₀ ∈ paths) (φ : Path → Nat)
    (h : ∀ g, Free m g → ∃ q ∈ paths, q ≠ p₀ ∧ φ q = g) : (freePages m).length < paths.length := by
  have hsub : freePages m ⊆ (paths.erase p₀).map φ := by
    intro g hg
    obtain ⟨q, hq, hne, rfl⟩ := h g (mem_freePages.mp hg)
    exact List.mem_map.mpr ⟨q, (List.mem_erase_of_ne hne).mpr hq, rfl⟩
  have hlen := (List.subperm_of_subset (freePages_nodup m) hsub).length_le
  have hpos := List.length_pos_of_mem hp
  rw [List.length_map, List.length_erase_of_mem hp] at hlen
  omega

/-! ### The callback -/

theorem Accounted.setPml4Phys (h : Accounted m live kernel) (r : Nat) :
    Accounted (m.setPml4Phys r) live kernel := by
  have hc : Accounted (m.setPml4Phys r) live kernel ∧
      ∀ r' ∈ live, ∀ p, Lower p → reach (m.setPml4Phys r) r' p = reach m r' p :=
    h.congr rfl rfl rfl rfl (fun _ _ _ _ _ _ _ => rfl) rfl
  exact hc.1

theorem copyPageTo_eq {virt f : Nat} (h : reach m m.cr3 (pathOf virt) = some f) (phys : Nat) :
    copyPageTo m virt phys = .ok (m.setFrame f (m.frames phys)) := by
  simp only [reach, pathOf, follow_cons, follow_nil, Option.bind_eq_some_iff] at h
  obtain ⟨pdpt, h1, pd, h2, pt, h3, frame, h4, h5⟩ := h
  obtain rfl := Option.some.inj h5
  rw [copyPageTo, h1, orHalt_some, ok_bind, h2, orHalt_some, ok_bind, h3, orHalt_some, ok_bind, h4,
    orHalt_some, ok_bind]

theorem Accounted.setPage (h : Accounted m live kernel) {r f : Nat} {p : Path} (hr : r ∈ live)
    (hp : Lower p) (hlen : p.length = 4) (hf : reach m r p = some f) (content : Frame) :
    Accounted (m.setFrame f content) live kernel ∧
      ∀ r ∈ live, ∀ p, Lower p → reach (m.setFrame f content) r p = reach m r p := by
  refine h.congr rfl rfl rfl rfl ?_ ?_
  · intro r' hr' q t hq hlt ht
    refine setFrame_other m content ?_
    rintro rfl
    obtain ⟨-, rfl⟩ := h.separate r' q r p t ⟨hr', hq⟩ ⟨hr, hp⟩ ht hf
    omega
  · exact setFrame_other m content (h.ne_original (h.owned r hr p f hp hf)).symm

theorem Accounted.entryAt_setPage (h : Accounted m live kernel) {r f : Nat} {p : Path}
    (hr : r ∈ live) (hp : Lower p) (hlen : p.length = 4) (hf : reach m r p = some f)
    (content : Frame) {r' : Nat} {p' : Path} (hr' : r' ∈ live) (hp' : Lower p') :
    entryAt (m.setFrame f content) r' p' = entryAt m r' p' := by
  obtain ⟨-, hreach⟩ := h.setPage hr hp hlen hf content
  rcases List.eq_nil_or_concat' p' with rfl | ⟨q, i, rfl⟩
  · rfl
  · rw [entryAt_concat, entryAt_concat, hreach r' hr' q hp'.initial]
    cases ht : reach m r' q with
    | none => rfl
    | some t =>
      have hne : t ≠ f := by
        rintro rfl
        obtain ⟨-, rfl⟩ := h.separate r' q r p t ⟨hr', hp'.initial⟩ ⟨hr, hp⟩ ht hf
        have := hp'.1
        rw [List.length_append, List.length_singleton] at this
        omega
      rw [Option.map_some, Option.map_some, setFrame_other m content hne]

/-- **What holds after the frames `done`** of `root` have been visited. -/
structure Cloned (live kernel : List Nat) (m : Machine) (root new : Nat)
    (done : List (Path × Nat)) (m' : Machine) : Prop where
  base : m'.base = m.base
  pages : m'.pages = m.pages
  original : m'.originalKernelPageTable = m.originalKernelPageTable
  freeLog : m'.freeLog = m.freeLog
  cr3 : m'.cr3 = new
  accounted : Accounted m' (new :: live) kernel
  others : ∀ r ∈ live, ∀ p, Lower p → reach m' r p = reach m r p
  frames : ∀ g, ¬ Free m g → m'.frames g = m.frames g
  free : ∀ g, Free m' g → Free m g
  sub : ∀ p g, Lower p → reach m' new p = some g →
    Free m g ∧ (p = [] ∨ ∃ v ∈ done, v.1.length = 4 ∧ p <+: v.1)
  lower : ∀ v ∈ done, Lower v.1
  copied : ∀ v ∈ done, v.1.length = 4 → ∃ g, reach m' new v.1 = some g ∧
    m'.frames g = m.frames v.2 ∧ canExecuteAt m' new v.1 = canExecuteAt m root v.1

namespace Cloned

variable {done : List (Path × Nat)}

theorem unmapped (h : Cloned live kernel m root new done m') {p : Path} (hp : Lower p)
    (hlen : p.length = 4) (hnew : p ∉ done.map Prod.fst) : reach m' new p = none := by
  rw [Option.eq_none_iff_forall_not_mem]
  intro g hg
  obtain ⟨-, rfl | ⟨v, hv, hv4, hpre⟩⟩ := h.sub p g hp hg
  · simp at hlen
  · have heq := hpre.eq_of_length (by omega)
    exact hnew (List.mem_map.mpr ⟨v, hv, heq.symm⟩)

theorem table (h : Cloned live kernel m root new done m') {v : Path × Nat} (hlow : Lower v.1)
    (hv : v.1.length ≠ 4) :
    Cloned live kernel m root new (done ++ [v]) m' where
  base := h.base
  pages := h.pages
  original := h.original
  freeLog := h.freeLog
  cr3 := h.cr3
  accounted := h.accounted
  others := h.others
  frames := h.frames
  free := h.free
  sub p g hp hg := by
    obtain ⟨hf, hnil | ⟨w, hw, hrest⟩⟩ := h.sub p g hp hg
    · exact ⟨hf, Or.inl hnil⟩
    · exact ⟨hf, Or.inr ⟨w, by simp [hw], hrest⟩⟩
  lower w hw := by
    rcases List.mem_append.mp hw with hw | hw
    · exact h.lower w hw
    · rw [List.mem_singleton] at hw
      exact hw ▸ hlow
  copied w hw hlen := by
    rcases List.mem_append.mp hw with hw | hw
    · exact h.copied w hw hlen
    · rw [List.mem_singleton] at hw
      exact absurd (hw ▸ hlen) hv

theorem page (h : Cloned live kernel m root new done m') (hm : Accounted m live kernel)
    (hroot : root ∈ live) {p : Path} {f : Nat} (hp : Lower p) (hf : reach m root p = some f)
    (hlen : p.length = 4) {m₁ : Machine} {g : Nat} {e : PageTableEntry}
    (h1 : Accounted m₁ (new :: live) kernel) (x : Extends (new :: live) (Free m') new p m' m₁)
    (hg : Free m' g) (hself : reach m₁ new p = some g) (hentry : entryAt m₁ new p = some e)
    (hnx : e.nx = !canExecuteAt m root p) :
    Cloned live kernel m root new (done ++ [(p, f)]) (m₁.setFrame g (m₁.frames f)) := by
  have hin : new ∈ new :: live := by simp
  obtain ⟨h2, hreach⟩ := h1.setPage hin hp hlen hself (m₁.frames f)
  have hexec : ∀ p', Lower p' → canExecuteAt (m₁.setFrame g (m₁.frames f)) new p' =
      canExecuteAt m₁ new p' := by
    intro p' hp'
    rw [canExecuteAt, h1.entryAt_setPage hin hp hlen hself _ hin hp', canExecuteAt]
  have hframes : ∀ g', ¬ Free m g' → m₁.frames g' = m.frames g' := by
    intro g' hg'
    rw [x.frames g' (mt (h.free g') hg') fun q hq he => hg' (h.sub q g' hq he).1, h.frames g' hg']
  have hff : ¬ Free m f := fun hfree => (hm.not_reached hfree).2 root hroot p hp hf
  refine ⟨x.setup.base.trans h.base, x.setup.pages.trans h.pages,
    x.setup.original.trans h.original, x.setup.freeLog.trans h.freeLog, x.setup.cr3.trans h.cr3, h2,
    ?_, ?_, ?_, ?_, ?_, ?_⟩
  · intro r hr q hq
    have hne : r ≠ new := fun he => (List.nodup_cons.mp h.accounted.nodup).1 (he ▸ hr)
    rw [hreach r (by simp [hr]) q hq, x.others r (by simp [hr]) hne q hq, h.others r hr q hq]
  · intro g' hg'
    have hne : g' ≠ g := fun he => hg' (he ▸ h.free g hg)
    rw [setFrame_other m₁ _ hne, hframes g' hg']
  · exact fun g' hg' => h.free g' (x.free g' hg')
  · intro q g' hq hg'
    rw [hreach new hin q hq] at hg'
    rcases x.new q g' hq hg' with hold | ⟨hpre, hg'⟩
    · obtain ⟨hf', hnil | ⟨w, hw, hrest⟩⟩ := h.sub q g' hq hold
      · exact ⟨hf', Or.inl hnil⟩
      · exact ⟨hf', Or.inr ⟨w, by simp [hw], hrest⟩⟩
    · exact ⟨h.free g' hg', Or.inr ⟨(p, f), by simp, hlen, hpre⟩⟩
  · intro w hw
    rcases List.mem_append.mp hw with hw | hw
    · exact h.lower w hw
    · rw [List.mem_singleton] at hw
      exact hw ▸ hp
  · intro w hw hw4
    rcases List.mem_append.mp hw with hw | hw
    · obtain ⟨g₀, hr₀, hfr, hex⟩ := h.copied w hw hw4
      have hwl := h.lower w hw
      have hne : g₀ ≠ g := by
        rintro rfl
        exact (h.accounted.not_reached hg).2 new hin w.1 hwl hr₀
      refine ⟨g₀, ?_, ?_, ?_⟩
      · rw [hreach new hin w.1 hwl, x.kept w.1 g₀ hwl hr₀]
      · rw [setFrame_other m₁ _ hne, x.leaves w.1 g₀ hw4 hwl hr₀, hfr]
      · have hwne : w.1 ≠ [] := fun he => by simp [he] at hw4
        rw [hexec w.1 hwl, canExecuteAt, x.entryAt_eq hwl hwne hr₀, ← hex, canExecuteAt]
    · rw [List.mem_singleton] at hw
      subst hw
      refine ⟨g, ?_, ?_, ?_⟩
      · rw [hreach new hin p hp, hself]
      · rw [setFrame_same, hframes f hff]
      · rw [hexec p hp, canExecuteAt, hentry]
        simp [hnx]

/-- **A page is copied**, if it is not there yet and there are pages for it and its tables. -/
theorem leaf (h : Cloned live kernel m root new done m') (hm : Accounted m live kernel)
    (hroot : root ∈ live) {p : Path} {f : Nat} (hp : Lower p) (hf : reach m root p = some f)
    (hlen : p.length = 4) :
    (∃ m'', visit cloneCallbacks m root m' (p, f) = .ok m'' ∧
      Cloned live kernel m root new (done ++ [(p, f)]) m'') ∨
    (visit cloneCallbacks m root m' (p, f) = .error .hcf ∧ reach m' new p ≠ none) ∨
    (visit cloneCallbacks m root m' (p, f) = .error .outOfMemory ∧
      ((∀ g, ¬ Free m' g) ∨ ∃ g m'', Free m' g ∧
        Exhausted (new :: live) (g :: kernel) (Free m') new p m' m'')) := by
  obtain ⟨hpath, hoff⟩ := pathOf_virtOf hlen
  have hlow : (pml4Index (virtOf 39 p)).val < 256 := hp.2 _ (congrArg List.head? hpath).symm
  have hvisit : visit cloneCallbacks m root m' (p, f) = (do
      let m ← allocateRamPage m' (virtOf 39 p) (canExecuteAt m root p)
      copyPageTo m (virtOf 39 p) f) := by
    rw [visit, if_pos hlen]
    rfl
  have hspec := allocateRamPage_spec (canExecuteAt m root p) h.accounted (by simp [h.cr3]) hlow
  rw [h.cr3, hpath] at hspec
  rcases hspec with ⟨m₁, g, he, -, -, h1, x, hg, hself, e, hentry, hnx⟩ | ⟨he, hbad⟩ | ⟨he, hbad⟩
  rotate_left
  · right; left
    rw [hvisit, he]
    exact ⟨rfl, hbad.resolve_left fun hne => hne hoff⟩
  · right; right
    rw [hvisit, he]
    exact ⟨rfl, hbad⟩
  left
  have hcopy : copyPageTo m₁ (virtOf 39 p) f = .ok (m₁.setFrame g (m₁.frames f)) :=
    copyPageTo_eq (by rw [x.setup.cr3.trans h.cr3, hpath]; exact hself) f
  rw [hvisit, he, ok_bind, hcopy]
  exact ⟨_, rfl, h.page hm hroot hp hf hlen h1 x hg hself hentry hnx⟩

end Cloned

/-! ### Running out of pages -/

/-- A page that was free and is not free any more is in the address space that has changed, or the
kernel's. -/
theorem Accounted.taken {live' kernel' : List Nat} {r₀ : Nat} (hm : Accounted m live kernel)
    (h : Accounted m' live' kernel') (hbase : m'.base = m.base) (hpages : m'.pages = m.pages)
    (hothers : ∀ r ∈ live', r ≠ r₀ → r ∈ live ∧ ∀ p, Lower p → reach m' r p = reach m r p) {g : Nat}
    (hg : Free m g) (hused : ¬ Free m' g) : Owned m' r₀ g ∨ g ∈ kernel' := by
  have hslab : InSlab m' g := by
    rw [InSlab, hbase, hpages]
    exact hg.1
  have hflag : m'.slabFlags (g - m'.base) = true := by
    by_contra hf
    exact hused ⟨hslab, by simpa using hf⟩
  rcases (h.used g hslab).mp hflag with ⟨r, hr, p, hp, hreach⟩ | hk
  · by_cases hrr : r = r₀
    · exact Or.inl ⟨p, hp, hrr ▸ hreach⟩
    · obtain ⟨hr, hsame⟩ := hothers r hr hrr
      rw [hsame p hp] at hreach
      exact absurd hreach ((hm.not_reached hg).2 r hr p hp)
  · exact Or.inr hk

theorem mem_paths_of_initial {p q : Path} {f : Nat} (hv : (p, f) ∈ frameList m root) (hq : q <+: p) :
    q ∈ (frameList m root).map Prod.fst := by
  obtain ⟨s, rfl⟩ := hq
  obtain ⟨hp, hf⟩ := mem_frameList.mp hv
  obtain ⟨t, ht, -⟩ := follow_of_append hf
  exact List.mem_map.mpr ⟨(q, t), mem_frameList.mpr ⟨hp.initial, ht⟩, rfl⟩

/-- **When the pages run out**, there were fewer than the address space has frames. -/
theorem Cloned.few {done : List (Path × Nat)} (h : Cloned live kernel m root new done m')
    (hm : Accounted m live kernel) (hdone : ∀ v ∈ done, v ∈ frameList m root) {p : Path} {f : Nat}
    (hv : (p, f) ∈ frameList m root) (hlen : p.length = 4) (hnew : p ∉ done.map Prod.fst)
    (hbad : (∀ g, ¬ Free m' g) ∨ ∃ g m'', Free m' g ∧
      Exhausted (new :: live) (g :: kernel) (Free m') new p m' m'') :
    (freePages m).length < (frameList m root).length := by
  obtain ⟨hp, hf⟩ := mem_frameList.mp hv
  have hpath : ∀ q g, Lower q → reach m' new q = some g → q ∈ (frameList m root).map Prod.fst := by
    intro q g hq hg
    obtain ⟨-, rfl | ⟨w, hw, -, hpre⟩⟩ := h.sub q g hq hg
    · exact mem_paths_of_initial hv List.nil_prefix
    · exact mem_paths_of_initial (hdone w hw) hpre
  have hnone := h.unmapped hp hlen hnew
  rw [← List.length_map (f := Prod.fst)]
  rcases hbad with hfull | ⟨g₀, m'', hg₀, hex⟩
  · refine freePages_length_lt (mem_paths_of_initial hv (List.prefix_refl p))
      (fun q => (reach m' new q).getD 0) fun g hg => ?_
    rcases hm.taken h.accounted h.base h.pages
        (fun r hr hne => ⟨List.mem_of_ne_of_mem hne hr, h.others r (List.mem_of_ne_of_mem hne hr)⟩)
        hg (hfull g) with ⟨q, hq, hreach⟩ | hk
    · refine ⟨q, hpath q g hq hreach, ?_, by rw [hreach]; rfl⟩
      rintro rfl
      rw [hnone] at hreach
      simp at hreach
    · exact absurd hk (hm.not_reached hg).1
  · -- the page that was taken first has no place in the tree yet, but one on the path `p`
    obtain ⟨p₀, hpre, hne, hmissing⟩ := hex.missing
    have hpnone : reach m'' new p = none := hex.reach_eq_none
    have hothers : ∀ r ∈ new :: live, r ≠ new →
        r ∈ live ∧ ∀ q, Lower q → reach m'' r q = reach m r q := fun r hr hne =>
      have hr' := List.mem_of_ne_of_mem hne hr
      ⟨hr', fun q hq => (hex.ext.others r hr hne q hq).trans (h.others r hr' q hq)⟩
    refine freePages_length_lt (mem_paths_of_initial hv hpre)
      (fun q => if q = p then g₀ else (reach m'' new q).getD 0) fun g hg => ?_
    rcases hm.taken hex.accounted (hex.ext.setup.base.trans h.base)
        (hex.ext.setup.pages.trans h.pages) hothers hg (hex.full g) with ⟨q, hq, hreach⟩ | hk
    · have hqp : q ≠ p := by
        rintro rfl
        rw [hpnone] at hreach
        simp at hreach
      refine ⟨q, ?_, ?_, by rw [if_neg hqp, hreach]; rfl⟩
      · rcases hex.ext.new q g hq hreach with hold | ⟨hpre', -⟩
        · exact hpath q g hq hold
        · exact mem_paths_of_initial hv hpre'
      · rintro rfl
        rw [hmissing] at hreach
        simp at hreach
    · rcases List.mem_cons.mp hk with rfl | hk
      · exact ⟨p, mem_paths_of_initial hv (List.prefix_refl p), hne.symm, if_pos rfl⟩
      · exact absurd hk (hm.not_reached hg).1

/-! ### The whole operation -/

theorem clone_fold (hm : Accounted m live kernel) (hroot : root ∈ live)
    {l done : List (Path × Nat)} (hl : done ++ l = frameList m root)
    (h : Cloned live kernel m root new done m') :
    (∃ m'', l.foldlM (visit cloneCallbacks m root) m' = .ok m'' ∧
      Cloned live kernel m root new (frameList m root) m'') ∨
    (l.foldlM (visit cloneCallbacks m root) m' = .error .outOfMemory ∧
      (freePages m).length < (frameList m root).length) := by
  induction l generalizing done m' with
  | nil =>
    rw [List.append_nil] at hl
    exact Or.inl ⟨m', rfl, hl ▸ h⟩
  | cons v l ih =>
    obtain ⟨p, f⟩ := v
    have hv : (p, f) ∈ frameList m root := by simp [← hl]
    obtain ⟨hp, hf⟩ := mem_frameList.mp hv
    have hl' : done ++ [(p, f)] ++ l = frameList m root := by simpa using hl
    by_cases hlen : p.length = 4
    · have hnew : p ∉ done.map Prod.fst := by
        have hnd := frameList_nodup m root
        rw [← hl, List.map_append, List.nodup_append] at hnd
        exact fun hmem => hnd.2.2 p hmem p (by simp) rfl
      rcases h.leaf hm hroot hp hf hlen with ⟨m₁, he, h1⟩ | ⟨-, hmapped⟩ | ⟨he, hbad⟩
      · rw [List.foldlM_cons, he, ok_bind]
        exact ih hl' h1
      · exact absurd (h.unmapped hp hlen hnew) hmapped
      · right
        rw [List.foldlM_cons, he]
        exact ⟨rfl, h.few hm (fun w hw => by simp [← hl, hw]) hv hlen hnew hbad⟩
    · have he : visit cloneCallbacks m root m' (p, f) = .ok m' := by
        rw [visit, if_neg hlen]
        rfl
      rw [List.foldlM_cons, he, ok_bind]
      exact ih hl' (h.table hp hlen)

theorem Generated.cloned {m₁ : Machine} (h : Generated live kernel m new m₁) (root : Nat) :
    Cloned live kernel m root new [] (m₁.setPml4Phys new) where
  base := h.setup.base
  pages := h.setup.pages
  original := h.setup.original
  freeLog := h.setup.freeLog
  cr3 := rfl
  accounted := h.accounted.setPml4Phys new
  others := h.others
  frames g hg := h.frames g fun he => hg (he ▸ h.fresh)
  free := h.free
  sub p g hp hg := by
    obtain ⟨rfl, rfl⟩ := h.empty p g hp hg
    exact ⟨h.fresh, Or.inl rfl⟩
  lower := by simp
  copied := by simp

/-- **`clone_virtual_addressing`** visits all frames of the address space, or there are fewer
free pages than that. -/
theorem clone_spec (hm : Accounted m live kernel) (hroot : root ∈ live) :
    (∃ new m', cloneVirtualAddressing m root = .ok (new, m'.setPml4Phys root) ∧ Free m new ∧
      Cloned live kernel m root new (frameList m root) m') ∨
    (cloneVirtualAddressing m root = .error .outOfMemory ∧
      (freePages m).length < (frameList m root).length) := by
  unfold cloneVirtualAddressing
  rcases generate_spec hm with ⟨new, m₁, he, hgen⟩ | ⟨he, hfull⟩
  swap
  · right
    rw [he]
    refine ⟨rfl, ?_⟩
    have hnil : freePages m = [] :=
      List.eq_nil_iff_forall_not_mem.mpr fun g hg => hfull g (mem_freePages.mp hg)
    rw [hnil]
    exact List.length_pos_of_mem (mem_frameList.mpr ⟨lower_nil, rfl⟩)
  rw [he, ok_bind]
  have h1 := hgen.cloned root
  have hwalk : walkVirtualTree cloneCallbacks (m₁.setPml4Phys new) root =
      (frameList m root).foldlM (visit cloneCallbacks m root) (m₁.setPml4Phys new) := by
    refine walkVirtualTree_eq (P := fun m' => ∃ done, Cloned live kernel m root new done m')
      ?_ ?_ ⟨[], h1⟩
    · rintro m' ⟨done, h⟩ q t hq - ht
      exact h.frames t fun hfree => (hm.not_reached hfree).2 root hroot q hq ht
    · rintro m' m'' ⟨p, f⟩ hp hf ⟨done, h⟩ he
      by_cases hlen : p.length = 4
      · rcases h.leaf hm hroot hp hf hlen with ⟨m₂, he', h2⟩ | ⟨he', -⟩ | ⟨he', -⟩
        · obtain rfl := Except.ok.inj (he.symm.trans he')
          exact ⟨_, h2⟩
        · simp [he'] at he
        · simp [he'] at he
      · rw [visit, if_neg hlen] at he
        obtain rfl := Except.ok.inj he
        exact ⟨done, h⟩
  dsimp only
  rw [hwalk]
  rcases clone_fold hm hroot (List.nil_append _) h1 with ⟨m', hfold, h2⟩ | ⟨hfold, hfew⟩
  · left
    rw [hfold]
    exact ⟨new, m', rfl, hgen.fresh, h2⟩
  · right
    rw [hfold]
    exact ⟨rfl, hfew⟩

/-- No entry on the path forbids execution. -/
def Executable (m : Machine) (r : Nat) (p : Path) : Prop :=
  ∀ q i s, p = q ++ i :: s → ∀ t, reach m r q = some t → (m.frames t i).nx = false

/-- Only the last entry decides, since tables are always executable. -/
theorem Accounted.executable_iff (h : Accounted m live kernel) {r f : Nat} (hr : r ∈ live) {p : Path}
    (hp : Lower p) (hlen : p.length = 4) (hf : reach m r p = some f) :
    Executable m r p ↔ canExecuteAt m r p = true := by
  obtain ⟨q₀, i₀, rfl⟩ : ∃ q i, p = q ++ [i] := by
    have hne : p ≠ [] := fun he => by simp [he] at hlen
    exact ⟨_, _, (List.dropLast_append_getLast hne).symm⟩
  obtain ⟨t₀, ht₀, -⟩ := follow_of_append hf
  have hcan : canExecuteAt m r (q₀ ++ [i₀]) = !(m.frames t₀ i₀).nx := by
    rw [canExecuteAt, entryAt_concat, (show reach m r q₀ = some t₀ from ht₀)]
    rfl
  rw [hcan, Bool.not_eq_true']
  constructor
  · exact fun he => he q₀ i₀ [] rfl t₀ ht₀
  · intro hnx q i s hqs t ht
    rcases List.eq_nil_or_concat' s with rfl | ⟨s, j, rfl⟩
    · obtain ⟨rfl, hi⟩ := List.append_inj' hqs rfl
      obtain rfl := List.singleton_inj.mp hi
      obtain rfl := Option.some.inj (ht₀.symm.trans ht)
      exact hnx
    · have hsplit : q₀ ++ [i₀] = (q ++ [i]) ++ (s ++ [j]) := by simpa using hqs
      have hlen' : q.length < 3 := by
        have := congrArg List.length hqs
        simp only [List.length_append, List.length_cons, List.length_nil] at this hlen
        omega
      rw [hsplit] at hp hf
      obtain ⟨u, hu, -⟩ := follow_of_append hf
      have hc : child m t i = some u := (reach_concat ht i).symm.trans hu
      exact h.inner r hr q i t hp.initial hlen' ht (child_eq_some.mp hc).1

/-- **Fork copies the address space.**  The clone maps exactly the pages of the lower half that
the original maps, with the same contents and the same executability, on frames that were
free; the original has not changed, the upper half is that of the kernel's table, and `CR3` is
the original root again.  There is no other outcome as long as there are as many free pages
as the address space has frames. -/
theorem clone_copies (m : Machine) (live kernel : List Nat) (root : Nat)
    (hm : Accounted m live kernel) (hroot : root ∈ live) (hcr3 : m.cr3 = root) :
    (∃ new m', cloneVirtualAddressing m root = .ok (new, m') ∧
      (∀ p, Lower p → p.length = 4 →
        ((reach m' new p).isSome ↔ (reach m root p).isSome)) ∧
      (∀ p f f', Lower p → p.length = 4 → reach m root p = some f → reach m' new p = some f' →
        m'.frames f' = m.frames f ∧ (Executable m' new p ↔ Executable m root p)) ∧
      (∀ p f, Lower p → reach m' new p = some f → Free m f) ∧
      (∀ p, Lower p → reach m' root p = reach m root p) ∧
      (∀ p f, Lower p → reach m root p = some f → m'.frames f = m.frames f) ∧
      (∀ i : Fin 512, 256 ≤ i.val → m'.frames new i = m.frames m.originalKernelPageTable i) ∧
      m'.frames m.originalKernelPageTable = m.frames m.originalKernelPageTable ∧
      m'.cr3 = m.cr3) ∨
    (cloneVirtualAddressing m root = .error .outOfMemory ∧
      (freePages m).length < (frameList m root).length) := by
  rcases clone_spec hm hroot with ⟨new, m', he, -, h⟩ | hfew
  swap
  · exact Or.inr hfew
  have horig : m'.frames m.originalKernelPageTable = m.frames m.originalKernelPageTable :=
    h.frames _ fun hfree => hm.originalApart hfree.1
  have hback : ∀ p g, Lower p → p.length = 4 → reach m' new p = some g →
      ∃ f, (p, f) ∈ frameList m root := by
    intro p g hp hlen hg
    obtain ⟨-, rfl | ⟨⟨q, f⟩, hv, hv4, hpre⟩⟩ := h.sub p g hp hg
    · simp at hlen
    · have hq : p = q := hpre.eq_of_length (hlen.trans hv4.symm)
      exact ⟨f, hq ▸ hv⟩
  left
  refine ⟨new, _, he, ?_, ?_, fun p f hp hf => (h.sub p f hp hf).1, fun p hp => h.others root hroot p hp,
    ?_, ?_, horig, hcr3.symm⟩
  · intro p hp hlen
    constructor
    · intro hsome
      obtain ⟨g, hg⟩ := Option.isSome_iff_exists.mp hsome
      obtain ⟨f, hv⟩ := hback p g hp hlen hg
      exact Option.isSome_iff_exists.mpr ⟨f, (mem_frameList.mp hv).2⟩
    · intro hsome
      obtain ⟨f, hf⟩ := Option.isSome_iff_exists.mp hsome
      obtain ⟨g, hg, -⟩ := h.copied (p, f) (mem_frameList.mpr ⟨hp, hf⟩) hlen
      exact Option.isSome_iff_exists.mpr ⟨g, hg⟩
  · intro p f f' hp hlen hf hf'
    obtain ⟨g, hg, hframe, hexec⟩ := h.copied (p, f) (mem_frameList.mpr ⟨hp, hf⟩) hlen
    obtain rfl := Option.some.inj (hg.symm.trans hf')
    refine ⟨hframe, ?_⟩
    have hnew := h.accounted.executable_iff (by simp) hp hlen hg
    rw [hm.executable_iff hroot hp hlen hf, ← hexec]
    exact hnew
  · exact fun p f hp hf => h.frames f fun hfree => (hm.not_reached hfree).2 root hroot p hp hf
  · intro i hi
    have hshared := h.accounted.shared new (by simp) i hi
    rw [h.original, horig] at hshared
    exact hshared

/-- One page is mapped at the second page of the lower half, and the clone has it too. -/
theorem clone_copies_one_page :
    ∃ m root new m', Accounted m [root] [] ∧ m.cr3 = root ∧
      (reach m root (pathOf 4096)).isSome ∧ cloneVirtualAddressing m root = .ok (new, m') ∧
      (reach m' new (pathOf 4096)).isSome := by
  -- sixteen pages from frame 16 on, and an empty boot table in frame 0
  have h0 : Accounted ⟨fun _ _ => .ofWord 0, fun _ => false, 16, 16, 0, 0, []⟩ [] [] := by
    refine Accounted.boot (by decide) (by simp) (by simp) ?_ fun _ _ => rfl
    exact fun hslab => absurd hslab.1 (by decide)
  obtain ⟨root, mg, he, hgen⟩ | ⟨-, hfull⟩ := generate_spec h0
  swap
  · exact absurd ⟨⟨by decide, by decide⟩, rfl⟩ (hfull 16)
  rw [generate_eq rfl rfl] at he
  obtain ⟨rfl, rfl⟩ := Prod.mk.inj (Except.ok.inj he)
  have h1 := hgen.accounted.setPml4Phys 16
  have hspec := allocateRamPage_spec false h1 (by decide) (show (pml4Index 4096).val < 256 by decide)
  obtain ⟨m2, f, ha, -, -, h2, hext, -, hreach, -⟩ | ⟨hbad, -⟩ | ⟨hbad, -⟩ := hspec
  rotate_left
  · exact absurd (congrArg Except.isOk hbad) (by decide)
  · exact absurd (congrArg Except.isOk hbad) (by decide)
  have hfree : (freePages m2).length = 11 := by
    have heval : (Except.ok m2 : Except Halt Machine).toOption.map (fun m => (freePages m).length) =
        some 11 := by
      rw [← ha]
      rfl
    exact Option.some.inj heval
  have hframes : (frameList m2 16).length ≤ 5 := by
    have hsub : (frameList m2 16).map Prod.fst ⊆ (pathOf 4096).inits := by
      intro p hp
      obtain ⟨⟨q, g⟩, hv, rfl⟩ := List.mem_map.mp hp
      obtain ⟨hq, hg⟩ := mem_frameList.mp hv
      rw [List.mem_inits]
      rcases hext.new q g hq hg with hold | ⟨hpre, -⟩
      · obtain ⟨rfl, -⟩ := hgen.empty q g hq hold
        exact List.nil_prefix
      · exact hpre
    have hlen := (List.subperm_of_subset (frameList_nodup m2 16) hsub).length_le
    rw [List.length_map] at hlen
    exact hlen
  have hcr3 : m2.cr3 = 16 := hext.setup.cr3
  rcases clone_copies m2 [16] [] 16 h2 (by simp) hcr3 with ⟨new, m', hc, hmap, -⟩ | ⟨-, hfew⟩
  · have hlow : Lower (pathOf 4096) := lower_pathOf (by decide)
    have hsome : (reach m2 16 (pathOf 4096)).isSome := Option.isSome_iff_exists.mpr ⟨f, hreach⟩
    exact ⟨m2, 16, new, m', h2, hcr3, hsome, hc, (hmap _ hlow rfl).mpr hsome⟩
  · omega

end Stuos.Memory
