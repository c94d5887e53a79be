import Stuos.Memory.Walk

/-!
# Removing an address space

* `remove_spec`: `remove_virtual_addressing` always returns; it frees every frame of the lower
  half of the current address space, its root last, and each exactly once, and nothing else
  changes.
-/

namespace Stuos.Memory

open Stuos.Lib

variable {m m' : Machine} {live kernel : List Nat}

/-- The frames of a live address space. -/
def Owned (m : Machine) (r f : Nat) : Prop := ∃ p, Lower p ∧ reach m r p = some f

theorem mem_frameList_snd {r f : Nat} : f ∈ (frameList m r).map Prod.snd ↔ Owned m r f := by
  rw [List.mem_map]
  constructor
  · rintro ⟨⟨p, f⟩, hv, rfl⟩
    exact ⟨p, mem_frameList.mp hv⟩
  · rintro ⟨p, hp⟩
    exact ⟨(p, f), mem_frameList.mpr hp, rfl⟩

/-- **No frame is visited twice.** -/
theorem Accounted.frameList_snd_nodup (h : Accounted m live kernel) {r : Nat} (hr : r ∈ live) :
    ((frameList m r).map Prod.snd).Nodup := by
  refine List.Nodup.map_on ?_ (List.Nodup.of_map Prod.fst (frameList_nodup m r))
  rintro ⟨p, f⟩ hv ⟨p', f'⟩ hv' (rfl : f = f')
  obtain ⟨hp, hf⟩ := mem_frameList.mp hv
  obtain ⟨hp', hf'⟩ := mem_frameList.mp hv'
  obtain ⟨-, rfl⟩ := h.separate r p r p' f ⟨hr, hp⟩ ⟨hr, hp'⟩ hf hf'
  rfl

/-! ### The callbacks -/

/-- What the callbacks have done for the frames `l`. -/
structure Removed (l : List (Path × Nat)) (m m' : Machine) : Prop where
  base : m'.base = m.base
  pages : m'.pages = m.pages
  cr3 : m'.cr3 = m.cr3
  original : m'.originalKernelPageTable = m.originalKernelPageTable
  freeLog : m'.freeLog = m.freeLog ++ l.map Prod.snd
  frames : ∀ g, (∀ v ∈ l, v.1.length = 4 → v.2 ≠ g) → m'.frames g = m.frames g
  flags : ∀ g, InSlab m g → (m'.slabFlags (g - m.base) = true ↔
    m.slabFlags (g - m.base) = true ∧ g ∉ l.map Prod.snd)

theorem visit_remove (m₀ : Machine) (root : Nat) {v : Path × Nat} (hv : InSlab m v.2) :
    ∃ m', visit removeCallbacks m₀ root m v = .ok m' ∧ Removed [v] m m' := by
  have hflags : ∀ g, InSlab m g →
      (Function.update m.slabFlags (v.2 - m.base) false (g - m.base) = true ↔
        m.slabFlags (g - m.base) = true ∧ g ∉ [v].map Prod.snd) := by
    intro g hg
    by_cases hgv : g = v.2
    · subst hgv
      simp
    · have hne : g - m.base ≠ v.2 - m.base := by
        have := hg.1
        have := hv.1
        omega
      simp [Function.update_of_ne hne, hgv]
  rw [visit]
  split
  · rename_i hlen
    refine ⟨_, if_pos hv, rfl, rfl, rfl, rfl, rfl, fun g hg => ?_, hflags⟩
    exact setFrame_other m _ (hg v (by simp) hlen).symm
  · exact ⟨_, if_pos hv, rfl, rfl, rfl, rfl, rfl, fun _ _ => rfl, hflags⟩

theorem Removed.append {l l' : List (Path × Nat)} {m'' : Machine} (h : Removed l m m')
    (h' : Removed l' m' m'') : Removed (l ++ l') m m'' where
  base := h'.base.trans h.base
  pages := h'.pages.trans h.pages
  cr3 := h'.cr3.trans h.cr3
  original := h'.original.trans h.original
  freeLog := by rw [h'.freeLog, h.freeLog, List.map_append, List.append_assoc]
  frames g hg := by
    rw [h'.frames g fun v hv => hg v (by simp [hv]), h.frames g fun v hv => hg v (by simp [hv])]
  flags g hg := by
    have hg' : InSlab m' g := by
      rw [InSlab, h.base, h.pages]
      exact hg
    have hf' := h'.flags g hg'
    rw [h.base] at hf'
    rw [hf', h.flags g hg, List.map_append, List.mem_append, not_or, and_assoc]

/-- **All callbacks together.** -/
theorem remove_fold (m₀ : Machine) (root : Nat) {l : List (Path × Nat)}
    (hl : ∀ v ∈ l, InSlab m v.2) :
    ∃ m', l.foldlM (visit removeCallbacks m₀ root) m = .ok m' ∧ Removed l m m' := by
  induction l generalizing m with
  | nil => exact ⟨m, rfl, rfl, rfl, rfl, rfl, by simp, fun _ _ => rfl, by simp⟩
  | cons v l ih =>
    obtain ⟨m₁, h1, hr1⟩ := visit_remove m₀ root (hl v (by simp))
    obtain ⟨m', h2, hr2⟩ := ih (m := m₁) fun w hw => by
      rw [InSlab, hr1.base, hr1.pages]
      exact hl w (by simp [hw])
    refine ⟨m', ?_, hr1.append hr2⟩
    rw [List.foldlM_cons, h1, ok_bind, h2]

/-! ### The whole operation -/

/-- **Giving the frames of an address space back.** -/
theorem Accounted.release (h : Accounted m live kernel) {r : Nat} (hr : r ∈ live)
    (hbase : m'.base = m.base) (hpages : m'.pages = m.pages)
    (horig : m'.originalKernelPageTable = m.originalKernelPageTable)
    (hframes : m'.frames = m.frames)
    (hflags : ∀ g, InSlab m g → (m'.slabFlags (g - m.base) = true ↔
      m.slabFlags (g - m.base) = true ∧ ¬ Owned m r g)) :
    Accounted m' (live.erase r) kernel := by
  have hreach : ∀ r p, reach m' r p = reach m r p := fun r p =>
    reach_congr fun _ i _ _ t _ => congrFun (congrFun hframes t) i
  have hslab : ∀ f, InSlab m' f ↔ InSlab m f := by
    intro f
    rw [InSlab, InSlab, hbase, hpages]
  have hmem : ∀ {r'}, r' ∈ live.erase r → r' ∈ live ∧ r' ≠ r := fun h' =>
    ⟨List.mem_of_mem_erase h', fun he => absurd (he ▸ h') (h.nodup.not_mem_erase)⟩
  constructor
  · rw [hbase, hpages]
    exact h.addressable
  · exact h.nodup.erase r
  · intro r₁ p₁ r₂ p₂ f h1 h2 hf1 hf2
    exact h.separate r₁ p₁ r₂ p₂ f ⟨(hmem h1.1).1, h1.2⟩ ⟨(hmem h2.1).1, h2.2⟩
      ((hreach _ _).symm.trans hf1) ((hreach _ _).symm.trans hf2)
  · intro r' hr' p f hp hf
    exact (hslab f).mpr (h.owned r' (hmem hr').1 p f hp ((hreach _ _).symm.trans hf))
  · intro f hf
    rw [hslab] at hf
    rw [hbase, hflags f hf, h.used f hf]
    constructor
    · rintro ⟨⟨r', hr', p, hp, hf'⟩ | hk, hno⟩
      · refine Or.inl ⟨r', ?_, p, hp, (hreach _ _).trans hf'⟩
        refine (List.mem_erase_of_ne ?_).mpr hr'
        rintro rfl
        exact hno ⟨p, hp, hf'⟩
      · exact Or.inr hk
    · rintro (⟨r', hr', p, hp, hf'⟩ | hk)
      · rw [hreach] at hf'
        obtain ⟨hr', hne⟩ := hmem hr'
        refine ⟨Or.inl ⟨r', hr', p, hp, hf'⟩, ?_⟩
        rintro ⟨p', hp', hf''⟩
        exact hne (h.separate r' p r p' f ⟨hr', hp⟩ ⟨hr, hp'⟩ hf' hf'').1
      · refine ⟨Or.inr hk, ?_⟩
        rintro ⟨p, hp, hf'⟩
        exact h.kernelApart f hk r hr p hp hf'
  · intro f hf r' hr' p hp
    rw [hreach]
    exact h.kernelApart f hf r' (hmem hr').1 p hp
  · exact fun f hf => (hslab f).mpr (h.kernelInSlab f hf)
  · rw [horig, hslab]
    exact h.originalApart
  · rw [horig, hframes]
    exact h.originalClean
  · intro r' hr' i hi
    rw [horig, hframes]
    exact h.shared r' (hmem hr').1 i hi
  · intro r' hr' q i t hl hq ht hp
    rw [hreach] at ht
    rw [hframes] at hp ⊢
    exact h.inner r' (hmem hr').1 q i t hl hq ht hp

theorem Accounted.page_ne_table (h : Accounted m live kernel) {r₀ r t : Nat} {q : Path}
    (hr₀ : r₀ ∈ live) (hr : r ∈ live) (hq : Lower q) (hlen : q.length < 4)
    (ht : reach m r q = some t) : ∀ v ∈ frameList m r₀, v.1.length = 4 → v.2 ≠ t := by
  rintro v hv hv4 rfl
  obtain ⟨hv1, hv2⟩ := mem_frameList.mp hv
  obtain ⟨-, rfl⟩ := h.separate r q r₀ v.1 v.2 ⟨hr, hq⟩ ⟨hr₀, hv1⟩ ht hv2
  omega

theorem Accounted.inSlab_of_mem_frameList (h : Accounted m live kernel) {r : Nat} (hr : r ∈ live)
    {v : Path × Nat} (hv : v ∈ frameList m r) : InSlab m v.2 :=
  h.owned r hr v.1 v.2 (mem_frameList.mp hv).1 (mem_frameList.mp hv).2

/-- **The walk is the fold of its callbacks**: they leave the tables alone. -/
theorem removeVirtualAddressing_eq (h : Accounted m live kernel) (hr : m.cr3 ∈ live) :
    removeVirtualAddressing m = (frameList m m.cr3).foldlM
      (visit removeCallbacks m m.cr3) (m.setPml4Phys m.originalKernelPageTable) := by
  rw [removeVirtualAddressing]
  refine walkVirtualTree_eq (P := fun m' => m'.base = m.base ∧ m'.pages = m.pages ∧
    ∀ q t, Lower q → q.length < 4 → reach m m.cr3 q = some t → m'.frames t = m.frames t)
    (fun m' hm' => hm'.2.2) ?_ ⟨rfl, rfl, fun _ _ _ _ _ => rfl⟩
  rintro m₁ m₂ v hv1 hv2 ⟨hb, hp, hf⟩ he
  have hv := mem_frameList.mpr ⟨hv1, hv2⟩
  have hv3 : InSlab m₁ v.2 := by
    rw [InSlab, hb, hp]
    exact h.inSlab_of_mem_frameList hr hv
  obtain ⟨m₂', he', hrem⟩ := visit_remove m m.cr3 hv3
  obtain rfl := Except.ok.inj (he.symm.trans he')
  refine ⟨hrem.base.trans hb, hrem.pages.trans hp, fun q t hq hlen ht => ?_⟩
  rw [hrem.frames t, hf q t hq hlen ht]
  intro w hw
  rw [List.mem_singleton] at hw
  subst hw
  exact h.page_ne_table hr hr hq hlen ht w hv

/-- **`remove_virtual_addressing`** frees the frames of the lower half of the current address
space, each once, and changes nothing else; `CR3` is the kernel's table again. -/
theorem remove_spec (h : Accounted m live kernel) (hr : m.cr3 ∈ live) :
    ∃ m', removeVirtualAddressing m = .ok m' ∧ Accounted m' (live.erase m.cr3) kernel ∧
      m'.cr3 = m.originalKernelPageTable ∧
      m'.originalKernelPageTable = m.originalKernelPageTable ∧
      m'.base = m.base ∧ m'.pages = m.pages ∧
      m'.freeLog = m.freeLog ++ (frameList m m.cr3).map Prod.snd ∧
      (∀ g, ¬ Owned m m.cr3 g → m'.frames g = m.frames g) ∧
      ∀ r ∈ live, r ≠ m.cr3 → ∀ p, Lower p → reach m' r p = reach m r p := by
  have hslab : ∀ v ∈ frameList m m.cr3, InSlab m v.2 := fun v hv =>
    h.inSlab_of_mem_frameList hr hv
  have hwalk := removeVirtualAddressing_eq h hr
  obtain ⟨m', hfold, hrem⟩ :=
    remove_fold (m := m.setPml4Phys m.originalKernelPageTable) m m.cr3 hslab
  have hkept : ∀ g, ¬ Owned m m.cr3 g → m'.frames g = m.frames g := by
    intro g hg
    refine hrem.frames g ?_
    rintro v hv - rfl
    exact hg ⟨v.1, mem_frameList.mp hv⟩
  have hbase : m'.base = m.base := hrem.base
  have hpages : m'.pages = m.pages := hrem.pages
  have horig : ¬ Owned m m.cr3 m.originalKernelPageTable := by
    rintro ⟨p, hp, ho⟩
    exact h.originalApart (h.owned _ hr p _ hp ho)
  obtain ⟨h1, hreach⟩ : Accounted { m' with slabFlags := m.slabFlags } live kernel ∧
      ∀ r ∈ live, ∀ p, Lower p → reach { m' with slabFlags := m.slabFlags } r p = reach m r p :=
    h.congr hbase hpages hrem.original rfl
      (fun r hr' q t hq hlen ht => hrem.frames t (h.page_ne_table hr hr' hq hlen ht))
      (hkept _ horig)
  refine ⟨m', hwalk.trans hfold, ?_, hrem.cr3, hrem.original, hrem.base, hrem.pages, hrem.freeLog,
    hkept, fun r hr' _ p hp => hreach r hr' p hp⟩
  refine h1.release hr rfl rfl rfl rfl fun g hg => ?_
  have hg' : InSlab m g := by
    rw [InSlab, ← hbase, ← hpages]
    exact hg
  have hflags := hrem.flags g hg'
  have howned : Owned { m' with slabFlags := m.slabFlags } m.cr3 g ↔ Owned m m.cr3 g :=
    exists_congr fun p => and_congr_right fun hp => by rw [hreach m.cr3 hr p hp]
  rw [mem_frameList_snd] at hflags
  dsimp only
  rw [howned, hbase]
  exact hflags

end Stuos.Memory
