import Stuos.Lib.Trie
import Stuos.Memory.PageTables

/-!
# Whose frame is it

An address space is the trie of its page tables: `reach m r p` follows the indices `p`
from the root `r`, and the paths of the lower half (`Lower`) lead to its tables and, at
length four, to its pages.

`Accounted m live kernel` says that the frames the page allocator has given out are
accounted for: each belongs to exactly one place in one live address space, or to the
kernel.  A frame that has just been allocated is the kernel's until it is hung into a
tree (`Accounted.attach`) or becomes a root (`Accounted.adopt`).
-/

namespace Stuos.Memory

open Stuos.Lib

/-- The indices from the root down. -/
abbrev Path := List (Fin 512)

/-- The frame at the end of a path. -/
abbrev reach (m : Machine) (r : Nat) (p : Path) : Option Nat := follow (child m) r p

/-- A path that stays in the lower half and ends at a page at the latest. -/
def Lower (p : Path) : Prop := p.length ≤ 4 ∧ ∀ i, p.head? = some i → i.val < 256

/-- The frame lies in the memory that the page allocator manages. -/
def InSlab (m : Machine) (f : Nat) : Prop := m.base ≤ f ∧ f < m.base + m.pages

theorem Lower.initial {p q : Path} (h : Lower (p ++ q)) : Lower p := by
  refine ⟨?_, fun i hi => h.2 i ?_⟩
  · have := h.1
    rw [List.length_append] at this
    omega
  · cases p with
    | nil => simp at hi
    | cons j p => exact hi

theorem lower_nil : Lower [] := ⟨by simp, by simp⟩

/-! ### Entries -/

theorem child_eq_some {m : Machine} {t f : Nat} {i : Fin 512} :
    child m t i = some f ↔
      (m.frames t i).present = true ∧ (m.frames t i).addr.toNat = f := by
  unfold child
  split <;> simp [*]

theorem child_eq_none {m : Machine} {t : Nat} {i : Fin 512} :
    child m t i = none ↔ (m.frames t i).present = false := by
  unfold child
  split <;> simp [*]

/-- The processor looks at the entry only. -/
theorem child_congr {m m' : Machine} {t : Nat} {i : Fin 512}
    (h : m'.frames t i = m.frames t i) : child m' t i = child m t i := by
  rw [child, child, h]

theorem setEntry_same (m : Machine) (t : Nat) (i : Fin 512) (e : PageTableEntry) :
    (m.setEntry ⟨t, i⟩ e).frames t i = e := by
  simp [Machine.setEntry, Machine.setFrame]

theorem setEntry_other (m : Machine) {t u : Nat} {i j : Fin 512} (e : PageTableEntry)
    (h : u = t → j ≠ i) : (m.setEntry ⟨t, i⟩ e).frames u j = m.frames u j := by
  by_cases hu : u = t
  · subst hu
    simp [Machine.setEntry, Machine.setFrame, h rfl]
  · simp [Machine.setEntry, Machine.setFrame, hu]

theorem setEntry_frame (m : Machine) {t u : Nat} {i : Fin 512} (e : PageTableEntry)
    (h : u ≠ t) : (m.setEntry ⟨t, i⟩ e).frames u = m.frames u :=
  funext fun _ => setEntry_other m e fun hu => absurd hu h

theorem setFrame_same (m : Machine) (f : Nat) (content : Frame) :
    (m.setFrame f content).frames f = content := by
  simp [Machine.setFrame]

theorem setFrame_other (m : Machine) {f g : Nat} (content : Frame) (h : g ≠ f) :
    (m.setFrame f content).frames g = m.frames g := by
  simp [Machine.setFrame, h]

theorem reach_congr {m m' : Machine} {r : Nat} {p : Path}
    (h : ∀ q i s, p = q ++ i :: s → ∀ t, reach m r q = some t → m'.frames t i = m.frames t i) :
    reach m' r p = reach m r p :=
  follow_congr fun q i s hp t ht => child_congr (h q i s hp t ht)

/-! ### The invariant -/

/-- **Every frame given out is accounted for.** -/
structure Accounted (m : Machine) (live kernel : List Nat) : Prop where
  addressable : m.base + m.pages ≤ 2 ^ 40
  nodup : live.Nodup
  separate : Separate (child m) fun r p => r ∈ live ∧ Lower p
  owned : ∀ r ∈ live, ∀ p f, Lower p → reach m r p = some f → InSlab m f
  used : ∀ f, InSlab m f → (m.slabFlags (f - m.base) = true ↔
    (∃ r ∈ live, ∃ p, Lower p ∧ reach m r p = some f) ∨ f ∈ kernel)
  kernelApart : ∀ f ∈ kernel, ∀ r ∈ live, ∀ p, Lower p → reach m r p ≠ some f
  kernelInSlab : ∀ f ∈ kernel, InSlab m f
  originalApart : ¬ InSlab m m.originalKernelPageTable
  originalClean : ∀ i : Fin 512, i.val < 256 →
    (m.frames m.originalKernelPageTable i).present = false
  shared : ∀ r ∈ live, ∀ i : Fin 512, 256 ≤ i.val →
    m.frames r i = m.frames m.originalKernelPageTable i
  inner : ∀ r ∈ live, ∀ q i t, Lower (q ++ [i]) → q.length < 3 → reach m r q = some t →
    (m.frames t i).present = true → (m.frames t i).nx = false

namespace Accounted

variable {m : Machine} {live kernel : List Nat}

theorem closed (live : List Nat) (r : Nat) (p q : Path) (h : r ∈ live ∧ Lower (p ++ q)) :
    r ∈ live ∧ Lower p :=
  ⟨h.1, h.2.initial⟩

theorem boot (haddr : m.base + m.pages ≤ 2 ^ 40) (hslab : ∀ f ∈ kernel, InSlab m f)
    (hused : ∀ f, InSlab m f → (m.slabFlags (f - m.base) = true ↔ f ∈ kernel))
    (hapart : ¬ InSlab m m.originalKernelPageTable)
    (hclean : ∀ i : Fin 512, i.val < 256 →
      (m.frames m.originalKernelPageTable i).present = false) : Accounted m [] kernel := by
  refine ⟨haddr, List.nodup_nil, ?_, ?_, ?_, ?_, hslab, hapart, hclean, ?_, ?_⟩
  · rintro r p r' p' f ⟨hr, -⟩
    simp at hr
  · simp
  · intro f hf
    simpa using hused f hf
  · simp
  · simp
  · simp

theorem rootInSlab (h : Accounted m live kernel) {r : Nat} (hr : r ∈ live) : InSlab m r :=
  h.owned r hr [] r lower_nil rfl

theorem ne_original (h : Accounted m live kernel) {r : Nat} (hr : InSlab m r) :
    r ≠ m.originalKernelPageTable := by
  rintro rfl
  exact h.originalApart hr

theorem perm {live' : List Nat} (h : Accounted m live kernel) (hp : live.Perm live') :
    Accounted m live' kernel where
  addressable := h.addressable
  nodup := hp.nodup_iff.mp h.nodup
  separate r p r' p' f hr hr' :=
    h.separate r p r' p' f ⟨hp.mem_iff.mpr hr.1, hr.2⟩ ⟨hp.mem_iff.mpr hr'.1, hr'.2⟩
  owned r hr := h.owned r (hp.mem_iff.mpr hr)
  used f hf := by
    rw [h.used f hf]
    simp only [hp.mem_iff]
  kernelApart f hf r hr := h.kernelApart f hf r (hp.mem_iff.mpr hr)
  kernelInSlab := h.kernelInSlab
  originalApart := h.originalApart
  originalClean := h.originalClean
  shared r hr := h.shared r (hp.mem_iff.mpr hr)
  inner r hr := h.inner r (hp.mem_iff.mpr hr)

theorem congr (h : Accounted m live kernel) {m' : Machine} (hbase : m'.base = m.base)
    (hpages : m'.pages = m.pages) (horig : m'.originalKernelPageTable = m.originalKernelPageTable)
    (hflags : m'.slabFlags = m.slabFlags)
    (hframes : ∀ r ∈ live, ∀ p t, Lower p → p.length < 4 → reach m r p = some t →
      m'.frames t = m.frames t)
    (hclean : m'.frames m.originalKernelPageTable = m.frames m.originalKernelPageTable) :
    Accounted m' live kernel ∧ ∀ r ∈ live, ∀ p, Lower p → reach m' r p = reach m r p := by
  have hreach : ∀ r ∈ live, ∀ p, Lower p → reach m' r p = reach m r p := by
    intro r hr p hp
    refine reach_congr fun q i s hqs t ht => congrFun (hframes r hr q t ?_ ?_ ht) i
    · exact (hqs ▸ hp).initial
    · have := hp.1
      rw [hqs, List.length_append, List.length_cons] at this
      omega
  have hslab : ∀ f, InSlab m' f ↔ InSlab m f := by
    intro f
    rw [InSlab, InSlab, hbase, hpages]
  refine ⟨?_, hreach⟩
  constructor
  · rw [hbase, hpages]
    exact h.addressable
  · exact h.nodup
  · intro r p r' p' f hP hP' hf hf'
    exact h.separate r p r' p' f hP hP' ((hreach r hP.1 p hP.2).symm.trans hf)
      ((hreach r' hP'.1 p' hP'.2).symm.trans hf')
  · intro r hr p f hp hf
    exact (hslab f).mpr (h.owned r hr p f hp ((hreach r hr p hp) ▸ hf))
  · intro f hf
    rw [hflags, hbase, h.used f ((hslab f).mp hf)]
    constructor
    · rintro (⟨r, hr, p, hp, hf⟩ | hk)
      · exact Or.inl ⟨r, hr, p, hp, by rw [hreach r hr p hp]; exact hf⟩
      · exact Or.inr hk
    · rintro (⟨r, hr, p, hp, hf⟩ | hk)
      · exact Or.inl ⟨r, hr, p, hp, by rw [← hreach r hr p hp]; exact hf⟩
      · exact Or.inr hk
  · intro f hf r hr p hp
    rw [hreach r hr p hp]
    exact h.kernelApart f hf r hr p hp
  · exact fun f hf => (hslab f).mpr (h.kernelInSlab f hf)
  · rw [horig, hslab]
    exact h.originalApart
  · intro i hi
    rw [horig, hclean]
    exact h.originalClean i hi
  · intro r hr i hi
    rw [horig, hclean, hframes r hr [] r lower_nil (by simp) rfl]
    exact h.shared r hr i hi
  · intro r hr q i t hl hq ht hp
    rw [hreach r hr q hl.initial] at ht
    rw [hframes r hr q t hl.initial (by omega) ht] at hp ⊢
    exact h.inner r hr q i t hl hq ht hp

end Accounted

/-! ### Allocating a frame -/

/-- **`malloc4k_phys`** takes a free page, or there is none. -/
theorem malloc4kPhys_cases (m : Machine) :
    (∃ f, InSlab m f ∧ m.slabFlags (f - m.base) = false ∧ malloc4kPhys m =
      .ok (f, { m with slabFlags := Function.update m.slabFlags (f - m.base) true })) ∨
    (malloc4kPhys m = .error .outOfMemory ∧
      ∀ f, InSlab m f → m.slabFlags (f - m.base) = true) := by
  unfold malloc4kPhys
  split
  · rename_i n hn
    have hfree := List.find?_some hn
    have hmem := List.mem_of_find?_eq_some hn
    rw [List.mem_range] at hmem
    refine Or.inl ⟨m.base + n, ⟨by omega, by omega⟩, ?_, ?_⟩
    · simpa using hfree
    · simp
  · rename_i hn
    refine Or.inr ⟨rfl, fun f hf => ?_⟩
    rw [List.find?_eq_none] at hn
    have hn := hn (f - m.base) (by rw [List.mem_range]; have := hf.1; have := hf.2; omega)
    simpa using hn

namespace Accounted

variable {m : Machine} {live kernel : List Nat}

theorem take (h : Accounted m live kernel) {f : Nat} (hf : InSlab m f)
    (hfree : m.slabFlags (f - m.base) = false) :
    Accounted { m with slabFlags := Function.update m.slabFlags (f - m.base) true } live
      (f :: kernel) ∧ f ∉ kernel ∧ ∀ r ∈ live, ∀ p, Lower p → reach m r p ≠ some f := by
  have hun : ¬ ((∃ r ∈ live, ∃ p, Lower p ∧ reach m r p = some f) ∨ f ∈ kernel) := by
    rw [← h.used f hf, hfree]
    simp
  have hapart : ∀ r ∈ live, ∀ p, Lower p → reach m r p ≠ some f := fun r hr p hp he =>
    hun (Or.inl ⟨r, hr, p, hp, he⟩)
  refine ⟨⟨h.addressable, h.nodup, h.separate, h.owned, ?_, ?_, ?_, h.originalApart,
    h.originalClean, h.shared, h.inner⟩, fun hk => hun (Or.inr hk), hapart⟩
  · intro g hg
    by_cases hgf : g = f
    · subst hgf
      simp
    · have hne : g - m.base ≠ f - m.base := by
        have hge : m.base ≤ g := hg.1
        have := hf.1
        omega
      simp only [Function.update_of_ne hne, List.mem_cons, hgf, false_or]
      exact h.used g hg
  · intro g hg r hr p hp
    rcases List.mem_cons.mp hg with rfl | hg
    · exact hapart r hr p hp
    · exact h.kernelApart g hg r hr p hp
  · intro g hg
    rcases List.mem_cons.mp hg with rfl | hg
    · exact hf
    · exact h.kernelInSlab g hg

theorem setKernelFrame (h : Accounted m live kernel) {f : Nat} (hf : f ∈ kernel)
    (content : Frame) : Accounted (m.setFrame f content) live kernel ∧
      ∀ r ∈ live, ∀ p, Lower p → reach (m.setFrame f content) r p = reach m r p := by
  refine h.congr rfl rfl rfl rfl ?_ ?_
  · intro r hr p t hp _ ht
    refine setFrame_other m content ?_
    rintro rfl
    exact h.kernelApart t hf r hr p hp ht
  · exact setFrame_other m content (h.ne_original (h.kernelInSlab f hf)).symm

section

variable {f r₀ : Nat} {p₀ : Path} {live' : List Nat} {m' : Machine}

/-- In `m'` there is one more place, and a frame of the kernel is there. -/
def OneMore (m : Machine) (live : List Nat) (m' : Machine) (live' : List Nat) (r₀ : Nat)
    (p₀ : Path) (f : Nat) : Prop :=
  ∀ r p g, r ∈ live' ∧ Lower p ∧ reach m' r p = some g ↔
    (r = r₀ ∧ p = p₀ ∧ g = f) ∨ r ∈ live ∧ Lower p ∧ reach m r p = some g

theorem separate_of_oneMore (h : Accounted m live (f :: kernel))
    (hmore : OneMore m live m' live' r₀ p₀ f) :
    Separate (child m') fun r p => r ∈ live' ∧ Lower p := by
  have hfresh := h.kernelApart f (by simp)
  rintro r p r' p' g ⟨hr, hp⟩ ⟨hr', hp'⟩ hg hg'
  rcases (hmore r p g).mp ⟨hr, hp, hg⟩ with ⟨rfl, rfl, rfl⟩ | ⟨hr₁, -, hg₁⟩
  · rcases (hmore r' p' g).mp ⟨hr', hp', hg'⟩ with ⟨rfl, rfl, -⟩ | ⟨hr₂, -, hg₂⟩
    · exact ⟨rfl, rfl⟩
    · exact absurd hg₂ (hfresh r' hr₂ p' hp')
  · rcases (hmore r' p' g).mp ⟨hr', hp', hg'⟩ with ⟨rfl, rfl, rfl⟩ | ⟨hr₂, -, hg₂⟩
    · exact absurd hg₁ (hfresh r hr₁ p hp)
    · exact h.separate r p r' p' g ⟨hr₁, hp⟩ ⟨hr₂, hp'⟩ hg₁ hg₂

theorem owned_of_oneMore (h : Accounted m live (f :: kernel))
    (hmore : OneMore m live m' live' r₀ p₀ f) :
    ∀ r ∈ live', ∀ p g, Lower p → reach m' r p = some g → InSlab m g := by
  intro r hr p g hp hg
  rcases (hmore r p g).mp ⟨hr, hp, hg⟩ with ⟨-, -, rfl⟩ | ⟨hr, -, hg⟩
  · exact h.kernelInSlab g (by simp)
  · exact h.owned r hr p g hp hg

theorem used_of_oneMore (h : Accounted m live (f :: kernel))
    (hmore : OneMore m live m' live' r₀ p₀ f) :
    ∀ g, InSlab m g → (m.slabFlags (g - m.base) = true ↔
      (∃ r ∈ live', ∃ p, Lower p ∧ reach m' r p = some g) ∨ g ∈ kernel) := by
  intro g hg
  rw [h.used g hg]
  constructor
  · rintro (⟨r, hr, p, hp, hg⟩ | hg)
    · obtain ⟨hr', -, hg'⟩ := (hmore r p g).mpr (Or.inr ⟨hr, hp, hg⟩)
      exact Or.inl ⟨r, hr', p, hp, hg'⟩
    · rcases List.mem_cons.mp hg with rfl | hg
      · obtain ⟨hr, hp, hg'⟩ := (hmore r₀ p₀ g).mpr (Or.inl ⟨rfl, rfl, rfl⟩)
        exact Or.inl ⟨r₀, hr, p₀, hp, hg'⟩
      · exact Or.inr hg
  · rintro (⟨r, hr, p, hp, hg⟩ | hg)
    · rcases (hmore r p g).mp ⟨hr, hp, hg⟩ with ⟨-, -, rfl⟩ | ⟨hr, -, hg⟩
      · exact Or.inr (by simp)
      · exact Or.inl ⟨r, hr, p, hp, hg⟩
    · exact Or.inr (by simp [hg])

theorem kernelApart_of_oneMore (h : Accounted m live (f :: kernel)) (hk : f ∉ kernel)
    (hmore : OneMore m live m' live' r₀ p₀ f) :
    ∀ g ∈ kernel, ∀ r ∈ live', ∀ p, Lower p → reach m' r p ≠ some g := by
  intro g hg r hr p hp he
  rcases (hmore r p g).mp ⟨hr, hp, he⟩ with ⟨-, -, rfl⟩ | ⟨hr, -, he⟩
  · exact hk hg
  · exact h.kernelApart g (by simp [hg]) r hr p hp he

end

section

variable {f r₀ t : Nat} {q₀ : Path} {i : Fin 512} {e : PageTableEntry}

theorem reach_attach (h : Accounted m live (f :: kernel)) (hr : r₀ ∈ live)
    (ht : reach m r₀ q₀ = some t) (hl : Lower (q₀ ++ [i]))
    (habs : (m.frames t i).present = false) (hpres : e.present = true) (haddr : e.addr.toNat = f)
    (htable : q₀.length < 3 → ∀ j, (m.frames f j).present = false) :
    reach (m.setEntry ⟨t, i⟩ e) r₀ (q₀ ++ [i]) = some f ∧
      ∀ r ∈ live, ∀ p, Lower p → ¬ (r = r₀ ∧ p = q₀ ++ [i]) →
        reach (m.setEntry ⟨t, i⟩ e) r p = reach m r p := by
  have hq : r₀ ∈ live ∧ Lower q₀ := ⟨hr, hl.initial⟩
  have hfresh : ∀ r p, r ∈ live ∧ Lower p → reach m r p ≠ some f := fun r p hP =>
    h.kernelApart f (by simp) r hP.1 p hP.2
  have htf : t ≠ f := fun he => hfresh r₀ q₀ hq (he ▸ ht)
  have hset : child (m.setEntry ⟨t, i⟩ e) t i = some f := by
    rw [child_eq_some, setEntry_same]
    exact ⟨hpres, haddr⟩
  have hsame : ∀ u j, u ≠ f → (u = t → j ≠ i) →
      child (m.setEntry ⟨t, i⟩ e) u j = child m u j := fun u j _ hj =>
    child_congr (setEntry_other m e hj)
  have hleaf : ∀ j s, r₀ ∈ live ∧ Lower (q₀ ++ i :: j :: s) →
      child (m.setEntry ⟨t, i⟩ e) f j = none := by
    intro j s hP
    have hlen := hP.2.1
    rw [List.length_append, List.length_cons, List.length_cons] at hlen
    rw [child_eq_none, setEntry_frame m e htf.symm]
    exact htable (by omega) j
  exact ⟨follow_attach_self (closed live) h.separate hq ht hfresh hset hsame,
    fun r hr' p hp hne => follow_attach (closed live) h.separate hq ht (child_eq_none.mpr habs)
      hfresh hset hsame hleaf ⟨hr', hp⟩ hne⟩

theorem oneMore_attach (hr : r₀ ∈ live) (ht : reach m r₀ q₀ = some t) (hl : Lower (q₀ ++ [i]))
    (habs : (m.frames t i).present = false)
    (hself : reach (m.setEntry ⟨t, i⟩ e) r₀ (q₀ ++ [i]) = some f)
    (hother : ∀ r ∈ live, ∀ p, Lower p → ¬ (r = r₀ ∧ p = q₀ ++ [i]) →
      reach (m.setEntry ⟨t, i⟩ e) r p = reach m r p) :
    OneMore m live (m.setEntry ⟨t, i⟩ e) live r₀ (q₀ ++ [i]) f := by
  have hnone : reach m r₀ (q₀ ++ [i]) = none := by
    have ht' : follow (child m) r₀ q₀ = some t := ht
    rw [reach, follow_concat, ht', Option.bind_some, child_eq_none.mpr habs]
  intro r p g
  by_cases hne : r = r₀ ∧ p = q₀ ++ [i]
  · obtain ⟨rfl, rfl⟩ := hne
    simp [hself, hnone, hr, hl, eq_comm]
  · constructor
    · rintro ⟨hr', hp, hg⟩
      exact Or.inr ⟨hr', hp, hother r hr' p hp hne ▸ hg⟩
    · rintro (⟨rfl, rfl, -⟩ | ⟨hr', hp, hg⟩)
      · exact absurd ⟨rfl, rfl⟩ hne
      · exact ⟨hr', hp, (hother r hr' p hp hne).trans hg⟩

/-- **Hanging a frame into a tree**: a frame of the kernel becomes the child of the table at
`q₀` under `i`. -/
theorem attach (h : Accounted m live (f :: kernel)) (hk : f ∉ kernel) (hr : r₀ ∈ live)
    (ht : reach m r₀ q₀ = some t) (hl : Lower (q₀ ++ [i]))
    (habs : (m.frames t i).present = false) (hpres : e.present = true) (haddr : e.addr.toNat = f)
    (htable : q₀.length < 3 → e.nx = false ∧ ∀ j, (m.frames f j).present = false) :
    Accounted (m.setEntry ⟨t, i⟩ e) live kernel ∧
      reach (m.setEntry ⟨t, i⟩ e) r₀ (q₀ ++ [i]) = some f ∧
      ∀ r ∈ live, ∀ p, Lower p → ¬ (r = r₀ ∧ p = q₀ ++ [i]) →
        reach (m.setEntry ⟨t, i⟩ e) r p = reach m r p := by
  have htf : t ≠ f := fun he => h.kernelApart f (by simp) r₀ hr q₀ hl.initial (he ▸ ht)
  have hot : m.originalKernelPageTable ≠ t :=
    (h.ne_original (h.owned r₀ hr q₀ t hl.initial ht)).symm
  obtain ⟨hself, hother⟩ := h.reach_attach hr ht hl habs hpres haddr fun hlen => (htable hlen).2
  have hmore : OneMore m live (m.setEntry ⟨t, i⟩ e) live r₀ (q₀ ++ [i]) f :=
    oneMore_attach hr ht hl habs hself hother
  refine ⟨?_, hself, hother⟩
  constructor
  · exact h.addressable
  · exact h.nodup
  · exact h.separate_of_oneMore hmore
  · exact h.owned_of_oneMore hmore
  · exact h.used_of_oneMore hmore
  · exact h.kernelApart_of_oneMore hk hmore
  · exact fun g hg => h.kernelInSlab g (by simp [hg])
  · exact h.originalApart
  · intro j hj
    rw [show (m.setEntry ⟨t, i⟩ e).originalKernelPageTable = m.originalKernelPageTable from rfl,
      setEntry_frame m e hot]
    exact h.originalClean j hj
  · intro r hr' j hj
    rw [show (m.setEntry ⟨t, i⟩ e).originalKernelPageTable = m.originalKernelPageTable from rfl,
      setEntry_frame m e hot, setEntry_other m e, h.shared r hr' j hj]
    rintro rfl rfl
    -- the root is changed in its lower half only
    obtain ⟨-, rfl⟩ := h.separate r [] r₀ q₀ r ⟨hr', lower_nil⟩ ⟨hr, hl.initial⟩ rfl ht
    have := hl.2 j rfl
    omega
  · intro r hr' q j u hlq hlen hu hp
    rcases (hmore r q u).mp ⟨hr', hlq.initial, hu⟩ with ⟨rfl, rfl, rfl⟩ | ⟨-, -, hold⟩
    · rw [List.length_append, List.length_singleton] at hlen
      rw [setEntry_frame m e htf.symm, (htable (by omega)).2 j] at hp
      simp at hp
    · by_cases huj : u = t ∧ j = i
      · obtain ⟨rfl, rfl⟩ := huj
        obtain ⟨rfl, rfl⟩ :=
          h.separate r q r₀ q₀ u ⟨hr', hlq.initial⟩ ⟨hr, hl.initial⟩ hold ht
        rw [setEntry_same]
        exact (htable hlen).1
      · have hne : u = t → j ≠ i := fun hut hji => huj ⟨hut, hji⟩
        rw [setEntry_other m e hne] at hp ⊢
        exact h.inner r hr' q j u hlq hlen hold hp

/-- **A frame of the kernel becomes the root** of an empty address space. -/
theorem adopt (h : Accounted m live (f :: kernel)) (hk : f ∉ kernel)
    (hlower : ∀ i : Fin 512, i.val < 256 → (m.frames f i).present = false)
    (hupper : ∀ i : Fin 512, 256 ≤ i.val → m.frames f i =
      m.frames m.originalKernelPageTable i) :
    Accounted m (f :: live) kernel ∧
      ∀ p g, Lower p → reach m f p = some g → p = [] ∧ g = f := by
  have hempty : ∀ p g, Lower p → reach m f p = some g → p = [] ∧ g = f := by
    intro p g hp hg
    cases p with
    | nil => exact ⟨rfl, by simpa using hg.symm⟩
    | cons i p =>
      have := child_eq_none.mpr (hlower i (hp.2 i rfl))
      rw [reach, follow_cons, this] at hg
      simp at hg
  have hnew : f ∉ live := fun hf => h.kernelApart f (by simp) f hf [] lower_nil rfl
  have hmore : OneMore m live m (f :: live) f [] f := by
    intro r p g
    constructor
    · rintro ⟨hr, hp, hg⟩
      rcases List.mem_cons.mp hr with rfl | hr
      · exact Or.inl ⟨rfl, hempty p g hp hg⟩
      · exact Or.inr ⟨hr, hp, hg⟩
    · rintro (⟨rfl, rfl, rfl⟩ | ⟨hr, hp, hg⟩)
      · exact ⟨by simp, lower_nil, rfl⟩
      · exact ⟨List.mem_cons_of_mem _ hr, hp, hg⟩
  refine ⟨?_, hempty⟩
  constructor
  · exact h.addressable
  · exact List.nodup_cons.mpr ⟨hnew, h.nodup⟩
  · exact h.separate_of_oneMore hmore
  · exact h.owned_of_oneMore hmore
  · exact h.used_of_oneMore hmore
  · exact h.kernelApart_of_oneMore hk hmore
  · exact fun g hg => h.kernelInSlab g (by simp [hg])
  · exact h.originalApart
  · exact h.originalClean
  · intro r hr i hi
    rcases List.mem_cons.mp hr with rfl | hr
    · exact hupper i hi
    · exact h.shared r hr i hi
  · intro r hr q i t hl hlen ht hp
    rcases List.mem_cons.mp hr with rfl | hr
    · obtain ⟨rfl, rfl⟩ := hempty q t hl.initial ht
      rw [hlower i (hl.2 i rfl)] at hp
      simp at hp
    · exact h.inner r hr q i t hl hlen ht hp

end

end Accounted

end Stuos.Memory
