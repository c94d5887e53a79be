import Stuos.Memory.Spaces

/-!
# What a fresh page holds

`allocate_ram_page` is documented to allocate and zero a page.  It takes a frame and maps
it, and what the frame held before is what the page holds.

* `fresh_pages_zero_iff`: in two histories that differ only in what the free frames hold,
  the page just mapped is all zero in both exactly when the frame that `malloc4k_phys` hands
  out was.
* `fresh_page_leaks`: a buffer that a driver freed comes back as a page of a process.
-/

namespace Stuos.Memory

open Stuos.Lib

def zeroFrame : Frame := fun _ => .ofWord 0

/-- What a process finds in the page at `virt`. -/
def pageAt (m : Machine) (virt : Nat) : Option Frame :=
  (reach m m.cr3 (pathOf virt)).map m.frames

/-- `f` is the frame that `malloc4k_phys` returns next: the lowest free one. -/
def HandsOut (m : Machine) (f : Nat) : Prop := ∃ m', malloc4kPhys m = .ok (f, m')

/-- The two machines differ only in what the free frames hold (and in which frames were
ever freed). -/
structure DifferInFree (m₁ m₂ : Machine) : Prop where
  slabFlags : m₂.slabFlags = m₁.slabFlags
  base : m₂.base = m₁.base
  pages : m₂.pages = m₁.pages
  cr3 : m₂.cr3 = m₁.cr3
  original : m₂.originalKernelPageTable = m₁.originalKernelPageTable
  frames : ∀ f, ¬ Free m₁ f → m₂.frames f = m₁.frames f

variable {m m' : Machine} {live kernel : List Nat}

theorem DifferInFree.handsOut {m₁ m₂ : Machine} (h : DifferInFree m₁ m₂) {f g : Nat}
    (hf : HandsOut m₁ f) (hg : HandsOut m₂ g) : f = g := by
  obtain ⟨m₁', h1⟩ := hf
  obtain ⟨m₂', h2⟩ := hg
  unfold malloc4kPhys at h1 h2
  rw [h.slabFlags, h.pages, h.base] at h2
  split at h1
  · rename_i n hn
    rw [hn] at h2
    simp only [Except.ok.injEq, Prod.mk.injEq] at h1 h2
    omega
  · cases h1

theorem ensureTable_frame {f t : Nat} {q : Path} {i : Fin 512} {r : Nat}
    (h : Accounted m live (f :: kernel)) (hr : r ∈ live) (ht : reach m r q = some t)
    (hl : Lower (q ++ [i])) (hok : ensureTable m ⟨t, i⟩ = .ok m') :
    Accounted m' live (f :: kernel) ∧ m'.frames f = m.frames f ∧
      reach m' r (q ++ [i]) = some (tableBase m' ⟨t, i⟩) := by
  have hused : ∀ g, Free m g → g ≠ f := by
    rintro g hg rfl
    exact (h.not_reached hg).1 (by simp)
  have hidx : q ++ [i] <+: q ++ [i] := List.prefix_refl _
  rcases ensureTable_spec h hr ht hl hidx hused with
    ⟨m1, u, he, h1, hext, hreach, hbase⟩ | ⟨he, -⟩
  · rw [he, Except.ok.injEq] at hok
    subst hok
    rw [hbase]
    refine ⟨h1, hext.frames f (fun hne => hne rfl) ?_, hreach⟩
    exact fun p hp => h.kernelApart f (by simp) r hr p hp
  · rw [he] at hok
    cases hok

/-- **`map_page` does not touch the page it maps.** -/
theorem mapPage_frame {f virt : Nat} {canCache canExecute : Bool}
    (h : Accounted m live (f :: kernel)) (hr : m.cr3 ∈ live) (hlow : (pml4Index virt).val < 256)
    (hok : mapPage m f virt canCache canExecute = .ok m') : m'.frames f = m.frames f := by
  have hl4 : Lower (pathOf virt) := lower_pathOf hlow
  have hl3 : Lower ([pml4Index virt, pdptIndex virt] ++ [pdIndex virt]) :=
    Lower.initial (q := [ptIndex virt]) hl4
  have hl2 : Lower ([pml4Index virt] ++ [pdptIndex virt]) := Lower.initial (q := [pdIndex virt]) hl3
  have hl1 : Lower ([] ++ [pml4Index virt]) := Lower.initial (q := [pdptIndex virt]) hl2
  unfold mapPage at hok
  simp only [bind_eq_ok, Except.ok.injEq] at hok
  obtain ⟨-, -, m1, he1, m2, he2, m3, he3, -, -, rfl⟩ := hok
  -- one table after the other, from the root down
  obtain ⟨h1, hf1, hr1⟩ := ensureTable_frame h hr rfl hl1 he1
  obtain ⟨h2, hf2, hr2⟩ := ensureTable_frame h1 hr hr1 hl2 he2
  obtain ⟨h3, hf3, hr3⟩ := ensureTable_frame h2 hr hr2 hl3 he3
  have hne : f ≠ tableBase m3 ⟨tableBase m2 ⟨tableBase m1 ⟨m.cr3, pml4Index virt⟩,
      pdptIndex virt⟩, pdIndex virt⟩ :=
    fun he => h3.kernelApart f (by simp) _ hr _ hl3 (he ▸ hr3)
  rw [setEntry_frame m3 _ hne, hf3, hf2, hf1]

/-- **A fresh page holds what its frame held.** -/
theorem allocateRamPage_content {virt : Nat} {canExecute : Bool} (h : Accounted m live kernel)
    (hr : m.cr3 ∈ live) (hlow : (pml4Index virt).val < 256)
    (hok : allocateRamPage m virt canExecute = .ok m') :
    ∃ f, HandsOut m f ∧ pageAt m' virt = some (m.frames f) := by
  rcases malloc_spec h with ⟨f, m1, he, htaken⟩ | ⟨he, -⟩
  · unfold allocateRamPage at hok
    rw [he, ok_bind] at hok
    have hcr3 : m1.cr3 = m.cr3 := htaken.setup.cr3
    have hr1 : m1.cr3 ∈ live := hcr3 ▸ hr
    have hframe := mapPage_frame htaken.accounted hr1 hlow hok
    rcases mapPage_spec (F := fun _ => True) true canExecute htaken.accounted htaken.notKernel hr1
        hlow (fun _ _ => trivial) trivial with
      ⟨m2, he2, -, -, -, hext, hreach, -⟩ | ⟨he2, -⟩ | ⟨he2, -⟩
    · rw [he2, Except.ok.injEq] at hok
      subst hok
      refine ⟨f, ⟨m1, he⟩, ?_⟩
      rw [pageAt, hext.setup.cr3, hreach, Option.map_some, hframe, htaken.frames]
    · rw [he2] at hok
      cases hok
    · rw [he2] at hok
      cases hok
  · unfold allocateRamPage at hok
    rw [he] at hok
    cases hok

/-- **Fresh pages are zero exactly if their frames were.**  Two histories that differ only in
what the free frames hold map the same frame, and the new page is all zero in both exactly
when that frame was. -/
theorem fresh_pages_zero_iff {s₁ s₁' s₂ s₂' : Spaces} {virt : Nat} {canExecute : Bool}
    (h₁ : spaces.Reachable s₁) (h₂ : spaces.Reachable s₂)
    (hdiff : DifferInFree s₁.machine s₂.machine)
    (hstep₁ : spaces.step s₁ (.allocate virt canExecute) s₁')
    (hstep₂ : spaces.step s₂ (.allocate virt canExecute) s₂') :
    ∃ f, HandsOut s₁.machine f ∧ HandsOut s₂.machine f ∧
      ((pageAt s₁'.machine virt = pageAt s₂'.machine virt ∧
          pageAt s₁'.machine virt = some zeroFrame) ↔
        s₁.machine.frames f = zeroFrame ∧ s₂.machine.frames f = zeroFrame) := by
  cases hstep₁ with
  | allocate hr₁ hlow ha₁ =>
    cases hstep₂ with
    | allocate hr₂ _ ha₂ =>
      obtain ⟨f, hf, hpage₁⟩ :=
        allocateRamPage_content (reachable_spaces_inv h₁).accounted hr₁ hlow ha₁
      obtain ⟨g, hg, hpage₂⟩ :=
        allocateRamPage_content (reachable_spaces_inv h₂).accounted hr₂ hlow ha₂
      obtain rfl := hdiff.handsOut hf hg
      refine ⟨f, hf, hg, ?_⟩
      simp only [hpage₁, hpage₂, Option.some.injEq]
      constructor
      · rintro ⟨hsame, hzero⟩
        exact ⟨hzero, hsame ▸ hzero⟩
      · rintro ⟨hz₁, hz₂⟩
        exact ⟨hz₁.trans hz₂.symm, hz₁⟩

/-! ### A buffer of a driver -/

/-- A machine with one empty address space, on which a driver had frame 17 for a while. -/
def afterDriver : Machine where
  frames := Function.update (fun _ _ => .ofWord 0) 16 (fun _ => .ofWord 0)
  slabFlags := Function.update (Function.update (Function.update (fun _ => false) 0 true) 1 true)
    1 false
  base := 16
  pages := 16
  cr3 := 16
  originalKernelPageTable := 0
  freeLog := [17]

/-- The driver wrote anything to its frame before it freed it, and the frame is the next page
of the process. -/
theorem afterDriver_reachable (content : Frame) :
    spaces.Reachable ⟨afterDriver.setFrame 17 content, [16], []⟩ ∧
      ∃ s', spaces.step ⟨afterDriver.setFrame 17 content, [16], []⟩ (.allocate 4096 false) s' ∧
        pageAt s'.machine 4096 = some content := by
  have htake : spaces.Reachable _ :=
    reachable_oneRoot.step (Spaces.Step.kernelTake (f := 17) rfl)
  have hwrite : spaces.Reachable _ := htake.step (a := SpacesOp.kernelWrite 17 content)
    (Spaces.Step.kernelWrite (Or.inl (by simp)))
  have hgive : spaces.Reachable ⟨afterDriver.setFrame 17 content, [16], []⟩ :=
    hwrite.step (Spaces.Step.kernelGive (f := 17) (by simp) rfl)
  refine ⟨hgive, ?_⟩
  have hacc := (reachable_spaces_inv hgive).accounted
  have hcr3 : (afterDriver.setFrame 17 content).cr3 ∈ [16] := by simp [afterDriver, Machine.setFrame]
  have hlow : (pml4Index 4096).val < 256 := by decide
  have hisok : (allocateRamPage (afterDriver.setFrame 17 content) 4096 false).isOk = true := rfl
  obtain ⟨m', ha⟩ := exists_of_isOk hisok
  obtain ⟨f, ⟨m1, hf⟩, hpage⟩ := allocateRamPage_content hacc hcr3 hlow ha
  have hf17 : malloc4kPhys (afterDriver.setFrame 17 content) = .ok (17, _) := rfl
  rw [hf17] at hf
  cases hf
  refine ⟨_, Spaces.Step.allocate hcr3 hlow ha, ?_⟩
  rw [hpage, setFrame_same]

theorem afterDriver_differ (content₁ content₂ : Frame) :
    DifferInFree (afterDriver.setFrame 17 content₁) (afterDriver.setFrame 17 content₂) where
  slabFlags := rfl
  base := rfl
  pages := rfl
  cr3 := rfl
  original := rfl
  frames f hf := by
    by_cases h17 : f = 17
    · subst h17
      have hfree : Free afterDriver 17 := ⟨⟨by decide, by decide⟩, by decide⟩
      exact absurd hfree hf
    · rw [setFrame_other _ _ h17, setFrame_other _ _ h17]

theorem fresh_pages_zero_driver :
    ∃ s', spaces.step ⟨afterDriver.setFrame 17 zeroFrame, [16], []⟩ (.allocate 4096 false) s' ∧
      ∃ f, HandsOut (afterDriver.setFrame 17 zeroFrame) f ∧
        (pageAt s'.machine 4096 = some zeroFrame ↔
          (afterDriver.setFrame 17 zeroFrame).frames f = zeroFrame) := by
  obtain ⟨hreach, s', hstep, -⟩ := afterDriver_reachable zeroFrame
  obtain ⟨f, hf, -, hiff⟩ :=
    fresh_pages_zero_iff hreach hreach (afterDriver_differ zeroFrame zeroFrame) hstep hstep
  refine ⟨s', hstep, f, hf, ?_⟩
  rwa [and_iff_right rfl, and_self] at hiff

/-- **Old data reaches a process.**  In two histories that differ in what a driver left in a
frame it freed, the page just mapped holds what the driver left. -/
theorem fresh_page_leaks :
    ∃ s₁ s₁' s₂ s₂', spaces.Reachable s₁ ∧ spaces.Reachable s₂ ∧
      DifferInFree s₁.machine s₂.machine ∧ spaces.step s₁ (.allocate 4096 false) s₁' ∧
      spaces.step s₂ (.allocate 4096 false) s₂' ∧
      pageAt s₂'.machine 4096 = some (fun _ => .ofWord 0x5365637265740000) ∧
      pageAt s₁'.machine 4096 ≠ pageAt s₂'.machine 4096 := by
  obtain ⟨h₁, s₁', hstep₁, hpage₁⟩ := afterDriver_reachable zeroFrame
  obtain ⟨h₂, s₂', hstep₂, hpage₂⟩ := afterDriver_reachable fun _ => .ofWord 0x5365637265740000
  refine ⟨_, s₁', _, s₂', h₁, h₂, afterDriver_differ _ _, hstep₁, hstep₂, hpage₂, ?_⟩
  rw [hpage₁, hpage₂]
  intro hsame
  have hword : zeroFrame 0 = .ofWord 0x5365637265740000 := congrFun (Option.some.inj hsame) 0
  exact absurd hword (by decide)

end Stuos.Memory
