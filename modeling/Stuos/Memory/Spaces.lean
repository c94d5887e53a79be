import Stuos.Lib.Lts
import Stuos.Memory.Cloning

/-!
# Address spaces over whole runs

Any number of address spaces, made, extended, cloned and removed in any order, together with
a kernel that takes and gives back pages and writes to what it owns.  `live` are the roots of
the address spaces and `kernel` the frames that the allocator gave to the kernel half and to
drivers; both are only kept for the statements.

* `address_spaces_accounted`: no frame is used twice, the frames marked used are exactly those
  of the address spaces and the kernel's, and removing an address space frees each of its
  frames exactly once and leaves everything else as it was.
-/

namespace Stuos.Memory

open Stuos.Lib

structure Spaces where
  machine : Machine
  live : List Nat
  kernel : List Nat

inductive SpacesOp
  | generate
  | allocate (virt : Nat) (canExecute : Bool)
  | clone (root : Nat)
  | remove
  /-- `set_pml4_phys`. -/
  | setPml4Phys (root : Nat)
  /-- `malloc4k_phys` by the kernel half or a driver. -/
  | kernelTake
  /-- `free4k_phys` of such a page. -/
  | kernelGive (f : Nat)
  /-- A write to a frame that belongs to the kernel. -/
  | kernelWrite (f : Nat) (content : Frame)
  /-- A write to a page of an address space. -/
  | pageWrite (f : Nat) (content : Frame)

namespace Spaces

/-- The frame is the kernel's: one it got from the allocator, or one outside the memory that
is allocated from, other than the page table of the boot. -/
def KernelFrame (s : Spaces) (f : Nat) : Prop :=
  f ∈ s.kernel ∨ (¬ InSlab s.machine f ∧ f ≠ s.machine.originalKernelPageTable)

/-- A page of a live address space. -/
def Page (s : Spaces) (f : Nat) : Prop :=
  ∃ r ∈ s.live, ∃ p, Lower p ∧ p.length = 4 ∧ reach s.machine r p = some f

inductive Step (s : Spaces) : SpacesOp → Spaces → Prop
  | generate {root m'} : generateCleanVirtualAddressing s.machine = .ok (root, m') →
      Step s .generate ⟨m', root :: s.live, s.kernel⟩
  | allocate {virt canExecute m'} : s.machine.cr3 ∈ s.live → (pml4Index virt).val < 256 →
      allocateRamPage s.machine virt canExecute = .ok m' →
      Step s (.allocate virt canExecute) { s with machine := m' }
  | clone {root new m'} : root ∈ s.live → cloneVirtualAddressing s.machine root = .ok (new, m') →
      Step s (.clone root) ⟨m', new :: s.live, s.kernel⟩
  | remove {m'} : s.machine.cr3 ∈ s.live → removeVirtualAddressing s.machine = .ok m' →
      Step s .remove ⟨m', s.live.erase s.machine.cr3, s.kernel⟩
  | setPml4Phys {root} : root ∈ s.live ∨ root = s.machine.originalKernelPageTable →
      Step s (.setPml4Phys root) { s with machine := s.machine.setPml4Phys root }
  | kernelTake {f m'} : malloc4kPhys s.machine = .ok (f, m') →
      Step s .kernelTake ⟨m', s.live, f :: s.kernel⟩
  | kernelGive {f m'} : f ∈ s.kernel → free4kPhys s.machine f = .ok m' →
      Step s (.kernelGive f) ⟨m', s.live, s.kernel.erase f⟩
  | kernelWrite {f content} : s.KernelFrame f →
      Step s (.kernelWrite f content) { s with machine := s.machine.setFrame f content }
  | pageWrite {f content} : s.Page f →
      Step s (.pageWrite f content) { s with machine := s.machine.setFrame f content }

/-- After `memory_init`: the pages in use are the kernel's, and the page table of the boot has
an empty lower half. -/
structure Init (s : Spaces) : Prop where
  addressable : s.machine.base + s.machine.pages ≤ 2 ^ 40
  live : s.live = []
  nodup : s.kernel.Nodup
  inSlab : ∀ f ∈ s.kernel, InSlab s.machine f
  used : ∀ f, InSlab s.machine f →
    (s.machine.slabFlags (f - s.machine.base) = true ↔ f ∈ s.kernel)
  originalApart : ¬ InSlab s.machine s.machine.originalKernelPageTable
  originalClean : ∀ i : Fin 512, i.val < 256 →
    (s.machine.frames s.machine.originalKernelPageTable i).present = false
  cr3 : s.machine.cr3 = s.machine.originalKernelPageTable

end Spaces

def spaces : Lts Spaces SpacesOp where
  init := Spaces.Init
  step := Spaces.Step

/-- What holds in every reachable state. -/
structure Spaces.Inv (s : Spaces) : Prop where
  accounted : Accounted s.machine s.live s.kernel
  nodup : s.kernel.Nodup

namespace Spaces

variable {s s' : Spaces} {op : SpacesOp}

theorem Init.inv (h : Init s) : s.Inv := by
  obtain ⟨m, live, kernel⟩ := s
  obtain ⟨haddr, rfl, hnd, hslab, hused, hapart, hclean, -⟩ := h
  exact ⟨Accounted.boot haddr hslab hused hapart hclean, hnd⟩

end Spaces

/-! ### Every step keeps the accounts -/

section

variable {m m' : Machine} {live kernel : List Nat} {f : Nat}

theorem Accounted.give (h : Accounted m live kernel) (hnd : kernel.Nodup) (hf : f ∈ kernel)
    (he : free4kPhys m f = .ok m') : Accounted m' live (kernel.erase f) := by
  have hslab : m.base ≤ f ∧ f < m.base + m.pages := h.kernelInSlab f hf
  rw [free4kPhys, if_pos hslab, Except.ok.injEq] at he
  subst he
  refine ⟨h.addressable, h.nodup, h.separate, h.owned, ?_, ?_, ?_, h.originalApart, h.originalClean,
    h.shared, h.inner⟩
  · intro g hg
    by_cases hgf : g = f
    · subst hgf
      simp only [Function.update_self, Bool.false_eq_true, false_iff, not_or]
      refine ⟨?_, hnd.not_mem_erase⟩
      rintro ⟨r, hr, p, hp, hreach⟩
      exact h.kernelApart g hf r hr p hp hreach
    · have hne : g - m.base ≠ f - m.base := by
        have hge : m.base ≤ g := hg.1
        omega
      simp only [Function.update_of_ne hne, List.mem_erase_of_ne hgf]
      exact h.used g hg
  · exact fun g hg => h.kernelApart g (List.mem_of_mem_erase hg)
  · exact fun g hg => h.kernelInSlab g (List.mem_of_mem_erase hg)

theorem Accounted.setOutside (h : Accounted m live kernel) (hf : ∀ r ∈ live, ¬ Owned m r f)
    (horig : f ≠ m.originalKernelPageTable) (content : Frame) :
    Accounted (m.setFrame f content) live kernel := by
  have hc : Accounted (m.setFrame f content) live kernel ∧
      ∀ r ∈ live, ∀ p, Lower p → reach (m.setFrame f content) r p = reach m r p := by
    refine h.congr rfl rfl rfl rfl (fun r hr p t hp _ ht => setFrame_other m content ?_)
      (setFrame_other m content horig.symm)
    rintro rfl
    exact hf r hr ⟨p, hp, ht⟩
  exact hc.1

end

namespace Spaces

variable {s s' : Spaces} {op : SpacesOp}

theorem Inv.kernelFrame (h : s.Inv) {f : Nat} (hf : s.KernelFrame f) :
    (∀ r ∈ s.live, ¬ Owned s.machine r f) ∧ f ≠ s.machine.originalKernelPageTable := by
  rcases hf with hk | ⟨hslab, horig⟩
  · exact ⟨fun r hr ⟨p, hp, hreach⟩ => h.accounted.kernelApart f hk r hr p hp hreach,
      h.accounted.ne_original (h.accounted.kernelInSlab f hk)⟩
  · exact ⟨fun r hr ⟨p, hp, hreach⟩ => hslab (h.accounted.owned r hr p f hp hreach), horig⟩

/-- **Every step keeps the accounts.** -/
theorem Inv.step (h : s.Inv) (hstep : Step s op s') : s'.Inv := by
  have ha := h.accounted
  cases hstep with
  | generate he =>
    rcases generate_spec ha with ⟨f, m, he', hgen⟩ | ⟨he', -⟩
    · obtain ⟨rfl, rfl⟩ := Prod.mk.inj (Except.ok.inj (he.symm.trans he'))
      exact ⟨hgen.accounted, h.nodup⟩
    · simp [he'] at he
  | allocate hcr3 hlow he =>
    rename_i virt canExecute m'
    rcases allocateRamPage_spec canExecute ha hcr3 hlow with
      ⟨m, f, he', -, -, h1, -⟩ | ⟨he', -⟩ | ⟨he', -⟩
    · obtain rfl := Except.ok.inj (he.symm.trans he')
      exact ⟨h1, h.nodup⟩
    · simp [he'] at he
    · simp [he'] at he
  | clone hroot he =>
    rcases clone_spec ha hroot with ⟨new, m, he', -, hc⟩ | ⟨he', -⟩
    · obtain ⟨rfl, rfl⟩ := Prod.mk.inj (Except.ok.inj (he.symm.trans he'))
      exact ⟨hc.accounted.setPml4Phys _, h.nodup⟩
    · simp [he'] at he
  | remove hcr3 he =>
    obtain ⟨m, he', h1, -⟩ := remove_spec ha hcr3
    obtain rfl := Except.ok.inj (he.symm.trans he')
    exact ⟨h1, h.nodup⟩
  | setPml4Phys _ => exact ⟨ha.setPml4Phys _, h.nodup⟩
  | kernelTake he =>
    rcases malloc_spec ha with ⟨f, m, he', ht⟩ | ⟨he', -⟩
    · obtain ⟨rfl, rfl⟩ := Prod.mk.inj (Except.ok.inj (he.symm.trans he'))
      exact ⟨ht.accounted, List.nodup_cons.mpr ⟨ht.notKernel, h.nodup⟩⟩
    · simp [he'] at he
  | kernelGive hf he => exact ⟨ha.give h.nodup hf he, h.nodup.erase _⟩
  | kernelWrite hf =>
    obtain ⟨hout, horig⟩ := h.kernelFrame hf
    exact ⟨ha.setOutside hout horig _, h.nodup⟩
  | pageWrite hf =>
    obtain ⟨r, hr, p, hp, hlen, hreach⟩ := hf
    exact ⟨(ha.setPage hr hp hlen hreach _).1, h.nodup⟩

end Spaces

theorem reachable_spaces_inv {s : Spaces} (h : spaces.Reachable s) : s.Inv := by
  refine h.invariant (P := Spaces.Inv) ?_ ?_
  · exact fun s hi => Spaces.Init.inv hi
  · exact fun s op s' hk hstep => hk.step hstep

/-- **Every frame is accounted for** in every reachable state: no frame has two places among
the roots, tables and pages of the live address spaces, the frames marked used are exactly
those and the kernel's, and `remove_virtual_addressing` returns, frees every frame of the
current address space exactly once, and changes no other frame and no other translation. -/
theorem address_spaces_accounted (s : Spaces) (h : spaces.Reachable s) :
    (∀ r p r' p' f, r ∈ s.live → r' ∈ s.live → Lower p → Lower p' →
      reach s.machine r p = some f → reach s.machine r' p' = some f → r = r' ∧ p = p') ∧
    s.live.Nodup ∧
    (∀ f, InSlab s.machine f → (s.machine.slabFlags (f - s.machine.base) = true ↔
      (∃ r ∈ s.live, Owned s.machine r f) ∨ f ∈ s.kernel)) ∧
    (∀ r ∈ s.live, ∀ f, Owned s.machine r f → InSlab s.machine f ∧ f ∉ s.kernel) ∧
    (s.machine.cr3 ∈ s.live → ∃ m' freed, removeVirtualAddressing s.machine = .ok m' ∧
      m'.freeLog = s.machine.freeLog ++ freed ∧ freed.Nodup ∧
      (∀ f, f ∈ freed ↔ Owned s.machine s.machine.cr3 f) ∧
      (∀ f, ¬ Owned s.machine s.machine.cr3 f → m'.frames f = s.machine.frames f) ∧
      ∀ r ∈ s.live, r ≠ s.machine.cr3 → ∀ p, Lower p → reach m' r p = reach s.machine r p) := by
  have ha := (reachable_spaces_inv h).accounted
  refine ⟨?_, ha.nodup, ha.used, ?_, fun hcr3 => ?_⟩
  · exact fun r p r' p' f hr hr' hp hp' => ha.separate r p r' p' f ⟨hr, hp⟩ ⟨hr', hp'⟩
  · rintro r hr f ⟨p, hp, hreach⟩
    exact ⟨ha.owned r hr p f hp hreach, fun hk => ha.kernelApart f hk r hr p hp hreach⟩
  · obtain ⟨m', he, -, -, -, -, -, hlog, hframes, hothers⟩ := remove_spec ha hcr3
    exact ⟨m', _, he, hlog, ha.frameList_snd_nodup hcr3, fun f => mem_frameList_snd, hframes, hothers⟩

/-- Sixteen frames, the first of them the root of an empty address space. -/
def oneRoot : Machine where
  frames := Function.update (fun _ _ => .ofWord 0) 16 fun _ => .ofWord 0
  slabFlags := Function.update (fun _ => false) 0 true
  base := 16
  pages := 16
  cr3 := 16
  originalKernelPageTable := 0
  freeLog := []

theorem reachable_oneRoot : spaces.Reachable ⟨oneRoot, [16], []⟩ := by
  have hinit : Spaces.Init ⟨⟨fun _ _ => .ofWord 0, fun _ => false, 16, 16, 0, 0, []⟩, [], []⟩ :=
    ⟨by decide, rfl, List.nodup_nil, by simp, by simp, fun hslab => absurd hslab.1 (by decide),
      fun _ _ => rfl, rfl⟩
  have r0 : spaces.Reachable _ := .init hinit
  have r1 : spaces.Reachable _ := r0.step (Spaces.Step.generate (generate_eq rfl rfl))
  exact r1.step (a := SpacesOp.setPml4Phys 16) (Spaces.Step.setPml4Phys (Or.inl (by simp)))

/-- An address space with one page is made and removed. -/
theorem address_spaces_accounted_one_page :
    ∃ s f, spaces.Reachable s ∧ s.machine.cr3 ∈ s.live ∧
      reach s.machine s.machine.cr3 (pathOf 4096) = some f ∧
      ∃ m' freed, removeVirtualAddressing s.machine = .ok m' ∧
        m'.freeLog = s.machine.freeLog ++ freed ∧ freed.Nodup ∧ f ∈ freed ∧
        s.machine.cr3 ∈ freed := by
  have hspec := allocateRamPage_spec false (reachable_spaces_inv reachable_oneRoot).accounted
    (by decide) (show (pml4Index 4096).val < 256 by decide)
  obtain ⟨m2, f, ha, -, -, h2, hext, -, hreach, -⟩ | ⟨hbad, -⟩ | ⟨hbad, -⟩ := hspec
  rotate_left
  · exact absurd (congrArg Except.isOk hbad) (by decide)
  · exact absurd (congrArg Except.isOk hbad) (by decide)
  have r3 : spaces.Reachable _ :=
    reachable_oneRoot.step (Spaces.Step.allocate (by decide) (by decide) ha)
  have hcr3 : m2.cr3 = 16 := hext.setup.cr3
  have hlive : m2.cr3 ∈ [16] := by simp [hcr3]
  obtain ⟨-, -, -, -, hremove⟩ := address_spaces_accounted _ r3
  obtain ⟨m', freed, hr, hlog, hnd, hmem, -⟩ := hremove hlive
  have hreach' : reach m2 m2.cr3 (pathOf 4096) = some f := by
    rw [hcr3]
    exact hreach
  refine ⟨_, f, r3, hlive, hreach', m', freed, hr, hlog, hnd, (hmem f).mpr ?_, (hmem _).mpr ?_⟩
  · exact ⟨pathOf 4096, lower_pathOf (by decide), hreach'⟩
  · exact ⟨[], lower_nil, rfl⟩

end Stuos.Memory
