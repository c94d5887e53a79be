import Stuos.Os.Progress
import Stuos.Os.Requests

/-!
# Isolation of requested pages

Pages of the lower half hang in the tree of one process.  The tables of the upper half are the
same for all processes, and `map_page` makes every page user-accessible.

* `request_page_isolated`: as long as pages are requested in the lower half only, no process but
  the one that has a requested page can access its frame, in either half.
-/

namespace Stuos.Os

open Stuos.Lib Stuos.Memory Stuos.Sched

variable {S F : Type}

namespace System

variable {s s' : System S F} {pid pid' : Pid} {proc proc' : Process S F}

/-- In the upper half a process sees what the kernel's own table has. -/
theorem Inv.userReach_upper (h : s.Inv) (hp : s.queue.processes pid = some proc) {i : Fin 512}
    (hi : 256 ≤ i.val) (p : Path) : userReach s.machine proc.pageTableRoot (i :: p) =
      userReach s.machine s.machine.originalKernelPageTable (i :: p) := by
  rw [userReach, userReach, follow_cons, follow_cons, userChild, userChild,
    h.accounted.shared _ (h.root_mem hp) i hi]

/-- **A frame of one process is not accessible to another.** -/
theorem Inv.isolated (h : s.Inv) (hne : pid ≠ pid') (hp : s.queue.processes pid = some proc)
    (hp' : s.queue.processes pid' = some proc') {q p : Path} {f : Nat} (hq : Lower q)
    (hf : reach s.machine proc.pageTableRoot q = some f) (hlen : p.length = 4) :
    userReach s.machine proc'.pageTableRoot p ≠ some f := by
  intro hu
  obtain ⟨i, p, rfl⟩ := List.exists_cons_of_length_pos (l := p) (by omega)
  have hroot := h.root_mem hp
  by_cases hi : i.val < 256
  · have hlow : Lower (i :: p) := ⟨by omega, fun j hj => Option.some.inj hj ▸ hi⟩
    have hsep := h.accounted.separate _ _ _ _ f ⟨hroot, hq⟩ ⟨h.root_mem hp', hlow⟩ hf
      (reach_of_userReach hu)
    exact h.root_ne hp hp' hne hsep.1
  · rw [h.userReach_upper hp' (Nat.not_lt.mp hi)] at hu
    rw [List.length_cons] at hlen
    rcases h.upper i p f (Nat.not_lt.mp hi) (by omega) hu with hk | hslab
    · exact h.accounted.kernelApart f hk _ hroot q hq hf
    · exact hslab (h.accounted.owned _ hroot q f hq hf)

/-- **Requested pages are isolated** in every run that requests pages of the lower half only: a
frame that a process has from `REQUEST_PAGE` is not accessible to any other process, at any
address. -/
theorem request_page_isolated (s₀ s : System S F) (events : List (Event S F)) (hinit : Init s₀)
    (hrun : system.Run (fun _ event => LowerRequest event) s₀ events s) (pid pid' : Pid)
    (proc proc' : Process S F) (hne : pid ≠ pid') (hp : s.queue.processes pid = some proc)
    (hp' : s.queue.processes pid' = some proc') (virt f : Nat) (hpage : (virt, f) ∈ s.requested pid) :
    reach s.machine proc.pageTableRoot (pathOf virt) = some f ∧
    ∀ p : Path, p.length = 4 → userReach s.machine proc'.pageTableRoot p ≠ some f := by
  obtain ⟨h, hmapped⟩ := run_mapped (fun _ _ hk => hk) hrun hinit
  have hm := hmapped pid proc hp
  have hreach := hm.reach _ hpage
  refine ⟨hreach, fun p hlen => ?_⟩
  exact h.isolated hne hp hp' (lower_pathOf (hm.lower _ hpage)) hreach hlen

/-! ### Two processes -/

theorem forked_program : ∃ s₀ s : System Unit Unit, ∃ proc proc', Init s₀ ∧
    system.Run (fun _ event => LowerRequest event) s₀
      [.round (fun _ _ _ => none) [1], .fork ()] s ∧ s.running = true ∧ s.queue.Front 1 proc ∧
    s.queue.processes 2 = some proc' ∧ proc.memoryLimit = LimitData.default ∧
    reach s.machine proc.pageTableRoot (pathOf 0x401000) = none ∧
    320 ≤ (freePages s.machine).length ∧ Untouched bootKernel boot s.machine := by
  obtain ⟨s₀, s, hinit, hstep, hr, hkernel, -, ho, hnext, ⟨proc, hf, hlimit, hframes, hheap⟩, hfree,
    hu⟩ := started_program
  have hrun : system.Run (fun _ event => LowerRequest event) s₀
      [.round (fun _ _ _ => none) [1]] s := .snoc (.nil s₀) trivial hstep
  have h := run_inv (fun _ _ hk => hk) hrun hinit
  obtain ⟨s', he, -⟩ := fork_ok h hf () (by rw [hnext]; decide) (by omega)
  have hstep' : system.step s (.fork ()) s' := ⟨hr, he⟩
  have hlow : LowerRequest (F := Unit) (.fork ()) := trivial
  have hrun' := hrun.snoc hlow hstep'
  have hc := fork_cases h he
  cases hc with
  | forked hf' hnone hnew hcl =>
    obtain ⟨rfl, rfl⟩ := hf.unique hf'
    have hle := hcl.freePages_le h.accounted
    have hne : (1 : Pid) ≠ s.queue.nextFreePid := by
      rw [hnext]
      decide
    rename_i new m
    have hparent : Function.update s.queue.processes s.queue.nextFreePid
        (some (Process.createWithParent ⟨proc.heapStart, new, ()⟩ proc 1)) 1 = some proc := by
      rw [Function.update_of_ne hne, hf.process]
    have hchild : Function.update s.queue.processes s.queue.nextFreePid
        (some (Process.createWithParent ⟨proc.heapStart, new, ()⟩ proc 1)) 2 =
          some (Process.createWithParent ⟨proc.heapStart, new, ()⟩ proc 1) := by
      rw [hnext, Function.update_self]
    have hset : freePages (m.setPml4Phys proc.pageTableRoot) = freePages m := rfl
    refine ⟨s₀, _, proc, _, hinit, hrun', hr, ⟨⟨[2], ?_⟩, hparent⟩, hchild, hlimit, ?_, ?_, ?_⟩
    · rw [ho, hnext]
      rfl
    · exact (hcl.others _ (h.root_mem hf.process) _ (lower_pathOf (by decide))).trans hheap
    · rw [hset]
      omega
    · have hcu := hcl.untouched h.accounted
      rw [hkernel] at hcu
      exact hu.trans (hcu.trans (.setPml4Phys _ _ _))
  | left hev => exact hev.elim

/-- The parent requests a page of its heap after the fork; the child has no access to it. -/
theorem request_page_isolated_heap : ∃ (s₀ s : System Unit Unit) (proc' : Process Unit Unit) (f : Nat),
    Init s₀ ∧ system.Run (fun _ event => LowerRequest event) s₀
      [.round (fun _ _ _ => none) [1], .fork (), .requestPage 0x401000] s ∧
    s.queue.processes 2 = some proc' ∧ (0x401000, f) ∈ s.requested 1 ∧
    ∀ p : Path, p.length = 4 → userReach s.machine proc'.pageTableRoot p ≠ some f := by
  obtain ⟨s₀, s, proc, proc', hinit, hrun, hr, hf, hp', hlimit, hheap, hfree, -⟩ := forked_program
  have h := run_inv (fun _ _ hk => hk) hrun hinit
  have hle : (missing s.machine proc.pageTableRoot (pathOf 0x401000)).length ≤ 5 :=
    List.length_filter_le _ _
  obtain ⟨s', he⟩ := requestPage_ok 0x401000 h hr hf (by decide)
    (by rw [hlimit]; decide) (by rw [hlimit]; decide) (by decide) hheap (by omega)
  have hlow : LowerRequest (S := Unit) (F := Unit) (.requestPage 0x401000) :=
    show (pml4Index 0x401000).val < 256 by decide
  have hstep : system.step s (.requestPage 0x401000) s' :=
    ⟨hr, map_eq_ok.mpr ⟨(0, s'), he, rfl⟩⟩
  have hrun' := hrun.snoc hlow hstep
  obtain ⟨hc, -⟩ := requestPage_cases h hr hlow he
  cases hc with
  | denied hf' habove =>
    obtain ⟨rfl, rfl⟩ := hf.unique hf'
    rw [hlimit] at habove
    exact absurd habove (by decide)
  | granted hf' hwithin hlow' hnone hacc x hreach =>
    rename_i pid proc₁ m f
    obtain ⟨rfl, rfl⟩ := hf.unique hf'
    have hchild : ∀ x, (s.queue.set 1 x).processes 2 = some proc' := fun x =>
      (s.queue.set_other x (by decide)).trans hp'
    have hpage : (0x401000, f) ∈ Function.update s.requested 1 ((0x401000, f) :: s.requested 1) 1 := by
      rw [Function.update_self]
      exact List.mem_cons_self
    exact ⟨s₀, _, proc', f, hinit, hrun', hchild _, hpage, (request_page_isolated s₀ _ _ hinit hrun' 1
      2 _ proc' (by decide) (s.queue.set_same ..) (hchild _) 0x401000 f hpage).2⟩
  | left hev => exact hev.elim

theorem upper_tables (h : s.Inv) (hu : Untouched bootKernel boot s.machine) {r : Nat}
    (hr : r ∈ s.roots) :
    s.machine.frames r 300 = tableEntry 812 ∧ s.machine.frames 812 0 = tableEntry 1024 ∧
    s.machine.frames 1024 0 = tableEntry 1025 ∧ ∀ i, s.machine.frames 1025 i = .ofWord 0 := by
  have horig : s.machine.originalKernelPageTable = 1 := hu.original
  have hone : s.machine.frames 1 = boot.frames 1 :=
    hu.frames 1 (Or.inr fun hslab => absurd hslab.1 (by decide))
  have hk : ∀ f, 768 ≤ f → f < 1026 → s.machine.frames f = boot.frames f := fun f hlo hhi =>
    hu.frames f (Or.inl (mem_bootKernel.mpr ⟨hlo, hhi⟩))
  refine ⟨?_, ?_, ?_, fun i => ?_⟩
  · rw [h.accounted.shared r hr 300 (by decide), horig, hone]
    rfl
  · rw [hk 812 (by decide) (by decide)]
    rfl
  · rw [hk 1024 (by decide) (by decide)]
    rfl
  · rw [hk 1025 (by decide) (by decide)]
    rfl

/-- **Two processes share a requested page**: the parent requests a page of the upper half after
the fork, and the child translates the same address to the same frame. -/
theorem request_page_shared : ∃ (s : System Unit Unit) (proc proc' : Process Unit Unit) (f : Nat),
    system.Reachable s ∧ s.queue.processes 1 = some proc ∧ s.queue.processes 2 = some proc' ∧
    (0xFFFF960000000000, f) ∈ s.requested 1 ∧
    userReach s.machine proc.pageTableRoot (pathOf 0xFFFF960000000000) = some f ∧
    userReach s.machine proc'.pageTableRoot (pathOf 0xFFFF960000000000) = some f := by
  obtain ⟨s₀, s, proc, proc', hinit, hrun, hr, hf, hp', hlimit, -, hfree, hu⟩ := forked_program
  have h := run_inv (fun _ _ hk => hk) hrun hinit
  have hcr3 := h.current hr 1 proc hf
  have hpath : pathOf 0xFFFF960000000000 = [300, 0, 0, 0] := by decide
  obtain ⟨h300, h812, h1024, h1025⟩ := upper_tables h hu (h.root_mem hf.process)
  have hchild : ∀ {t f : Nat} {i : Fin 512}, s.machine.frames t i = tableEntry f → f < 2 ^ 40 →
      child s.machine t i = some f := fun he hlt =>
    child_eq_some.mpr ⟨by rw [he]; rfl, by rw [he, tableEntry_addr hlt]⟩
  obtain ⟨f, e, m, hfresh, he, hcr3', hframes, hpres, huser, haddr⟩ :=
    allocateRamPage_entry 0xFFFF960000000000 false h.accounted (by omega) (by decide)
      (by rw [hcr3]; exact hchild h300 (by decide)) (hchild h812 (by decide))
      (hchild h1024 (by decide)) (by rw [h1025]; rfl)
  have hreq := requestPage_eq (s := s) hf (by rw [hlimit]; decide) (by rw [hlimit]; decide) he
  have hpt : ptIndex 0xFFFF960000000000 = 0 := by decide
  rw [hpt] at hframes
  have hkept : ∀ {t}, t ≠ 1025 → m.frames t = s.machine.frames t := fun ht => by
    rw [hframes, setEntry_frame s.machine e ht]
  have huse : ∀ {t g : Nat} {i : Fin 512}, m.frames t i = tableEntry g → g < 2 ^ 40 →
      userChild m t i = some g := fun he hlt => by
    rw [userChild, he, if_pos ⟨rfl, rfl⟩, tableEntry_addr hlt]
  have hleaf : userChild m 1025 0 = some f := by
    rw [userChild, hframes, setEntry_same, if_pos ⟨hpres, huser⟩, haddr]
  -- the page is seen through every root
  have hsee : ∀ {r}, r ∈ s.roots → userReach m r (pathOf 0xFFFF960000000000) = some f := by
    intro r hr
    obtain ⟨hr300, -⟩ := upper_tables h hu hr
    have hne : r ≠ 1025 := by
      rintro rfl
      rw [h1025] at hr300
      exact absurd (congrArg PageTableEntry.present hr300) (by decide)
    have hr300' := (congrFun (hkept hne) 300).trans hr300
    have h812' := (congrFun (hkept (by decide : 812 ≠ 1025)) 0).trans h812
    have h1024' := (congrFun (hkept (by decide : 1024 ≠ 1025)) 0).trans h1024
    rw [hpath, userReach, follow_cons, huse hr300' (by decide), Option.bind_some, follow_cons,
      huse h812' (by decide), Option.bind_some, follow_cons, huse h1024' (by decide),
      Option.bind_some, follow_cons, hleaf, Option.bind_some, follow_nil]
  have hreach : system.Reachable _ := (hrun.reachable (.init hinit)).step
    (a := .requestPage 0xFFFF960000000000) ⟨hr, map_eq_ok.mpr ⟨_, hreq, rfl⟩⟩
  have hparent := hsee (h.root_mem hf.process)
  have hframe : reach m m.cr3 (pathOf 0xFFFF960000000000) = some f := by
    rw [hcr3', hcr3]
    exact reach_of_userReach hparent
  refine ⟨_, _, proc', f, hreach, s.queue.set_same .., ?_, ?_, hparent, hsee (h.root_mem hp')⟩
  · exact (s.queue.set_other _ (by decide)).trans hp'
  · dsimp only
    rw [Function.update_self, hframe]
    exact List.mem_cons_self

end System

end Stuos.Os
