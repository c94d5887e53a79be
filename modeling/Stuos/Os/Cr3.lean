import Stuos.Os.Progress

/-!
# What `CR3` designates

`Drop for Process` puts back the `CR3` it found.  A zombie is dropped while `CR3` is the root of
the process that waited for it, but `Process::replace` drops the running process itself.

* `cr3_live_without_execve`: as long as no program is replaced, `CR3` is the root of a live
  process or the kernel's own table after every step; every `execve` that returns leaves it on
  a frame that is free.
-/

namespace Stuos.Os

open Stuos.Lib Stuos.Memory Stuos.Sched

variable {S F : Type}

namespace System

variable {s s' : System S F}

/-- `CR3` is the kernel's own table, or the root of a live process whose frame is marked
allocated. -/
def Cr3Live (s : System S F) : Prop :=
  s.machine.cr3 = s.machine.originalKernelPageTable ∨
    (s.machine.slabFlags (s.machine.cr3 - s.machine.base) = true ∧
      ∃ pid proc, s.queue.processes pid = some proc ∧ proc.pageTableRoot = s.machine.cr3)

/-- No program is replaced, and the requested pages are in the lower half. -/
def NoExecve (_ : System S F) (event : Event S F) : Prop :=
  LowerRequest event ∧ ∀ image, event ≠ .execve image

theorem Inv.root_allocated (h : s.Inv) {r : Nat} (hr : r ∈ s.roots) :
    s.machine.slabFlags (r - s.machine.base) = true :=
  (h.accounted.used r (h.accounted.rootInSlab hr)).mpr (Or.inl ⟨r, hr, [], lower_nil, rfl⟩)

theorem Inv.cr3Live_iff (h : s.Inv) : s.Cr3Live ↔
    s.machine.cr3 = s.machine.originalKernelPageTable ∨ s.machine.cr3 ∈ s.roots := by
  rw [Cr3Live, ← mem_roots h.table]
  constructor
  · exact Or.imp_right And.right
  · exact Or.imp_right fun hr => ⟨h.root_allocated hr, hr⟩

theorem cr3_set {pid : Pid} {proc proc' : Process S F} (hq : s'.queue = s.queue.set pid proc')
    (hp : s.queue.processes pid = some proc) (he : proc'.pageTableRoot = proc.pageTableRoot)
    (hcr3 : s'.machine.cr3 = s.machine.cr3)
    (horig : s'.machine.originalKernelPageTable = s.machine.originalKernelPageTable)
    (h : s.machine.cr3 = s.machine.originalKernelPageTable ∨ s.machine.cr3 ∈ s.roots) :
    s'.machine.cr3 = s'.machine.originalKernelPageTable ∨ s'.machine.cr3 ∈ s'.roots := by
  rw [hcr3, horig, roots_set hq hp he]
  exact h

/-- **Every step but `execve`** leaves `CR3` on a live page table. -/
theorem Change.cr3 {event : Event S F} (h : s.Inv) (hc : Change s event s')
    (hno : ∀ image, event ≠ .execve image)
    (hcr3 : s.machine.cr3 = s.machine.originalKernelPageTable ∨ s.machine.cr3 ∈ s.roots) :
    s'.machine.cr3 = s'.machine.originalKernelPageTable ∨ s'.machine.cr3 ∈ s'.roots := by
  have h' := hc.inv h
  cases hc with
  | denied hf habove => exact hcr3
  | granted hf hwithin hlow hnone hacc x hreach =>
    exact cr3_set rfl hf.process rfl x.setup.cr3 x.setup.original hcr3
  | limited hf => exact cr3_set rfl hf.process rfl rfl rfl hcr3
  | forked hf hnone hfree hcl =>
    right
    exact (roots_pushed h.table rfl rfl rfl).mem_iff.mp
      (List.mem_cons_of_mem _ (h.root_mem hf.process))
  | replaced hf hl hd => exact absurd rfl (hno _)
  | left hev hf hsame => exact cr3_set rfl hf.process hsame.root rfl rfl hcr3
  | turned hrot hsame =>
    exact Or.inr ((mem_roots h'.table).mpr ⟨_, _, ProcessQueue.set_same .., hsame.root⟩)
  | reaped hrun hrot hsame hz hne ho hd =>
    rename_i pid rest proc proc' z child order m
    have hp : Function.update (s.queue.set pid proc').processes z none pid = some proc' := by
      rw [Function.update_of_ne hne.symm, ProcessQueue.set_same]
    exact Or.inr ((mem_roots h'.table).mpr ⟨pid, proc', hp, hsame.root.trans hd.cr3.symm⟩)
  | worked hw =>
    rw [hw.cr3, hw.original]
    exact hcr3

theorem Init.cr3 (h : Init s) : s.machine.cr3 = s.machine.originalKernelPageTable := by
  obtain ⟨defaultFd, hboot, he⟩ := h
  have hl := instantiate_spec hboot.spaces.inv.accounted he
  rw [hl.cr3, hl.original]
  exact hboot.spaces.cr3

/-- **`execve` leaves `CR3` on the page table that it has freed.** -/
theorem Inv.execve_cr3 {image : Image S} (h : s.Inv) (hrun : s.running = true)
    (he : s.syscallExecve image = .ok s') :
    s'.machine.slabFlags (s'.machine.cr3 - s'.machine.base) = false ∧ ¬ s'.Cr3Live := by
  have hc := execve_cases h he
  have h' := hc.inv h
  have hfree : s'.machine.slabFlags (s'.machine.cr3 - s'.machine.base) = false ∧
      InSlab s'.machine s'.machine.cr3 := by
    cases hc with
    | replaced hf hl hd =>
      rename_i pid proc new m m'
      have hold : m'.cr3 = proc.pageTableRoot := by
        rw [hd.cr3, hl.cr3]
        exact h.current hrun pid proc hf
      dsimp only
      rw [hold, InSlab, hd.untouched.base, hd.untouched.pages, hl.base, hl.pages, ← hl.base]
      refine ⟨hd.freed, ?_⟩
      rw [hl.base]
      exact h.accounted.rootInSlab (h.root_mem hf.process)
    | left hev hf hsame => exact hev.elim
  refine ⟨hfree.1, ?_⟩
  rw [h'.cr3Live_iff]
  rintro (horig | hroot)
  · exact h'.accounted.originalApart (horig ▸ hfree.2)
  · rw [h'.root_allocated hroot] at hfree
    simp at hfree

/-- **`CR3` after every step** of a run without `execve` is the kernel's own table, or the root of
a live process, marked allocated.  An `execve` that returns from there leaves `CR3` on a frame
that is free and the root of no process. -/
theorem cr3_live_without_execve (s₀ s : System S F) (events : List (Event S F))
    (hinit : Init s₀) (hrun : system.Run NoExecve s₀ events s) :
    s.Cr3Live ∧ ∀ image s', s.running = true → s.syscallExecve image = .ok s' →
      s'.machine.slabFlags (s'.machine.cr3 - s'.machine.base) = false ∧ ¬ s'.Cr3Live := by
  have hall : s.Inv ∧ (s.machine.cr3 = s.machine.originalKernelPageTable ∨
      s.machine.cr3 ∈ s.roots) := by
    refine hrun.invariant (P := fun _ s => s.Inv ∧
      (s.machine.cr3 = s.machine.originalKernelPageTable ∨ s.machine.cr3 ∈ s.roots)) ?_
      ⟨hinit.inv, Or.inl hinit.cr3⟩
    rintro - s event s' ⟨h, hcr3⟩ ⟨hlow, hno⟩ ⟨ha, he⟩
    have hc := exec_change h ha hlow he
    exact ⟨hc.inv h, hc.cr3 h hno hcr3⟩
  refine ⟨hall.1.cr3Live_iff.mpr hall.2, ?_⟩
  intro image s' hr he
  exact hall.1.execve_cr3 hr he

/-- The first process runs, and then replaces itself. -/
theorem cr3_live_without_execve_started : ∃ s₀ s s' : System Unit Unit, Init s₀ ∧
    system.Run NoExecve s₀ [.round (fun _ _ _ => none) [1]] s ∧ s.Cr3Live ∧
    s.syscallExecve program = .ok s' ∧
    s'.machine.slabFlags (s'.machine.cr3 - s'.machine.base) = false ∧ ¬ s'.Cr3Live := by
  obtain ⟨s₀, s, hinit, hstep, hr, -, -, -, -, ⟨proc, hf, -⟩, hfree, -⟩ := started_program
  have hrun : system.Run NoExecve s₀ [.round (fun _ _ _ => none) [1]] s :=
    .snoc (.nil s₀) ⟨trivial, by simp⟩ hstep
  obtain ⟨hlive, hbad⟩ := cr3_live_without_execve s₀ s _ hinit hrun
  have hpages : program.pages.length = 19 := rfl
  obtain ⟨s', -, he, -⟩ := execve_ok (run_inv (fun _ _ h => h.1) hrun hinit) hf good_program
    (by rw [hpages]; omega)
  exact ⟨s₀, s, s', hinit, hrun, hlive, he, hbad program s' hr he⟩

/-- **`CR3` designates a freed page table** after the first process has replaced itself. -/
theorem cr3_freed_after_execve : ∃ s : System Unit Unit, system.Reachable s ∧
    s.machine.slabFlags (s.machine.cr3 - s.machine.base) = false ∧
    s.machine.cr3 ≠ s.machine.originalKernelPageTable ∧
    ∀ pid proc, s.queue.processes pid = some proc → proc.pageTableRoot ≠ s.machine.cr3 := by
  obtain ⟨s₀, s, hinit, hstep, hr, -, -, -, -, ⟨proc, hf, -⟩, hfree, -⟩ := started_program
  have hrun : system.Run NoExecve s₀ [.round (fun _ _ _ => none) [1]] s :=
    .snoc (.nil s₀) ⟨trivial, by simp⟩ hstep
  have h := run_inv (fun _ _ h => h.1) hrun hinit
  have hpages : program.pages.length = 19 := rfl
  obtain ⟨s', -, he, -⟩ := execve_ok h hf good_program (by rw [hpages]; omega)
  have hreach : system.Reachable s' :=
    (hrun.reachable (.init hinit)).step (a := .execve program) ⟨hr, he⟩
  obtain ⟨hflag, hdead⟩ := h.execve_cr3 hr he
  have h' := (execve_cases h he).inv h
  rw [h'.cr3Live_iff, not_or] at hdead
  refine ⟨s', hreach, hflag, hdead.1, fun pid proc hp hroot => hdead.2 ?_⟩
  exact (mem_roots h'.table).mpr ⟨pid, proc, hp, hroot⟩

end System

end Stuos.Os
