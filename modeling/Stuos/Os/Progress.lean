import Stuos.Memory.Enough
import Stuos.Os.Steps

/-!
# When the system calls return

From a state of the invariant, `fork`, `execve` and `REQUEST_PAGE` can only run out of pages,
pids or of the limit.

* `fork_ok`, `execve_ok`, `requestPage_ok`: enough free pages are enough.
* `booted_boot`: a kernel that has just booted, with which runs can start.
-/

namespace Stuos.Os

open Stuos.Lib Stuos.Memory Stuos.Sched

variable {S F : Type}

namespace System

variable {s : System S F} {pid : Pid} {proc : Process S F}

theorem push_ok {q : ProcessQueue S F} (h : TableInv q) (hf : q.Front pid proc)
    (program : LoadedProgram S) (hpid : q.nextFreePid < pidMax) :
    q.push [] program = .ok (q.nextFreePid,
      { processes := Function.update q.processes q.nextFreePid
          (some (Process.createWithParent program proc pid))
        order := q.order ++ [q.nextFreePid]
        nextFreePid := q.nextFreePid + 1 }) := by
  obtain ⟨rest, ho⟩ := hf.order
  have hnone : q.processes q.nextFreePid = none := by
    cases hp : q.processes q.nextFreePid with
    | none => rfl
    | some x => exact absurd (h.below _ ((h.keys _).mpr (by simp [hp]))) (Int.lt_irrefl _)
  have hchild : ProcessQueue.childOf [] q program =
      .ok (Process.createWithParent program proc pid) := by
    rw [ProcessQueue.childOf, ho]
    simp only [hf.process, orHalt_some, ok_bind]
  rw [ProcessQueue.push, hchild, ok_bind, ProcessQueue.allocatePid, ensure_of hpid, ok_bind, ok_bind,
    ensure_of hnone, ok_bind]

/-- **`fork` returns** if there are as many free pages as the process has frames. -/
theorem fork_ok (h : s.Inv) (hf : s.queue.Front pid proc) (state : S)
    (hpid : s.queue.nextFreePid < pidMax)
    (hfree : (frameList s.machine proc.pageTableRoot).length ≤ (freePages s.machine).length) :
    ∃ s', s.syscallFork state = .ok s' ∧ s'.running = s.running ∧
      s'.queue.order = s.queue.order ++ [s.queue.nextFreePid] := by
  obtain ⟨rest, ho⟩ := hf.order
  rcases clone_spec h.accounted (h.root_mem hf.process) with ⟨new, m, hc, -⟩ | ⟨-, hfew⟩
  swap
  · omega
  have hpush := push_ok h.table hf ⟨proc.heapStart, new, state⟩ hpid
  have hne : pid ≠ s.queue.nextFreePid := (h.table.below pid (by simp [ho])).ne
  have hcurr : ProcessQueue.current
      { processes := Function.update s.queue.processes s.queue.nextFreePid
          (some (Process.createWithParent ⟨proc.heapStart, new, state⟩ proc pid))
        order := s.queue.order ++ [s.queue.nextFreePid]
        nextFreePid := s.queue.nextFreePid + 1 } = .ok proc := by
    have hmem : Function.update s.queue.processes s.queue.nextFreePid
        (some (Process.createWithParent ⟨proc.heapStart, new, state⟩ proc pid)) pid = some proc := by
      rw [Function.update_of_ne hne, hf.process]
    exact TableInv.current_eq (by rw [ho, List.cons_append]) hmem
  simp only [syscallFork, sched, mem, TableInv.currentPid_eq ho, TableInv.current_eq ho hf.process,
    Except.mapError, ok_bind, hc, hpush, hcurr]
  exact ⟨_, rfl, rfl, rfl⟩

/-- **`execve` returns** if there are enough free pages for the new program, and only the pages
of that are mapped then. -/
theorem execve_ok {image : Image S} (h : s.Inv) (hf : s.queue.Front pid proc)
    (hgood : image.Good) (hfree : 5 * image.pages.length < (freePages s.machine).length) :
    ∃ s' proc', s.syscallExecve image = .ok s' ∧ s'.queue.processes pid = some proc' ∧
      proc'.memoryLimit = proc.memoryLimit ∧ s'.requested pid = [] ∧
      ∀ virt, (pml4Index virt).val < 256 →
        (pathOf virt ∉ image.pages.map fun page => pathOf page.1) →
        reach s'.machine proc'.pageTableRoot (pathOf virt) = none := by
  obtain ⟨rest, ho⟩ := hf.order
  obtain ⟨root, m, hload, hl, -, -, hun⟩ := instantiate_ok h.accounted hgood hfree
  obtain ⟨m', hdrop, hd⟩ := drop_spec hl.accounted
    (List.mem_cons_of_mem root (h.root_mem hf.process))
  have hne : root ≠ proc.pageTableRoot := fun he =>
    (h.accounted.not_reached hl.fresh).2 _ (h.root_mem hf.process) [] lower_nil
      (congrArg some he.symm)
  simp only [syscallExecve, sched, mem, TableInv.currentPid_eq ho, TableInv.current_eq ho hf.process,
    Except.mapError, ok_bind, hload, ProcessQueue.replaceCurrentProcess,
    TableInv.modifyCurrent_eq ho hf.process, hdrop]
  refine ⟨_, _, rfl, Function.update_self .., rfl, Function.update_self .., fun virt hlow hnew => ?_⟩
  exact (hd.others root (by simp) hne _ (lower_pathOf hlow)).trans (hun virt hlow hnew)

theorem requestPage_eq {virt : Nat} {m : Machine} (hf : s.queue.Front pid proc)
    (hover : proc.memoryLimit.currentValue + pageSize < 2 ^ 64)
    (hlimit : proc.memoryLimit.currentValue + pageSize ≤ proc.memoryLimit.limit.rlimCur)
    (he : allocateRamPage s.machine virt false = .ok m) :
    s.syscallRequestPage virt = .ok (0, { s with
      machine := m
      queue := s.queue.set pid { proc with memoryLimit :=
        { proc.memoryLimit with currentValue := proc.memoryLimit.currentValue + pageSize } }
      requested := Function.update s.requested pid
        ((virt, (reach m m.cr3 (pathOf virt)).getD 0) :: s.requested pid) }) := by
  obtain ⟨rest, ho⟩ := hf.order
  simp only [syscallRequestPage, LimitData.tryAllocate, sched, mem, TableInv.currentPid_eq ho,
    TableInv.current_eq ho hf.process, Except.mapError, ok_bind, ensure_of hover, he,
    if_neg (Nat.not_lt.mpr hlimit), TableInv.modifyCurrent_eq ho hf.process]
  rfl

/-- **`REQUEST_PAGE` returns 0** within the limit, if the page is aligned and not mapped yet and
there are as many free pages as are missing on its path. -/
theorem requestPage_ok (virt : Nat) (h : s.Inv) (hrun : s.running = true)
    (hf : s.queue.Front pid proc) (hlow : (pml4Index virt).val < 256)
    (hover : proc.memoryLimit.currentValue + pageSize < 2 ^ 64)
    (hlimit : proc.memoryLimit.currentValue + pageSize ≤ proc.memoryLimit.limit.rlimCur)
    (halign : pageOffset virt = 0)
    (hunmapped : reach s.machine proc.pageTableRoot (pathOf virt) = none)
    (hfree : (missing s.machine proc.pageTableRoot (pathOf virt)).length ≤
      (freePages s.machine).length) :
    ∃ s', s.syscallRequestPage virt = .ok (0, s') := by
  have hcr3 := h.current hrun pid proc hf
  have hmem : s.machine.cr3 ∈ s.roots := by
    rw [hcr3]
    exact h.root_mem hf.process
  rw [← hcr3] at hunmapped hfree
  have halloc : ∃ m, allocateRamPage s.machine virt false = .ok m := by
    rcases allocateRamPage_spec false h.accounted hmem hlow with
      ⟨m, f, he, -⟩ | ⟨-, hbad⟩ | ⟨he, -⟩
    · exact ⟨m, he⟩
    · rcases hbad with hbad | hbad
      · exact absurd halign hbad
      · exact absurd hunmapped hbad
    · have := allocateRamPage_few h.accounted hmem hlow hunmapped he
      omega
  obtain ⟨m, he⟩ := halloc
  exact ⟨_, requestPage_eq hf hover hlimit he⟩

/-- **`REQUEST_PAGE` returns `ENOMEM`** above the limit, and nothing changes. -/
theorem requestPage_denied {virt : Nat} (hf : s.queue.Front pid proc)
    (hover : proc.memoryLimit.currentValue + pageSize < 2 ^ 64)
    (hlimit : proc.memoryLimit.limit.rlimCur < proc.memoryLimit.currentValue + pageSize) :
    s.syscallRequestPage virt = .ok (enomem, s) := by
  obtain ⟨rest, ho⟩ := hf.order
  simp only [syscallRequestPage, LimitData.tryAllocate, sched, TableInv.currentPid_eq ho,
    TableInv.current_eq ho hf.process, Except.mapError, ok_bind, ensure_of hover,
    if_pos hlimit]

end System

/-! ### A booted kernel -/

/-- An entry as `setup_page_table_entry` writes it. -/
def tableEntry (f : Nat) : PageTableEntry :=
  { PageTableEntry.ofWord 0 with
    present := true
    readWrite := true
    user := true
    pwt := true
    addr := BitVec.ofNat 40 f }

/-- After `fill_kernel_pml4`: the boot's page table in frame 1 has a table for each entry of the
upper half, in the frames from 768 on, and the kernel has begun to map pages under entry 300; the
pages from 256 to 767 are free. -/
def boot : Machine where
  frames table index :=
    if table = 1 then if 256 ≤ index.val then tableEntry (512 + index.val) else .ofWord 0
    else if table = 812 ∧ index.val = 0 then tableEntry 1024
    else if table = 1024 ∧ index.val = 0 then tableEntry 1025
    else .ofWord 0
  slabFlags page := decide (512 ≤ page)
  base := 256
  pages := 770
  cr3 := 1
  originalKernelPageTable := 1
  freeLog := []

def bootKernel : List Nat := List.range' 768 258

theorem mem_bootKernel {f : Nat} : f ∈ bootKernel ↔ 768 ≤ f ∧ f < 1026 := by
  simp only [bootKernel, List.mem_range'_1]

theorem tableEntry_addr {f : Nat} (hf : f < 2 ^ 40) : (tableEntry f).addr.toNat = f := by
  simp only [tableEntry, BitVec.toNat_ofNat]
  exact Nat.mod_eq_of_lt hf

theorem userChild_boot {t f : Nat} {i : Fin 512} (h : userChild boot t i = some f) :
    f ∈ bootKernel := by
  rw [mem_bootKernel]
  unfold userChild at h
  split at h
  · rename_i hp
    have hf := Option.some.inj h
    subst hf
    simp only [boot] at hp ⊢
    split_ifs at hp ⊢ with h1 h2 h3 h4
    · rw [tableEntry_addr (by omega)]
      omega
    · simp [PageTableEntry.ofWord] at hp
    · rw [tableEntry_addr (by decide)]
      decide
    · rw [tableEntry_addr (by decide)]
      decide
    · simp [PageTableEntry.ofWord] at hp
  · simp at h

/-- **The kernel has booted.** -/
theorem booted_boot : Booted boot bootKernel where
  spaces :=
    { addressable := by decide
      live := rfl
      nodup := List.nodup_range' ..
      inSlab := fun f hf => by
        have hf' := mem_bootKernel.mp hf
        exact ⟨Nat.le_trans (by decide) hf'.1, hf'.2⟩
      used := fun f hf => by
        obtain ⟨hlo, hhi⟩ : 256 ≤ f ∧ f < 1026 := hf
        rw [mem_bootKernel]
        simp only [boot, decide_eq_true_eq]
        omega
      originalApart := fun hslab => absurd hslab.1 (by decide)
      originalClean := fun i hi => by
        simp [boot, Nat.not_le.mpr hi, PageTableEntry.ofWord]
      cr3 := rfl }
  upper i p f _ _ hf := by
    left
    obtain ⟨q, j, hq⟩ : ∃ q j, i :: p = q ++ [j] :=
      ⟨_, _, (List.dropLast_append_getLast (List.cons_ne_nil i p)).symm⟩
    rw [hq, userReach, follow_concat, Option.bind_eq_some_iff] at hf
    obtain ⟨t, -, ht⟩ := hf
    exact userChild_boot ht

theorem freePages_boot : 512 ≤ (freePages boot).length := by
  have hsub : List.range' 256 512 ⊆ freePages boot := by
    intro f hf
    obtain ⟨hlo, hhi⟩ := List.mem_range'_1.mp hf
    have hflag : boot.slabFlags (f - boot.base) = false := by
      simp only [boot, decide_eq_false_iff_not]
      omega
    exact mem_freePages.mpr ⟨⟨hlo, Nat.lt_trans hhi (by decide)⟩, hflag⟩
  have hlen := (List.subperm_of_subset (List.nodup_range' ..) hsub).length_le
  rwa [List.length_range'] at hlen

/-- A program with one page of code, sixteen of stack, and one each for the arguments and the
environment. -/
def program : Image Unit where
  pages := (0x400000, true) :: (List.range 18).map fun k => ((k + 1) * 4096, false)
  heapStart := 0x401000
  initialState := ()

theorem good_program : program.Good where
  range := by decide
  aligned := by decide
  nodup := by decide

/-- **The first process is running**: the program is loaded, and the first round starts it. -/
theorem started_program : ∃ s₀ s : System Unit Unit, System.Init s₀ ∧
    system.step s₀ (.round (fun _ _ _ => none) [1]) s ∧ s.running = true ∧ s.kernel = bootKernel ∧
    (∀ pid, s.requested pid = []) ∧ s.queue.order = [1] ∧ s.queue.nextFreePid = 2 ∧
    (∃ proc, s.queue.Front 1 proc ∧ proc.memoryLimit = LimitData.default ∧
      (frameList s.machine proc.pageTableRoot).length ≤ 96 ∧
      reach s.machine proc.pageTableRoot (pathOf 0x401000) = none) ∧
    416 ≤ (freePages s.machine).length ∧ Untouched bootKernel boot s.machine := by
  have hacc : Accounted boot [] bootKernel := booted_boot.spaces.inv.accounted
  have hfree := freePages_boot
  have hpages : program.pages.length = 19 := rfl
  obtain ⟨root, m, he, hl, hframes, hle, hheap⟩ := instantiate_ok hacc good_program
    (by rw [hpages]; omega)
  rw [hpages] at hframes hle
  have hinit : System.Init _ := System.Init.intro (F := Unit) [] booted_boot he
  refine ⟨_, _, hinit, ⟨⟨rfl, ?_⟩, rfl⟩, rfl, rfl, fun _ => rfl, rfl, rfl,
    ⟨_, ⟨⟨[], rfl⟩, rfl⟩, rfl, hframes, hheap 0x401000 (by decide) (by decide)⟩, ?_, ?_⟩
  · exact ⟨by decide, hinit.inv.table.keys⟩
  · have hset : freePages (m.setPml4Phys root) = freePages m := rfl
    show 416 ≤ (freePages (m.setPml4Phys root)).length
    rw [hset]
    omega
  · exact (hl.untouched hacc).trans (.setPml4Phys _ _ _)

end Stuos.Os
