import Stuos.Os.System

/-!
# What a step does to the whole system

* `exec_change`: every step taken apart, as the change of the process table together with the
  change of the page tables.
* `System.Inv`: the process table is in order, the frames are accounted for by the processes,
  and the running process is in its own address space.
* `Change.inv`: every step keeps that, as long as no page of the upper half is requested.
-/

namespace Stuos.Os

open Stuos.Lib Stuos.Memory Stuos.Sched
open Stuos.Ipc (FopReadResult)

variable {S F : Type}

/-! ### The roots of the processes -/

section

variable {q : ProcessQueue S F} {pid : Pid} {proc proc' : Process S F}

theorem System.rootOf_eq (hp : q.processes pid = some proc) : rootOf q pid = proc.pageTableRoot := by
  rw [rootOf, hp]

theorem System.rootOf_congr {q' : ProcessQueue S F} (h : q'.processes pid = q.processes pid) :
    rootOf q' pid = rootOf q pid := by
  rw [rootOf, rootOf, h]

theorem System.mem_roots {s : System S F} (h : TableInv s.queue) {r : Nat} :
    r ∈ s.roots ↔ ∃ pid proc, s.queue.processes pid = some proc ∧ proc.pageTableRoot = r := by
  rw [roots, List.mem_map]
  constructor
  · rintro ⟨pid, hpid, rfl⟩
    obtain ⟨proc, hp⟩ := Option.isSome_iff_exists.mp ((h.keys pid).mp hpid)
    exact ⟨pid, proc, hp, (rootOf_eq hp).symm⟩
  · rintro ⟨pid, proc, hp, rfl⟩
    exact ⟨pid, (h.keys pid).mpr (by simp [hp]), rootOf_eq hp⟩

theorem System.root_inj {s : System S F} (h : TableInv s.queue) (hn : s.roots.Nodup) {pid' : Pid}
    (hp : s.queue.processes pid = some proc) (hp' : s.queue.processes pid' = some proc')
    (he : proc.pageTableRoot = proc'.pageTableRoot) : pid = pid' := by
  refine List.inj_on_of_nodup_map hn ?_ ?_ ?_
  · exact (h.keys pid).mpr (by simp [hp])
  · exact (h.keys pid').mpr (by simp [hp'])
  · rw [rootOf_eq hp, rootOf_eq hp', he]

theorem System.rootOf_set (hp : q.processes pid = some proc)
    (he : proc'.pageTableRoot = proc.pageTableRoot) : rootOf (q.set pid proc') = rootOf q := by
  funext p
  by_cases hpp : p = pid
  · subst hpp
    rw [rootOf_eq hp, rootOf_eq (q.set_same p proc'), he]
  · exact rootOf_congr (q.set_other proc' hpp)

theorem lookup_set {p : Pid} {x : Process S F} (h : (q.set pid proc').processes p = some x) :
    (p = pid ∧ x = proc') ∨ (p ≠ pid ∧ q.processes p = some x) := by
  by_cases hpp : p = pid
  · subst hpp
    rw [q.set_same] at h
    exact Or.inl ⟨rfl, (Option.some.inj h).symm⟩
  · rw [q.set_other proc' hpp] at h
    exact Or.inr ⟨hpp, h⟩

end

/-! ### Changes -/

/-- The process is the same to the memory. -/
structure SameMemory (proc proc' : Process S F) : Prop where
  root : proc'.pageTableRoot = proc.pageTableRoot
  usage : proc'.memoryLimit.currentValue = proc.memoryLimit.currentValue
  identity : proc'.identity = proc.identity

/-- The system calls and interrupts that only change the process and go on to
`run_next_task`. -/
def Event.Leaves : Event S F → Prop
  | .exit .. | .wait .. | .readFd .. | .interrupted .. => True
  | _ => False

namespace System

/-- **What a step can do**, with all that is known about the page tables afterwards. -/
inductive Change (s : System S F) : Event S F → System S F → Prop
  | denied {virt pid proc} : s.queue.Front pid proc →
      proc.memoryLimit.limit.rlimCur < proc.memoryLimit.currentValue + pageSize →
      Change s (.requestPage virt) s
  | granted {virt pid proc m f} : s.queue.Front pid proc →
      proc.memoryLimit.currentValue + pageSize ≤ proc.memoryLimit.limit.rlimCur →
      (pml4Index virt).val < 256 → reach s.machine proc.pageTableRoot (pathOf virt) = none →
      Accounted m s.roots s.kernel →
      Extends s.roots (Free s.machine) proc.pageTableRoot (pathOf virt) s.machine m →
      reach m proc.pageTableRoot (pathOf virt) = some f →
      Change s (.requestPage virt) { s with
        machine := m
        queue := s.queue.set pid { proc with memoryLimit :=
          { proc.memoryLimit with currentValue := proc.memoryLimit.currentValue + pageSize } }
        requested := Function.update s.requested pid ((virt, f) :: s.requested pid) }
  | limited {resource limit pid proc} : s.queue.Front pid proc →
      Change s (.setrlimit resource limit) { s with
        queue := s.queue.set pid { proc with memoryLimit :=
          { proc.memoryLimit with limit := limit } } }
  | forked {state pid proc new m} : s.queue.Front pid proc →
      s.queue.processes s.queue.nextFreePid = none → Free s.machine new →
      Cloned s.roots s.kernel s.machine proc.pageTableRoot new
        (frameList s.machine proc.pageTableRoot) m →
      Change s (.fork state) { s with
        machine := m.setPml4Phys proc.pageTableRoot
        queue := { processes := Function.update s.queue.processes s.queue.nextFreePid
                     (some (Process.createWithParent ⟨proc.heapStart, new, state⟩ proc pid))
                   order := s.queue.order ++ [s.queue.nextFreePid]
                   nextFreePid := s.queue.nextFreePid + 1 }
        requested := Function.update s.requested s.queue.nextFreePid
          ((s.requested pid).map fun page => (page.1, (reach m new (pathOf page.1)).getD 0)) }
  | replaced {image pid proc new m m'} : s.queue.Front pid proc →
      Loaded s.roots s.kernel s.machine new m →
      Dropped (new :: s.roots) s.kernel m proc.pageTableRoot m' →
      Change s (.execve image) { s with
        machine := m'
        queue := s.queue.set pid (proc.replace ⟨image.heapStart, new, image.initialState⟩)
        running := false
        requested := Function.update s.requested pid [] }
  | left {event pid proc proc'} : event.Leaves → s.queue.Front pid proc → SameMemory proc proc' →
      Change s event { s with queue := s.queue.set pid proc', running := false }
  | turned {readNonblocking iteration pid rest proc proc' running} :
      s.queue.Rotated pid rest proc → SameMemory proc proc' →
      Change s (.round readNonblocking iteration) { s with
        machine := s.machine.setPml4Phys proc.pageTableRoot
        queue := ProcessQueue.set { s.queue with order := pid :: rest } pid proc'
        running := running }
  | reaped {readNonblocking iteration pid rest proc proc' z child order m} : s.running = false →
      s.queue.Rotated pid rest proc → SameMemory proc proc' → s.queue.processes z = some child →
      z ≠ pid → order.Perm ((pid :: rest).erase z) →
      Dropped s.roots s.kernel (s.machine.setPml4Phys proc.pageTableRoot) child.pageTableRoot m →
      Change s (.round readNonblocking iteration) { s with
        machine := m
        queue := { processes := Function.update
                     (s.queue.set pid proc').processes z none
                   order := order
                   nextFreePid := s.queue.nextFreePid }
        requested := Function.update s.requested z [] }
  | worked {m kernel} : s.KernelWork m kernel →
      Change s (.kernelWork m kernel) { s with machine := m, kernel := kernel }

/-- The address of a requested page lies in the lower half. -/
def LowerRequest : Event S F → Prop
  | .requestPage virt => (pml4Index virt).val < 256
  | _ => True

/-- **The invariant of the whole system.** -/
structure Inv (s : System S F) : Prop where
  table : TableInv s.queue
  accounted : Accounted s.machine s.roots s.kernel
  upper : UpperKernel s.machine s.kernel
  current : s.running = true → ∀ pid proc, s.queue.Front pid proc →
    s.machine.cr3 = proc.pageTableRoot

theorem sched_eq_ok {α : Type} {x : Except Panic α} {a : α} : sched x = .ok a ↔ x = .ok a :=
  mapError_eq_ok

theorem mem_eq_ok {α : Type} {x : Except Halt α} {a : α} : mem x = .ok a ↔ x = .ok a :=
  mapError_eq_ok

variable {s s' : System S F} {pid : Pid} {proc : Process S F}

theorem Inv.root_mem (h : s.Inv) (hp : s.queue.processes pid = some proc) :
    proc.pageTableRoot ∈ s.roots :=
  (mem_roots h.table).mpr ⟨pid, proc, hp, rfl⟩

theorem front_cases {q : ProcessQueue S F} (hpid : q.currentPid = .ok pid)
    (hcurr : q.current = .ok proc) : q.Front pid proc := by
  obtain ⟨pid', hf⟩ := current_cases hcurr
  obtain ⟨rest, ho⟩ := hf.order
  rw [TableInv.currentPid_eq ho, Except.ok.injEq] at hpid
  exact hpid ▸ hf

/-- **`syscall_request_page`** is denied above the limit, and otherwise maps the page. -/
theorem requestPage_cases {virt r : Nat} (h : s.Inv) (hrun : s.running = true)
    (hlow : (pml4Index virt).val < 256) (he : s.syscallRequestPage virt = .ok (r, s')) :
    Change s (.requestPage virt) s' ∧ ∃ pid proc, s.queue.Front pid proc ∧
      (r = 0 ↔ proc.memoryLimit.currentValue + pageSize ≤ proc.memoryLimit.limit.rlimCur) := by
  simp only [syscallRequestPage, LimitData.tryAllocate, bind_eq_ok, sched_eq_ok, ensure_eq_ok] at he
  obtain ⟨pid, hpid, proc, hcurr, ⟨result, limit⟩, ⟨_, -, ha⟩, he⟩ := he
  have hf := front_cases hpid hcurr
  split at ha
  · rename_i habove
    obtain ⟨rfl, rfl⟩ := Prod.mk.inj (Except.ok.inj ha)
    obtain ⟨rfl, rfl⟩ := Prod.mk.inj (Except.ok.inj he)
    refine ⟨.denied hf habove, pid, proc, hf, ?_⟩
    simp only [enomem]
    omega
  · rename_i hwithin
    simp only [bind_eq_ok, mem_eq_ok, Except.ok.injEq] at ha
    obtain ⟨_, ⟨m, halloc, rfl⟩, ha⟩ := ha
    obtain ⟨rfl, rfl⟩ := Prod.mk.inj (Except.ok.inj ha)
    simp only [bind_eq_ok, sched_eq_ok, Except.ok.injEq] at he
    obtain ⟨queue, hq, he⟩ := he
    obtain ⟨rfl, rfl⟩ := Prod.mk.inj he
    obtain rfl := ProcessQueue.modifyCurrent_front hf hq
    have hcr3 := h.current hrun pid proc hf
    have hspec := allocateRamPage_spec false h.accounted
      (by rw [hcr3]; exact h.root_mem hf.process) hlow
    rcases hspec with ⟨m', f, he', -, hnone, hacc, x, -, hreach, -⟩ | ⟨he', -⟩ | ⟨he', -⟩
    · obtain rfl := Except.ok.inj (halloc.symm.trans he')
      rw [x.setup.cr3, hcr3] at *
      refine ⟨?_, pid, proc, hf, by omega⟩
      rw [hreach]
      exact .granted hf (by omega) hlow hnone hacc x hreach
    · simp [he'] at halloc
    · simp [he'] at halloc

theorem setrlimit_cases {resource : Int} {limit : RLimit}
    (he : s.syscallSetrlimit resource limit = .ok s') :
    Change s (.setrlimit resource limit) s' := by
  simp only [syscallSetrlimit, LimitData.tryUpdate, bind_eq_ok, sched_eq_ok, ensure_eq_ok,
    Except.ok.injEq] at he
  obtain ⟨_, -, proc, hcurr, _, ⟨_, -, _, -, rfl⟩, queue, hq, rfl⟩ := he
  obtain ⟨pid, hf⟩ := current_cases hcurr
  obtain rfl := ProcessQueue.modifyCurrent_front hf hq
  exact .limited hf

theorem fork_cases {state : S} (h : s.Inv) (he : s.syscallFork state = .ok s') :
    Change s (.fork state) s' := by
  simp only [syscallFork, bind_eq_ok, sched_eq_ok, mem_eq_ok] at he
  obtain ⟨pid, hpid, proc, hcurr, ⟨new, m₁⟩, hclone, ⟨child, q⟩, hpush, proc', hcurr', he⟩ := he
  have hf := front_cases hpid hcurr
  obtain ⟨pid', parent, hf', rfl, hnone, rfl⟩ := ProcessQueue.push_cases h.table.nonempty hpush
  obtain ⟨rfl, rfl⟩ := hf.unique hf'
  rcases clone_spec h.accounted (h.root_mem hf.process) with ⟨new', m, he', hfree, hc⟩ | ⟨he', -⟩
  swap
  · simp [he'] at hclone
  obtain ⟨rfl, rfl⟩ := Prod.mk.inj (Except.ok.inj (hclone.symm.trans he'))
  -- the parent is still at the front
  have hfront : proc' = proc := by
    obtain ⟨pid', hf'⟩ := current_cases hcurr'
    obtain ⟨rest, ho⟩ := hf.order
    obtain ⟨rest', ho'⟩ := hf'.order
    rw [ho, List.cons_append] at ho'
    obtain ⟨rfl, -⟩ := List.cons.inj ho'
    have hne : pid ≠ s.queue.nextFreePid := by
      rintro rfl
      simpa [hnone] using hf.process
    have hp' := hf'.process
    dsimp only at hp'
    rw [Function.update_of_ne hne] at hp'
    exact Option.some.inj (hp'.symm.trans hf.process)
  subst hfront
  obtain rfl := Except.ok.inj he
  exact Change.forked (m := m) hf hnone hfree hc

theorem execve_cases {image : Image S} (h : s.Inv) (he : s.syscallExecve image = .ok s') :
    Change s (.execve image) s' := by
  simp only [syscallExecve, ProcessQueue.replaceCurrentProcess, bind_eq_ok, sched_eq_ok,
    mem_eq_ok] at he
  obtain ⟨pid, hpid, proc, hcurr, ⟨new, m⟩, hload, queue, hq, m', hdrop, he⟩ := he
  have hf := front_cases hpid hcurr
  obtain rfl := ProcessQueue.modifyCurrent_front hf hq
  have hl := instantiate_spec h.accounted hload
  obtain ⟨m'', hdrop', hd⟩ := drop_spec hl.accounted
    (List.mem_cons_of_mem new (h.root_mem hf.process))
  obtain rfl := Except.ok.inj (hdrop.symm.trans hdrop')
  obtain rfl := Except.ok.inj he
  exact .replaced hf hl hd

theorem leave_cases {op : Op S F} {event : Event S F} (hev : event.Leaves)
    (he : s.leave op = .ok s')
    (hop : ∀ q', op.exec [] s.queue = .ok q' → ∃ pid proc proc', s.queue.Front pid proc ∧
      SameMemory proc proc' ∧ q' = s.queue.set pid proc') : Change s event s' := by
  simp only [leave, bind_eq_ok, sched_eq_ok, Except.ok.injEq] at he
  obtain ⟨queue, hq, rfl⟩ := he
  obtain ⟨pid, proc, proc', hf, hsame, rfl⟩ := hop queue hq
  exact .left hev hf hsame

theorem sameMemory_modify {q q' : ProcessQueue S F} (f : Process S F → Process S F)
    (hf : ∀ proc, SameMemory proc (f proc)) (he : q.modifyCurrent f = .ok q') :
    ∃ pid proc proc', q.Front pid proc ∧ SameMemory proc proc' ∧ q' = q.set pid proc' := by
  obtain ⟨pid, proc, hfr, rfl⟩ := ProcessQueue.modifyCurrent_cases he
  exact ⟨pid, proc, f proc, hfr, hf proc, rfl⟩

theorem sameMemory_block {q q' : ProcessQueue S F} {w : Except Panic WaitingState} {state : S}
    (he : q.block w state = .ok q') :
    ∃ pid proc proc', q.Front pid proc ∧ SameMemory proc proc' ∧ q' = q.set pid proc' := by
  obtain ⟨pid, proc, w', hf, -, -, rfl⟩ := ProcessQueue.block_cases he
  have hsame : SameMemory proc ((proc.setWaitingState (some w')).setPausedState state) :=
    ⟨rfl, rfl, rfl⟩
  exact ⟨pid, proc, _, hf, hsame, rfl⟩

theorem set_self {q : ProcessQueue S F} (hp : q.processes pid = some proc) : q.set pid proc = q := by
  rw [ProcessQueue.set, ← hp, Function.update_eq_self]

theorem round_cases {readNonblocking : F → Nat → Nat → Option FopReadResult}
    {iteration : List Pid} (h : s.Inv) (hrun : s.running = false)
    (he : s.round readNonblocking iteration = .ok s') :
    Change s (.round readNonblocking iteration) s' := by
  simp only [round, bind_eq_ok, sched_eq_ok] at he
  obtain ⟨⟨r, q'⟩, hr, he⟩ := he
  obtain ⟨polledRoot, polled, result, stores⟩ := r
  obtain ⟨rest, proc, hrot, rfl, heff⟩ := ProcessQueue.round_cases hr
  dsimp only at hrot heff he
  have hself : ProcessQueue.set { s.queue with order := polled :: rest } polled proc =
      { s.queue with order := polled :: rest } := set_self hrot.process
  cases heff with
  | nothing =>
    obtain rfl := Except.ok.inj he
    rw [← hself]
    exact .turned hrot ⟨rfl, rfl, rfl⟩
  | start =>
    obtain rfl := Except.ok.inj he
    rw [← hself]
    exact .turned hrot ⟨rfl, rfl, rfl⟩
  | read hw =>
    obtain rfl := Except.ok.inj he
    exact .turned hrot ⟨rfl, rfl, rfl⟩
  | reap hw hz hppid ht hout hi hsw =>
    rename_i childType status outputPid z child exitCode index order
    simp only [bind_eq_ok, sched_eq_ok, mem_eq_ok, orHalt_eq_ok] at he
    obtain ⟨zombie, hz', m, hdrop, he⟩ := he
    obtain rfl := Option.some.inj (hz'.symm.trans hz)
    obtain ⟨m', hdrop', hd⟩ := drop_spec (h.accounted.setPml4Phys proc.pageTableRoot)
      (h.root_mem hz)
    obtain rfl := Except.ok.inj (hdrop.symm.trans hdrop')
    obtain rfl := Except.ok.inj he
    have hne : z ≠ polled := by
      rintro rfl
      exact absurd (h.table.parent z zombie hz) (by rw [hppid]; exact Int.lt_irrefl _)
    have hperm : order.Perm ((polled :: rest).erase z) := by
      rw [List.erase_eq_eraseIdx, hi]
      exact swapRemoveBack_perm hsw
    exact .reaped hrun hrot ⟨rfl, rfl, rfl⟩ hz hne hperm hd

/-- **Every step taken apart.** -/
theorem exec_change {event : Event S F} (h : s.Inv) (ha : event.Admissible s)
    (hlow : LowerRequest event) (he : event.exec s = .ok s') : Change s event s' := by
  cases event with
  | requestPage virt =>
    obtain ⟨⟨r, s₁⟩, hr, rfl⟩ := map_eq_ok.mp he
    exact (requestPage_cases h ha hlow hr).1
  | setrlimit resource limit => exact setrlimit_cases he
  | fork state => exact fork_cases h he
  | execve image => exact execve_cases h he
  | exit exitCode =>
    exact leave_cases trivial he fun q' hq =>
      sameMemory_modify (·.setWaitingState (some (.amZombie exitCode))) (fun _ => ⟨rfl, rfl, rfl⟩) hq
  | wait pid status options outputPid state =>
    exact leave_cases trivial he fun q' hq => sameMemory_block hq
  | readFd fd buffer numBytes read state =>
    exact leave_cases trivial he fun q' hq => sameMemory_block hq
  | interrupted state =>
    exact leave_cases trivial he fun q' hq =>
      sameMemory_modify (·.setPausedState state) (fun _ => ⟨rfl, rfl, rfl⟩) hq
  | round readNonblocking iteration => exact round_cases h ha.1 he
  | kernelWork m frames =>
    obtain rfl := Except.ok.inj he
    exact .worked ha

/-! ### The invariant is kept -/

theorem roots_set {proc' : Process S F} (hq : s'.queue = s.queue.set pid proc')
    (hp : s.queue.processes pid = some proc) (he : proc'.pageTableRoot = proc.pageTableRoot) :
    s'.roots = s.roots := by
  rw [roots, hq, rootOf_set hp he]
  rfl

theorem Inv.set {m : Machine} {proc' : Process S F} {running : Bool}
    {requested : Pid → List (Nat × Nat)} (h : s.Inv) (hf : s.queue.Front pid proc)
    (hroot : proc'.pageTableRoot = proc.pageTableRoot) (hid : proc'.identity = proc.identity)
    (hacc : Accounted m s.roots s.kernel) (hu : Untouched s.kernel s.machine m)
    (hcr3 : running = true → m.cr3 = proc.pageTableRoot) :
    Inv { s with machine := m, queue := s.queue.set pid proc', running := running,
                 requested := requested } where
  table := h.table.set hf.process hid
  accounted := Accounted.perm hacc (.of_eq (roots_set rfl hf.process hroot).symm)
  upper := h.upper.untouched h.accounted.originalApart hu
  current hrun pid' proc'' hf' := by
    have hf'' : (s.queue.set pid proc').Front pid proc' := ⟨hf.order, s.queue.set_same pid proc'⟩
    obtain ⟨rfl, rfl⟩ := hf''.unique hf'
    rw [hroot]
    exact hcr3 hrun

theorem roots_pushed (h : TableInv s.queue)
    (hp : s'.queue.processes = Function.update s.queue.processes s.queue.nextFreePid (some proc))
    (ho : s'.queue.order = s.queue.order ++ [s.queue.nextFreePid]) {new : Nat}
    (hnew : proc.pageTableRoot = new) : (new :: s.roots).Perm s'.roots := by
  subst hnew
  refine (List.perm_append_singleton _ _).symm.trans (.of_eq ?_)
  rw [roots, roots, ho, List.map_append]
  symm
  congr 1
  · refine List.map_congr_left fun p hmem => ?_
    have hne : p ≠ s.queue.nextFreePid := (h.below p hmem).ne
    exact rootOf_congr (by rw [hp, Function.update_of_ne hne])
  · rw [List.map_singleton, rootOf_eq (by rw [hp, Function.update_self])]

theorem roots_front {rest : List Pid} (hp : s.queue.processes pid = some proc)
    (ho : s.queue.order = pid :: rest) :
    s.roots = proc.pageTableRoot :: rest.map (rootOf s.queue) := by
  rw [roots, ho, List.map_cons, rootOf_eq hp]

theorem roots_replaced {rest : List Pid} {proc' : Process S F} (h : TableInv s.queue)
    (hq : s'.queue = s.queue.set pid proc') (ho : s.queue.order = pid :: rest) {new : Nat}
    (hnew : proc'.pageTableRoot = new) : (new :: rest.map (rootOf s.queue)).Perm s'.roots := by
  subst hnew
  refine .of_eq (Eq.symm ?_)
  rw [roots, hq, ProcessQueue.set_order, ho, List.map_cons, rootOf_eq (s.queue.set_same pid proc')]
  congr 1
  refine List.map_congr_left fun p hp => ?_
  have hne : p ≠ pid := by
    have := h.nodup
    rw [ho] at this
    exact ne_of_mem_of_not_mem hp (List.nodup_cons.mp this).1
  exact rootOf_congr (s.queue.set_other proc' hne)

theorem roots_reaped {z : Pid} {child proc' : Process S F}
    (h : TableInv s.queue) (hp : s.queue.processes pid = some proc)
    (hroot : proc'.pageTableRoot = proc.pageTableRoot) (hz : s.queue.processes z = some child)
    (hq : s'.queue.processes = Function.update (s.queue.set pid proc').processes z none)
    (ho : s'.queue.order.Perm (s.queue.order.erase z)) :
    (s.roots.erase child.pageTableRoot).Perm s'.roots := by
  have hmem : z ∈ s.queue.order := (h.keys z).mpr (by simp [hz])
  have hroots : (s.roots.erase child.pageTableRoot).Perm
      ((s.queue.order.erase z).map (rootOf s.queue)) := by
    have hperm := ((List.perm_cons_erase hmem).map (rootOf s.queue)).erase child.pageTableRoot
    rw [List.map_cons, rootOf_eq hz, List.erase_cons_head] at hperm
    exact hperm
  refine hroots.trans ((ho.map _).symm.trans ?_)
  refine List.Perm.of_eq (List.map_congr_left fun p hp' => ?_)
  have hne : p ≠ z := ne_of_mem_of_not_mem (ho.mem_iff.mp hp') h.nodup.not_mem_erase
  rw [← rootOf_set hp hroot]
  exact (rootOf_congr (by rw [hq, Function.update_of_ne hne])).symm

theorem tableInv_erase {q : ProcessQueue S F} {z : Pid} {order : List Pid} (h : TableInv q)
    (ho : order.Perm (q.order.erase z)) (hne : order ≠ []) :
    TableInv { q with processes := Function.update q.processes z none, order := order } where
  nodup := ho.nodup_iff.mpr (h.nodup.erase z)
  keys p := by
    rw [ho.mem_iff, h.nodup.mem_erase_iff, h.keys]
    by_cases hp : p = z
    · subst hp
      simp
    · simp [hp]
  nonempty := hne
  below p hp := h.below p (List.mem_of_mem_erase (ho.mem_iff.mp hp))
  parent p x hx := by
    by_cases hp : p = z
    · subst hp
      simp at hx
    · simp only [Function.update_of_ne hp] at hx
      exact h.parent p x hx

/-- **Every step keeps the invariant.** -/
theorem Change.inv {event : Event S F} (h : s.Inv) (hc : Change s event s') : s'.Inv := by
  cases hc with
  | denied hf habove => exact h
  | granted hf hwithin hlow hnone hacc x hreach =>
    refine h.set hf rfl rfl hacc (x.untouched h.accounted (h.root_mem hf.process)) fun hrun => ?_
    rw [x.setup.cr3]
    exact h.current hrun _ _ hf
  | limited hf =>
    exact h.set hf rfl rfl h.accounted ⟨rfl, rfl, rfl, fun _ _ => rfl⟩ fun hrun =>
      h.current hrun _ _ hf
  | forked hf hnone hfree hcl =>
    rename_i state pid proc new m
    obtain ⟨rest, ho⟩ := hf.order
    refine ⟨?_, ?_, ?_, ?_⟩
    · exact TableInv.insert_next h.table.nodup h.table.keys h.table.below h.table.parent
        (h.table.below pid (by simp [ho]))
    · exact Accounted.perm (hcl.accounted.setPml4Phys _)
        (roots_pushed h.table rfl rfl rfl)
    · exact h.upper.untouched h.accounted.originalApart
        ((hcl.untouched h.accounted).trans (.setPml4Phys _ _ _))
    · -- the parent stays at the front
      intro _ pid' proc' hf'
      obtain ⟨rest', ho'⟩ := hf'.order
      have hp' := hf'.process
      dsimp only at ho' hp'
      rw [ho, List.cons_append] at ho'
      obtain ⟨rfl, -⟩ := List.cons.inj ho'
      have hne : pid ≠ s.queue.nextFreePid := (h.table.below pid (by simp [ho])).ne
      rw [Function.update_of_ne hne] at hp'
      rw [← Option.some.inj (hf.process.symm.trans hp')]
      rfl
  | replaced hf hl hd =>
    rename_i image pid proc new m m'
    obtain ⟨rest, ho⟩ := hf.order
    refine ⟨h.table.set hf.process rfl, ?_, ?_, by simp⟩
    · have hne : new ≠ proc.pageTableRoot := fun he =>
        (h.accounted.not_reached hl.fresh).2 _ (h.root_mem hf.process) [] lower_nil
          (congrArg some he.symm)
      have hacc := hd.accounted
      rw [roots_front hf.process ho, List.erase_cons_tail (by simpa using hne),
        List.erase_cons_head] at hacc
      exact Accounted.perm hacc (roots_replaced h.table rfl ho rfl)
    · exact h.upper.untouched h.accounted.originalApart
        ((hl.untouched h.accounted).trans hd.untouched)
  | left hev hf hsame =>
    exact h.set hf hsame.root hsame.identity h.accounted ⟨rfl, rfl, rfl, fun _ _ => rfl⟩ (by simp)
  | turned hrot hsame =>
    rename_i readNonblocking iteration pid rest proc proc' running
    have htable := h.table.frontToBack hrot.order
    refine ⟨htable.set hrot.process hsame.identity, ?_, ?_, ?_⟩
    · rw [roots]
      refine Accounted.perm (h.accounted.setPml4Phys _) ?_
      rw [rootOf_set (q := { s.queue with order := pid :: rest }) hrot.process hsame.root]
      exact ((frontToBack_perm hrot.order).map _).symm
    · exact h.upper.untouched h.accounted.originalApart (.setPml4Phys _ _ _)
    · intro _ pid' proc'' hf'
      have hf'' : (ProcessQueue.set { s.queue with order := pid :: rest } pid proc').Front pid
          proc' := ⟨⟨rest, rfl⟩, ProcessQueue.set_same _ pid proc'⟩
      obtain ⟨rfl, rfl⟩ := hf''.unique hf'
      exact hsame.root.symm
  | reaped hrun hrot hsame hz hne ho hd =>
    rename_i readNonblocking iteration pid rest proc proc' z child order m
    have hperm : order.Perm (s.queue.order.erase z) :=
      ho.trans ((frontToBack_perm hrot.order).erase z)
    have hnonempty : order ≠ [] := by
      have hmem : pid ∈ order := by
        rw [ho.mem_iff]
        exact (List.mem_erase_of_ne hne.symm).mpr (by simp)
      exact List.ne_nil_of_mem hmem
    refine ⟨?_, ?_, ?_, ?_⟩
    · exact tableInv_erase (h.table.set hrot.process hsame.identity) hperm hnonempty
    · exact Accounted.perm hd.accounted (roots_reaped h.table hrot.process hsame.root hz rfl hperm)
    · exact h.upper.untouched h.accounted.originalApart
        (Untouched.trans (.setPml4Phys _ _ _) hd.untouched)
    · simp [hrun]
  | worked hw =>
    exact ⟨h.table, hw.accounted, hw.upper, fun hrun pid proc hf =>
      hw.cr3.trans (h.current hrun pid proc hf)⟩

/-- **The invariant holds at first.** -/
theorem Init.inv (h : Init s) : s.Inv := by
  obtain ⟨defaultFd, hboot, he⟩ := h
  rename_i m kernel image root m'
  have hacc : Accounted m [] kernel := hboot.spaces.inv.accounted
  have hl := instantiate_spec hacc he
  refine ⟨?_, ?_, ?_, by simp⟩
  · exact inv_of_init (init_started defaultFd _)
  · exact hl.accounted
  · exact hboot.upper.untouched hacc.originalApart (hl.untouched hacc)

/-- **The invariant of the whole system** along a run that requests pages of the lower half
only. -/
theorem run_inv {ok : System S F → Event S F → Prop}
    (hok : ∀ s event, ok s event → LowerRequest event) {s₀ : System S F}
    {events : List (Event S F)} (hrun : system.Run ok s₀ events s) (hinit : Init s₀) : s.Inv := by
  refine hrun.invariant (P := fun _ s => s.Inv) ?_ hinit.inv
  rintro - s event s' h hk ⟨ha, he⟩
  exact (exec_change h ha (hok s event hk) he).inv h

end System

end Stuos.Os
