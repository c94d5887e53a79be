import Stuos.Sched.Queue

/-!
# What a step can do

The operations of `scheduling.rs` taken apart: for each of them, what the queue was like
when it returned and what it is like afterwards.

* `exec_cases`: every operation appends a new process, changes the process at the front,
  or is a round.
* `round_cases`: a round moves the front to the back, polls the new front, and may wake it
  and remove one zombie child of it.
-/

namespace Stuos.Sched

open Stuos.Lib
open Stuos.Ipc (FopReadResult)

variable {S F : Type}

/-- The queue with one process changed. -/
def ProcessQueue.set (q : ProcessQueue S F) (pid : Pid) (proc : Process S F) :
    ProcessQueue S F :=
  { q with processes := Function.update q.processes pid (some proc) }

@[simp] theorem ProcessQueue.set_order (q : ProcessQueue S F) (pid : Pid) (proc : Process S F) :
    (q.set pid proc).order = q.order := rfl

@[simp] theorem ProcessQueue.set_same (q : ProcessQueue S F) (pid : Pid) (proc : Process S F) :
    (q.set pid proc).processes pid = some proc := by
  simp [ProcessQueue.set]

@[simp] theorem ProcessQueue.set_set (q : ProcessQueue S F) (pid : Pid) (proc proc' : Process S F) :
    (q.set pid proc).set pid proc' = q.set pid proc' := by
  simp [ProcessQueue.set]

theorem ProcessQueue.set_other (q : ProcessQueue S F) {pid p : Pid} (proc : Process S F)
    (h : p ≠ pid) : (q.set pid proc).processes p = q.processes p := by
  simp [ProcessQueue.set, h]

theorem TableInv.set {q : ProcessQueue S F} (h : TableInv q) {pid : Pid} {proc proc' : Process S F}
    (hp : q.processes pid = some proc) (hid : proc'.identity = proc.identity) :
    TableInv (q.set pid proc') :=
  h.update hp hid

/-- The process at the front. -/
structure ProcessQueue.Front (q : ProcessQueue S F) (pid : Pid) (proc : Process S F) : Prop where
  order : ∃ rest, q.order = pid :: rest
  process : q.processes pid = some proc

theorem current_cases {q : ProcessQueue S F} {proc : Process S F} (h : q.current = .ok proc) :
    ∃ pid, q.Front pid proc := by
  simp only [ProcessQueue.current, ProcessQueue.currentPid, bind_eq_ok, orHalt_eq_ok] at h
  obtain ⟨pid, ho, hp⟩ := h
  exact ⟨pid, List.head?_eq_some_iff.mp ho, hp⟩

theorem ProcessQueue.Front.unique {q : ProcessQueue S F} {pid pid' : Pid} {proc proc' : Process S F}
    (h : q.Front pid proc) (h' : q.Front pid' proc') : pid = pid' ∧ proc = proc' := by
  obtain ⟨rest, ho⟩ := h.order
  obtain ⟨rest', ho'⟩ := h'.order
  obtain ⟨rfl, -⟩ := List.cons.inj (ho.symm.trans ho')
  exact ⟨rfl, Option.some.inj (h.process.symm.trans h'.process)⟩

namespace ProcessQueue

variable {q q' : ProcessQueue S F}

theorem modifyCurrent_cases {f : Process S F → Process S F} (he : q.modifyCurrent f = .ok q') :
    ∃ pid proc, q.Front pid proc ∧ q' = q.set pid (f proc) := by
  simp only [modifyCurrent, currentPid, bind_eq_ok, orHalt_eq_ok, Except.ok.injEq] at he
  obtain ⟨pid, ho, proc, hp, rfl⟩ := he
  exact ⟨pid, proc, ⟨List.head?_eq_some_iff.mp ho, hp⟩, rfl⟩

theorem modifyCurrent_front {f : Process S F → Process S F} {pid : Pid} {proc : Process S F}
    (hf : q.Front pid proc) (he : q.modifyCurrent f = .ok q') : q' = q.set pid (f proc) := by
  obtain ⟨pid', proc', hf', rfl⟩ := modifyCurrent_cases he
  obtain ⟨rfl, rfl⟩ := hf.unique hf'
  rfl

/-- **A call that blocks** sets the waiting state of the process at the front, which had
none. -/
theorem block_cases {w : Except Panic WaitingState} {state : S} (he : q.block w state = .ok q') :
    ∃ pid proc w', q.Front pid proc ∧ proc.threads.waitingState = none ∧ w = .ok w' ∧
      q' = q.set pid ((proc.setWaitingState (some w')).setPausedState state) := by
  simp only [block, current, currentPid, bind_eq_ok, orHalt_eq_ok, ensure_eq_ok] at he
  obtain ⟨proc, ⟨pid, ho, hp⟩, _, hnone, w', hw, q₁, h1, h2⟩ := he
  obtain ⟨pid₁, proc₁, hf₁, rfl⟩ := modifyCurrent_cases h1
  obtain ⟨pid₂, proc₂, hf₂, rfl⟩ := modifyCurrent_cases h2
  obtain ⟨rest, ho⟩ := List.head?_eq_some_iff.mp ho
  obtain ⟨rest₁, ho₁⟩ := hf₁.order
  obtain ⟨rest₂, ho₂⟩ := hf₂.order
  rw [set_order] at ho₂
  obtain ⟨rfl, -⟩ : pid₁ = pid ∧ _ := List.cons.inj (ho₁.symm.trans ho)
  obtain ⟨rfl, -⟩ : pid₂ = pid₁ ∧ _ := List.cons.inj (ho₂.symm.trans ho)
  obtain rfl : proc₁ = proc := Option.some.inj (hf₁.process.symm.trans hp)
  have hproc₂ := hf₂.process
  rw [set_same, Option.some.injEq] at hproc₂
  subst hproc₂
  refine ⟨pid₂, proc₁, w', ⟨⟨rest, ho⟩, hp⟩, hnone, hw, ?_⟩
  simp [ProcessQueue.set]

/-- **`push`** appends a child of the process at the front under the next pid. -/
theorem push_cases {defaultFd : List (Option F)} {program : LoadedProgram S} {pid : Pid}
    (hne : q.order ≠ []) (he : q.push defaultFd program = .ok (pid, q')) :
    ∃ parentPid parent, q.Front parentPid parent ∧ pid = q.nextFreePid ∧
      q.processes q.nextFreePid = none ∧
      q' = { processes := Function.update q.processes q.nextFreePid
               (some (Process.createWithParent program parent parentPid))
             order := q.order ++ [q.nextFreePid]
             nextFreePid := q.nextFreePid + 1 } := by
  obtain ⟨parentPid, rest, ho⟩ := List.exists_cons_of_ne_nil hne
  simp only [push, childOf, ho, allocatePid, bind_eq_ok, orHalt_eq_ok, ensure_eq_ok,
    Except.ok.injEq] at he
  obtain ⟨_, ⟨parent, hp, rfl⟩, _, ⟨_, _, rfl⟩, _, hnone, he⟩ := he
  obtain ⟨rfl, rfl⟩ := Prod.mk.inj he
  exact ⟨parentPid, parent, ⟨⟨rest, ho⟩, hp⟩, rfl, hnone, by simp [ho]⟩

end ProcessQueue

/-! ### Polling -/

/-- What `poll` stores when it takes a zombie. -/
def waitStores (status outputPid : Nat) (exitCode : UInt8) : List Store :=
  ⟨outputPid, exitCode.toNat⟩ :: if status = 0 then [] else [⟨status, exitCode.toNat⟩]

/-- A zombie that a process waiting for `childType` takes. -/
structure Process.Taken (proc : Process S F) (childType : ChildType) (z : Pid)
    (child : Process S F) (exitCode : UInt8) : Prop where
  valid : childType.isValid proc.identity.pgrp z child.identity.pgrp = true
  zombie : child.threads.waitingState = some (.amZombie exitCode)

/-- **The loop over the children** finds nothing, or takes one zombie that the filter lets
through. -/
theorem pollChildren_cases {self : Process S F} {childType : ChildType} {status outputPid : Nat}
    {children : List (Pid × Process S F)} {result : PollResult S} {stores : List Store}
    (h : pollChildren childType self.identity.pgrp status outputPid children =
      .ok (result, stores)) :
    (result = .doNothing ∧ stores = []) ∨
    ∃ z child exitCode, (z, child) ∈ children ∧ self.Taken childType z child exitCode ∧
      outputPid ≠ 0 ∧ result = .handleWaiting (some z) ∧
      stores = waitStores status outputPid exitCode := by
  induction children with
  | nil =>
    simp only [pollChildren, Except.ok.injEq, Prod.mk.injEq] at h
    exact Or.inl ⟨h.1.symm, h.2.symm⟩
  | cons c rest ih =>
    obtain ⟨childPid, proc⟩ := c
    rw [pollChildren] at h
    split at h
    · rcases ih h with hn | ⟨z, child, e, hm, ht⟩
      · exact Or.inl hn
      · exact Or.inr ⟨z, child, e, List.mem_cons_of_mem _ hm, ht⟩
    · rename_i hv
      split at h
      · rename_i exitCode hz
        split at h
        · simp at h
        · rename_i hout
          simp only [Except.ok.injEq, Prod.mk.injEq] at h
          refine Or.inr ⟨childPid, proc, exitCode, by simp, ⟨by simpa using hv, hz⟩, hout, ?_⟩
          exact ⟨h.1.symm, h.2.symm⟩
      · rcases ih h with hn | ⟨z, child, e, hm, ht⟩
        · exact Or.inl hn
        · exact Or.inr ⟨z, child, e, List.mem_cons_of_mem _ hm, ht⟩

/-- **`poll`** starts the process, completes its read, takes a zombie, or does nothing. -/
theorem poll_cases {readNonblocking : F → Nat → Nat → Option FopReadResult} {self : Process S F}
    {children : List (Pid × Process S F)} {result : PollResult S} {stores : List Store}
    (h : self.poll readNonblocking children = .ok (result, stores)) :
    result = .doNothing ∨ (∃ state, result = .startUserland state) ∨
    (result = .handleWaiting none ∧ ∃ fdNum buf n ptr, self.threads.waitingState =
      some (.waitingRead fdNum buf n ptr)) ∨
    ∃ childType status outputPid z child exitCode,
      self.threads.waitingState = some (.waitingChild childType status 0 outputPid) ∧
      (z, child) ∈ children ∧ self.Taken childType z child exitCode ∧
      outputPid ≠ 0 ∧ result = .handleWaiting (some z) ∧
      stores = waitStores status outputPid exitCode := by
  unfold Process.poll at h
  split at h
  · simp only [Except.ok.injEq, Prod.mk.injEq] at h
    exact Or.inr (Or.inl ⟨_, h.1.symm⟩)
  · rename_i fdNum buf n ptr hw
    simp only [bind_eq_ok] at h
    obtain ⟨_, -, _, -, _, -, h⟩ := h
    split at h <;> simp only [Except.ok.injEq, Prod.mk.injEq] at h
    · exact Or.inr (Or.inr (Or.inl ⟨h.1.symm, fdNum, buf, n, ptr, hw⟩))
    · exact Or.inl h.1.symm
  · rename_i childType status options outputPid hw
    split at h
    · rename_i ho
      subst ho
      rcases pollChildren_cases h with ⟨hr, -⟩ | ⟨z, child, e, hm, ht, hout, hr, hs⟩
      · exact Or.inl hr
      · exact Or.inr (Or.inr (Or.inr
          ⟨childType, status, outputPid, z, child, e, hw, hm, ht, hout, hr, hs⟩))
    · simp at h
  · simp only [Except.ok.injEq, Prod.mk.injEq] at h
    exact Or.inl h.1.symm

/-! ### Rounds -/

namespace ProcessQueue

variable {q q' : ProcessQueue S F}

theorem mem_children {iteration : List Pid} {pid z : Pid} {child : Process S F} :
    (z, child) ∈ q.children iteration pid ↔
      z ∈ iteration ∧ q.processes z = some child ∧ child.identity.ppid = pid := by
  rw [children, List.mem_filterMap]
  constructor
  · rintro ⟨p, hp, he⟩
    split at he
    · rename_i proc hproc
      split at he
      · rename_i hppid
        simp only [Option.some.injEq, Prod.mk.injEq] at he
        obtain ⟨rfl, rfl⟩ := he
        exact ⟨hp, hproc, hppid⟩
      · simp at he
    · simp at he
  · rintro ⟨hp, hz, hppid⟩
    exact ⟨z, hp, by simp [hz, hppid]⟩

/-- The rotation at the start of a round: `pid` is polled. -/
structure Rotated (q : ProcessQueue S F) (pid : Pid) (rest : List Pid) (proc : Process S F) :
    Prop where
  order : frontToBack q.order = some (pid :: rest)
  process : q.processes pid = some proc

theorem Rotated.unique {pid pid' : Pid} {rest rest' : List Pid} {proc proc' : Process S F}
    (h : q.Rotated pid rest proc) (h' : q.Rotated pid' rest' proc') :
    pid = pid' ∧ rest = rest' ∧ proc = proc' := by
  have horder := h.order.symm.trans h'.order
  rw [Option.some.injEq, List.cons.injEq] at horder
  obtain ⟨rfl, rfl⟩ := horder
  exact ⟨rfl, rfl, Option.some.inj (h.process.symm.trans h'.process)⟩

/-- **Taking a zombie out** of the queue. -/
theorem reap_cases {pid : Pid} (he : q.reap pid = .ok q') :
    ∃ index order, q.order.idxOf? pid = some index ∧ swapRemoveBack q.order index = some order ∧
      q' = { q with processes := Function.update q.processes pid none, order := order } := by
  simp only [reap, bind_eq_ok, orHalt_eq_ok, Except.ok.injEq] at he
  obtain ⟨_, -, index, hi, order, ho, rfl⟩ := he
  exact ⟨index, order, hi, ho, rfl⟩

/-- What a round did to the queue. -/
inductive Round.Effect (q : ProcessQueue S F) (pid : Pid) (rest : List Pid) (proc : Process S F) :
    PollResult S → List Store → ProcessQueue S F → Prop
  | nothing {stores} : Effect q pid rest proc .doNothing stores { q with order := pid :: rest }
  | start {state stores} :
      Effect q pid rest proc (.startUserland state) stores { q with order := pid :: rest }
  | read {fdNum buf n ptr stores} :
      proc.threads.waitingState = some (.waitingRead fdNum buf n ptr) →
      Effect q pid rest proc (.handleWaiting none) stores
        (ProcessQueue.set { q with order := pid :: rest } pid (proc.setWaitingState none))
  | reap {childType status outputPid z child exitCode index order} :
      proc.threads.waitingState = some (.waitingChild childType status 0 outputPid) →
      q.processes z = some child → child.identity.ppid = pid →
      proc.Taken childType z child exitCode → outputPid ≠ 0 →
      (pid :: rest).idxOf? z = some index → swapRemoveBack (pid :: rest) index = some order →
      Effect q pid rest proc (.handleWaiting (some z)) (waitStores status outputPid exitCode)
        { processes := Function.update
            (Function.update q.processes pid (some (proc.setWaitingState none))) z none
          order := order
          nextFreePid := q.nextFreePid }

/-- **A round** moves the front to the back and polls the new front; if that completes a wait,
the process is woken and the zombie it waited for is removed. -/
theorem round_cases {readNonblocking : F → Nat → Nat → Option FopReadResult}
    {iteration : List Pid} {r : Round S}
    (he : q.runNextTaskRound readNonblocking iteration = .ok (r, q')) :
    ∃ rest proc, q.Rotated r.polled rest proc ∧ r.pageTableRoot = proc.pageTableRoot ∧
      Round.Effect q r.polled rest proc r.result r.stores q' := by
  simp only [runNextTaskRound, current, currentPid, bind_eq_ok, orHalt_eq_ok,
    Except.ok.injEq] at he
  obtain ⟨order, hrot, proc, ⟨pid, ho, hp⟩, _, ho', ⟨result, stores⟩, hpoll, q₁, hh, he⟩ := he
  obtain ⟨rest, rfl⟩ := List.head?_eq_some_iff.mp ho
  obtain rfl := Option.some.inj (ho.symm.trans ho')
  obtain ⟨rfl, rfl⟩ := Prod.mk.inj he
  refine ⟨rest, proc, ⟨hrot, hp⟩, rfl, ?_⟩
  simp only at hh hpoll hp ⊢
  rcases poll_cases hpoll with rfl | ⟨state, rfl⟩ | ⟨rfl, fdNum, buf, n, ptr, hw⟩ |
    ⟨childType, status, outputPid, z, child, e, hw, hm, ht, hout, rfl, rfl⟩
  · simp only [handle, Except.ok.injEq] at hh
    exact hh ▸ .nothing
  · simp only [handle, Except.ok.injEq] at hh
    exact hh ▸ .start
  · simp only [handle, bind_eq_ok] at hh
    obtain ⟨q₂, hmod, hq⟩ := hh
    rw [TableInv.modifyCurrent_eq (q := { q with order := pid :: rest }) rfl hp,
      Except.ok.injEq] at hmod
    subst hmod
    rw [Except.ok.injEq] at hq
    exact hq ▸ .read hw
  · simp only [handle, bind_eq_ok] at hh
    obtain ⟨q₂, hmod, hq⟩ := hh
    rw [TableInv.modifyCurrent_eq (q := { q with order := pid :: rest }) rfl hp,
      Except.ok.injEq] at hmod
    subst hmod
    obtain ⟨index, order, hi, hsw, rfl⟩ := reap_cases hq
    obtain ⟨-, hz, hppid⟩ := mem_children.mp hm
    exact .reap hw hz hppid ht hout hi hsw

/-- **A zombie that comes first** in the table is the one that is taken. -/
theorem round_reaps (h : TableInv q) {pid : Pid} {rest : List Pid} {proc : Process S F}
    (hrot : q.Rotated pid rest proc) {childType : ChildType} {status outputPid : Nat}
    (hw : proc.threads.waitingState = some (.waitingChild childType status 0 outputPid))
    (hout : outputPid ≠ 0) {z : Pid} {child : Process S F} {exitCode : UInt8}
    (hz : q.processes z = some child) (hppid : child.identity.ppid = pid)
    (ht : proc.Taken childType z child exitCode)
    (readNonblocking : F → Nat → Nat → Option FopReadResult) (others : List Pid) :
    ∃ q', q.runNextTaskRound readNonblocking (z :: others) = .ok (⟨proc.pageTableRoot, pid,
      .handleWaiting (some z), waitStores status outputPid exitCode⟩, q') := by
  have hq := h.frontToBack hrot.order
  have hchildren : ∃ l, ProcessQueue.children { q with order := pid :: rest } (z :: others) pid =
      (z, child) :: l := by
    rw [children, List.filterMap_cons]
    simp [hz, hppid]
  obtain ⟨l, hl⟩ := hchildren
  have hpoll : proc.poll readNonblocking ((z, child) :: l) =
      .ok (.handleWaiting (some z), waitStores status outputPid exitCode) := by
    have hv := ht.valid
    have hzombie := ht.zombie
    simp only [Process.poll, hw, if_true, pollChildren, hv, hzombie, if_neg hout, waitStores,
      Bool.true_eq_false, if_false]
  have hfront := TableInv.modifyCurrent_eq (q := { q with order := pid :: rest }) rfl
    hrot.process fun proc => proc.setWaitingState none
  have hzpid : z ≠ pid := by
    rintro rfl
    exact absurd (h.parent z child hz) (by rw [hppid]; exact Int.lt_irrefl _)
  have hq₂ : TableInv (ProcessQueue.set { q with order := pid :: rest } pid
      (proc.setWaitingState none)) := hq.update hrot.process rfl
  have hzsome : ((ProcessQueue.set { q with order := pid :: rest } pid
      (proc.setWaitingState none)).processes z).isSome := by
    rw [set_other _ _ hzpid]
    simp [hz]
  obtain ⟨q', hreap, -⟩ := hq₂.reap hzsome (by simpa using hzpid.symm)
  rw [ProcessQueue.set] at hreap
  refine ⟨q', ?_⟩
  simp only [runNextTaskRound, hrot.order, orHalt_some, ok_bind, current, currentPid,
    List.head?_cons, hrot.process, hl, hpoll, handle]
  rw [hfront, ok_bind]
  simp only [hreap, ok_bind]

end ProcessQueue

/-! ### All operations -/

/-- **Every operation** appends a child of the front process, changes the front process but not
its identity, or is a round. -/
theorem exec_cases {defaultFd : List (Option F)} {q q' : ProcessQueue S F} {op : Op S F}
    (hne : q.order ≠ []) (he : op.exec defaultFd q = .ok q') :
    (∃ program parentPid parent, op = .push program ∧ q.Front parentPid parent ∧
      q.processes q.nextFreePid = none ∧
      q' = { processes := Function.update q.processes q.nextFreePid
               (some (Process.createWithParent program parent parentPid))
             order := q.order ++ [q.nextFreePid]
             nextFreePid := q.nextFreePid + 1 }) ∨
    (∃ pid proc proc', q.Front pid proc ∧ q' = q.set pid proc' ∧
      proc'.identity = proc.identity) ∨
    ∃ readNonblocking iteration r, op = .round readNonblocking iteration ∧
      q.runNextTaskRound readNonblocking iteration = .ok (r, q') := by
  cases op with
  | push program =>
    rw [Op.exec] at he
    obtain ⟨⟨pid, q₁⟩, hp, rfl⟩ := map_eq_ok.mp he
    obtain ⟨parentPid, parent, hf, -, hnone, rfl⟩ := ProcessQueue.push_cases hne hp
    exact Or.inl ⟨program, parentPid, parent, rfl, hf, hnone, rfl⟩
  | setCurrentAsZombie exitCode =>
    obtain ⟨pid, proc, hf, rfl⟩ := ProcessQueue.modifyCurrent_cases he
    exact Or.inr (Or.inl ⟨pid, proc, _, hf, rfl, rfl⟩)
  | replace program =>
    obtain ⟨pid, proc, hf, rfl⟩ := ProcessQueue.modifyCurrent_cases he
    exact Or.inr (Or.inl ⟨pid, proc, _, hf, rfl, rfl⟩)
  | wait pid status options outputPid state =>
    obtain ⟨pid, proc, w, hf, -, -, rfl⟩ := ProcessQueue.block_cases he
    exact Or.inr (Or.inl ⟨pid, proc, _, hf, rfl, rfl⟩)
  | readFd fd buffer numBytes read state =>
    obtain ⟨pid, proc, w, hf, -, -, rfl⟩ := ProcessQueue.block_cases he
    exact Or.inr (Or.inl ⟨pid, proc, _, hf, rfl, rfl⟩)
  | interrupted state =>
    obtain ⟨pid, proc, hf, rfl⟩ := ProcessQueue.modifyCurrent_cases he
    exact Or.inr (Or.inl ⟨pid, proc, _, hf, rfl, rfl⟩)
  | round readNonblocking iteration =>
    rw [Op.exec] at he
    obtain ⟨⟨r, q₁⟩, hr, rfl⟩ := map_eq_ok.mp he
    exact Or.inr (Or.inr ⟨readNonblocking, iteration, r, rfl, hr⟩)

end Stuos.Sched
