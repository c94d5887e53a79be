import Mathlib.Logic.Function.Basic
import Stuos.Lib.Deque
import Stuos.Lib.Lts
import Stuos.Sched.Process

/-!
# The process queue

`scheduling.rs`: the process table, the order of the processes (the front one is
running) and the counter for new pids, with every operation that changes them.  One
round of the loop of `run_next_task` is `runNextTaskRound`; the hash map gives its
entries in some order, which is an argument of the round.

`TableInv` says how the two containers belong together: the queue is a list without
repetition of exactly the pids in the table, all below the counter, and every process
has a smaller pid than its children.

* `exec_inv`: every operation keeps it, and panics at none of the places that rely on it.
* `scheduler_table_invariant`: so it holds in every state the scheduler can reach.
-/

namespace Stuos.Sched

open Stuos.Lib
open Stuos.Ipc (FopReadResult)

variable {S F : Type}

/-- `ProcessQueue`. -/
structure ProcessQueue (S F : Type) where
  processes : Pid → Option (Process S F)
  order : List Pid
  nextFreePid : Pid

namespace ProcessQueue

def new : ProcessQueue S F where
  processes := fun _ => none
  order := []
  nextFreePid := 1

def currentPid (q : ProcessQueue S F) : Except Panic Pid := orHalt .orderFront q.order.head?

def current (q : ProcessQueue S F) : Except Panic (Process S F) := do
  let pid ← q.currentPid
  orHalt .currentMissing (q.processes pid)

/-- An assignment through `current_mut`. -/
def modifyCurrent (q : ProcessQueue S F) (f : Process S F → Process S F) :
    Except Panic (ProcessQueue S F) := do
  let pid ← q.currentPid
  let proc ← orHalt .currentMissing (q.processes pid)
  .ok { q with processes := Function.update q.processes pid (some (f proc)) }

/-- `allocate_pid`: the pid and the counter after it. -/
def allocatePid (q : ProcessQueue S F) : Except Panic (Pid × Pid) := do
  ensure (q.nextFreePid < pidMax) .pidOverflow
  .ok (q.nextFreePid, q.nextFreePid + 1)

/-- The process that `push` inserts. -/
def childOf (defaultFd : List (Option F)) (q : ProcessQueue S F) (program : LoadedProgram S) :
    Except Panic (Process S F) :=
  match q.order with
  | parentPid :: _ => do
    let parent ← orHalt .parentMissing (q.processes parentPid)
    .ok (Process.createWithParent program parent parentPid)
  | [] => .ok (Process.create defaultFd program)

def push (defaultFd : List (Option F)) (q : ProcessQueue S F) (program : LoadedProgram S) :
    Except Panic (Pid × ProcessQueue S F) := do
  let newProc ← childOf defaultFd q program
  let pids ← q.allocatePid
  ensure (q.processes pids.1 = none) .pidTaken
  .ok (pids.1, { processes := Function.update q.processes pids.1 (some newProc)
                 order := q.order ++ [pids.1]
                 nextFreePid := pids.2 })

def setCurrentAsZombie (q : ProcessQueue S F) (exitCode : UInt8) :
    Except Panic (ProcessQueue S F) :=
  q.modifyCurrent fun proc => proc.setWaitingState (some (.amZombie exitCode))

def replaceCurrentProcess (q : ProcessQueue S F) (program : LoadedProgram S) :
    Except Panic (ProcessQueue S F) :=
  q.modifyCurrent fun proc => proc.replace program

/-- The first lines of `run_next_task`: the state of the interrupted process. -/
def saveInterrupted (q : ProcessQueue S F) (state : S) : Except Panic (ProcessQueue S F) :=
  q.modifyCurrent fun proc => proc.setPausedState state

/-- A system call that blocks: the waiting state is set, and `run_next_task` saves the
processor state. -/
def block (q : ProcessQueue S F) (waitingState : Except Panic WaitingState) (state : S) :
    Except Panic (ProcessQueue S F) := do
  let proc ← q.current
  ensure (proc.threads.waitingState = none) .alreadyWaiting
  let waitingState ← waitingState
  let q ← q.modifyCurrent fun proc => proc.setWaitingState (some waitingState)
  q.saveInterrupted state

/-- `syscall_wait`. -/
def syscallWait (q : ProcessQueue S F) (pid : Pid) (status : Nat) (options : Int)
    (outputPid : Nat) (state : S) : Except Panic (ProcessQueue S F) :=
  q.block ((ChildType.fromPid pid).map fun childType =>
    .waitingChild childType status options outputPid) state

/-- `syscall_read_fd`. -/
def syscallReadFd (q : ProcessQueue S F) (fileDescriptorNumber : Int)
    (buffer numBytes numBytesActuallyRead : Nat) (state : S) :
    Except Panic (ProcessQueue S F) :=
  q.block ((ensure (0 ≤ fileDescriptorNumber) .fdNegative).map fun _ =>
    .waitingRead fileDescriptorNumber.toNat buffer numBytes numBytesActuallyRead) state

/-- The branch of `run_next_task` that removes a zombie. -/
def reap (q : ProcessQueue S F) (pid : Pid) : Except Panic (ProcessQueue S F) := do
  let _ ← orHalt .reapMissing (q.processes pid)
  let index ← orHalt .reapNotQueued (q.order.idxOf? pid)
  let order ← orHalt .reapIndex (swapRemoveBack q.order index)
  .ok { q with processes := Function.update q.processes pid none, order := order }

/-- The entries of the table whose parent is `pid`, as the hash map iterates them. -/
def children (q : ProcessQueue S F) (iteration : List Pid) (pid : Pid) :
    List (Pid × Process S F) :=
  iteration.filterMap fun p =>
    match q.processes p with
    | some proc => if proc.identity.ppid = pid then some (p, proc) else none
    | none => none

/-- What a round of the loop did besides changing the queue: the page table it switched to,
the poll it made of the process at the front, and the stores of that poll. -/
structure Round (S : Type) where
  pageTableRoot : Nat
  polled : Pid
  result : PollResult S
  stores : List Store

/-- What the round does with the poll's result. -/
def handle (q : ProcessQueue S F) : PollResult S → Except Panic (ProcessQueue S F)
  | .doNothing => .ok q
  | .startUserland _ => .ok q
  | .handleWaiting removeZombie => do
    let q ← q.modifyCurrent fun proc => proc.setWaitingState none
    match removeZombie with
    | none => .ok q
    | some pid => q.reap pid

/-- One round of the loop of `run_next_task`. -/
def runNextTaskRound (readNonblocking : F → Nat → Nat → Option FopReadResult)
    (iteration : List Pid) (q : ProcessQueue S F) :
    Except Panic (Round S × ProcessQueue S F) := do
  let order ← orHalt .rotateEmpty (frontToBack q.order)
  let q := { q with order := order }
  let curr ← q.current
  let currPid ← q.currentPid
  let polled ← curr.poll readNonblocking (q.children iteration currPid)
  let q' ← q.handle polled.1
  .ok (⟨curr.pageTableRoot, currPid, polled.1, polled.2⟩, q')

end ProcessQueue

/-! ### The scheduler as a transition system -/

inductive Op (S F : Type)
  | push (program : LoadedProgram S)
  | setCurrentAsZombie (exitCode : UInt8)
  | replace (program : LoadedProgram S)
  | wait (pid : Pid) (status : Nat) (options : Int) (outputPid : Nat) (state : S)
  | readFd (fd : Int) (buffer numBytes numBytesActuallyRead : Nat) (state : S)
  | interrupted (state : S)
  | round (readNonblocking : F → Nat → Nat → Option FopReadResult) (iteration : List Pid)

/-- The pids of the table, each once: an order in which the hash map may iterate. -/
def Enumerates (q : ProcessQueue S F) (iteration : List Pid) : Prop :=
  iteration.Nodup ∧ ∀ p, p ∈ iteration ↔ (q.processes p).isSome

/-- The table is iterated in an order of its entries. -/
def Op.Admissible (q : ProcessQueue S F) : Op S F → Prop
  | .round _ iteration => Enumerates q iteration
  | _ => True

def Op.exec (defaultFd : List (Option F)) (q : ProcessQueue S F) :
    Op S F → Except Panic (ProcessQueue S F)
  | .push program => (q.push defaultFd program).map Prod.snd
  | .setCurrentAsZombie exitCode => q.setCurrentAsZombie exitCode
  | .replace program => q.replaceCurrentProcess program
  | .wait pid status options outputPid state => q.syscallWait pid status options outputPid state
  | .readFd fd buffer numBytes read state => q.syscallReadFd fd buffer numBytes read state
  | .interrupted state => q.saveInterrupted state
  | .round readNonblocking iteration =>
    (q.runNextTaskRound readNonblocking iteration).map Prod.snd

/-- The scheduler, from an empty queue with one program pushed. -/
def scheduler (defaultFd : List (Option F)) : Lts (ProcessQueue S F) (Op S F) where
  init q := ∃ program pid, ProcessQueue.new.push defaultFd program = .ok (pid, q)
  step q op q' := op.Admissible q ∧ op.exec defaultFd q = .ok q'

/-- The places that rely on the table and the queue belonging together. -/
def Panic.ofTable : Panic → Bool
  | .orderFront | .currentMissing | .parentMissing | .pidTaken | .rotateEmpty
  | .reapMissing | .reapNotQueued | .reapIndex => true
  | _ => false

/-! ### The invariant -/

/-- The table and the queue belong together. -/
structure TableInv (q : ProcessQueue S F) : Prop where
  nodup : q.order.Nodup
  keys : ∀ p, p ∈ q.order ↔ (q.processes p).isSome
  nonempty : q.order ≠ []
  below : ∀ p ∈ q.order, p < q.nextFreePid
  parent : ∀ p proc, q.processes p = some proc → proc.identity.ppid < p

/-- A computation that keeps the invariant and panics at none of the places that rely
on it. -/
def Keeps {α : Type} (P : α → Prop) (x : Except Panic α) : Prop :=
  match x with
  | .ok a => P a
  | .error p => p.ofTable = false

theorem Keeps.bind {α β : Type} {P : α → Prop} {Q : β → Prop} {x : Except Panic α}
    {f : α → Except Panic β} (hx : Keeps P x) (hf : ∀ a, x = .ok a → P a → Keeps Q (f a)) :
    Keeps Q (x >>= f) := by
  cases x with
  | error p => exact hx
  | ok a => exact hf a rfl hx

theorem Keeps.mono {α : Type} {P Q : α → Prop} {x : Except Panic α} (hx : Keeps P x)
    (h : ∀ a, P a → Q a) : Keeps Q x := by
  cases x with
  | error p => exact hx
  | ok a => exact h a hx

theorem Keeps.map {α β : Type} {P : α → Prop} {Q : β → Prop} {x : Except Panic α} {f : α → β}
    (hx : Keeps P x) (hf : ∀ a, P a → Q (f a)) : Keeps Q (x.map f) := by
  cases x with
  | error p => exact hx
  | ok a => exact hf a hx

theorem keeps_ensure {p : Prop} [Decidable p] {e : Panic} (he : e.ofTable = false) :
    Keeps (fun _ => p) (ensure p e) := by
  by_cases hp : p
  · rw [ensure_of hp]
    exact hp
  · rw [ensure_of_not hp]
    exact he

theorem keeps_orHalt {α : Type} {o : Option α} {e : Panic} (he : e.ofTable = false) :
    Keeps (fun a => o = some a) (orHalt e o) := by
  cases o with
  | none => exact he
  | some a => rfl

/-! ### Every operation keeps it -/

namespace TableInv

variable {q : ProcessQueue S F}

theorem front (h : TableInv q) :
    ∃ pid rest proc, q.order = pid :: rest ∧ q.processes pid = some proc := by
  obtain ⟨pid, rest, ho⟩ := List.exists_cons_of_ne_nil h.nonempty
  obtain ⟨proc, hp⟩ := Option.isSome_iff_exists.mp ((h.keys pid).mp (by simp [ho]))
  exact ⟨pid, rest, proc, ho, hp⟩

theorem currentPid_eq {pid : Pid} {rest : List Pid} (ho : q.order = pid :: rest) :
    q.currentPid = .ok pid := by
  rw [ProcessQueue.currentPid, ho]
  rfl

theorem current_eq {pid : Pid} {rest : List Pid} {proc : Process S F}
    (ho : q.order = pid :: rest) (hp : q.processes pid = some proc) : q.current = .ok proc := by
  rw [ProcessQueue.current, currentPid_eq ho, ok_bind, hp]
  rfl

theorem modifyCurrent_eq {pid : Pid} {rest : List Pid} {proc : Process S F}
    (ho : q.order = pid :: rest) (hp : q.processes pid = some proc)
    (f : Process S F → Process S F) : q.modifyCurrent f =
      .ok { q with processes := Function.update q.processes pid (some (f proc)) } := by
  rw [ProcessQueue.modifyCurrent, currentPid_eq ho, ok_bind, hp]
  rfl

theorem update (h : TableInv q) {pid : Pid} {proc proc' : Process S F}
    (hp : q.processes pid = some proc) (hid : proc'.identity = proc.identity) :
    TableInv { q with processes := Function.update q.processes pid (some proc') } where
  nodup := h.nodup
  keys p := by
    by_cases hpp : p = pid
    · subst hpp
      simp [h.keys, hp]
    · simp [h.keys, Function.update_of_ne hpp]
  nonempty := h.nonempty
  below := h.below
  parent p x hx := by
    by_cases hpp : p = pid
    · subst hpp
      simp only [Function.update_self, Option.some.injEq] at hx
      subst hx
      rw [hid]
      exact h.parent p proc hp
    · simp only [Function.update_of_ne hpp] at hx
      exact h.parent p x hx

theorem modifyCurrent (h : TableInv q) (f : Process S F → Process S F)
    (hf : ∀ proc, (f proc).identity = proc.identity) :
    Keeps (fun q' => TableInv q' ∧ q'.order = q.order ∧
      ∀ p, (q'.processes p).isSome = (q.processes p).isSome) (q.modifyCurrent f) := by
  obtain ⟨pid, rest, proc, ho, hp⟩ := h.front
  rw [modifyCurrent_eq ho hp]
  refine ⟨h.update hp (hf proc), rfl, ?_⟩
  intro p
  by_cases hpp : p = pid
  · subst hpp
    simp [hp]
  · simp [Function.update_of_ne hpp]

theorem childOf (h : TableInv q) (defaultFd : List (Option F)) (program : LoadedProgram S) :
    Keeps (fun proc => proc.identity.ppid < q.nextFreePid)
      (ProcessQueue.childOf defaultFd q program) := by
  obtain ⟨pid, rest, proc, ho, hp⟩ := h.front
  rw [ProcessQueue.childOf, ho]
  simp only [hp, orHalt_some, ok_bind]
  exact h.below pid (by simp [ho])

/-- Inserting a process under the next pid keeps the invariant; here the queue may be
empty. -/
theorem insert_next {newProc : Process S F} (hn : q.order.Nodup)
    (hk : ∀ p, p ∈ q.order ↔ (q.processes p).isSome) (hb : ∀ p ∈ q.order, p < q.nextFreePid)
    (hpar : ∀ p proc, q.processes p = some proc → proc.identity.ppid < p)
    (hnew : newProc.identity.ppid < q.nextFreePid) :
    TableInv { processes := Function.update q.processes q.nextFreePid (some newProc)
               order := q.order ++ [q.nextFreePid]
               nextFreePid := q.nextFreePid + 1 } where
  nodup := by
    rw [List.nodup_append]
    refine ⟨hn, by simp, ?_⟩
    rintro a ha b hb' rfl
    rw [List.mem_singleton] at hb'
    exact absurd (hb a ha) (by rw [hb']; exact Int.lt_irrefl _)
  keys p := by
    by_cases hpp : p = q.nextFreePid
    · subst hpp
      simp
    · simp [hk, hpp]
  nonempty := by simp
  below p hp := by
    rw [List.mem_append, List.mem_singleton] at hp
    rcases hp with hp | rfl
    · exact Int.lt_trans (hb p hp) (Int.lt_succ _)
    · exact Int.lt_succ _
  parent p x hx := by
    by_cases hpp : p = q.nextFreePid
    · subst hpp
      simp only [Function.update_self, Option.some.injEq] at hx
      subst hx
      exact hnew
    · simp only [Function.update_of_ne hpp] at hx
      exact hpar p x hx

theorem push (h : TableInv q) (defaultFd : List (Option F)) (program : LoadedProgram S) :
    Keeps (fun r => TableInv r.2) (q.push defaultFd program) := by
  rw [ProcessQueue.push]
  refine (h.childOf defaultFd program).bind ?_
  intro newProc _ hnew
  rw [ProcessQueue.allocatePid]
  refine Keeps.bind (P := fun r => r = (q.nextFreePid, q.nextFreePid + 1))
    ((keeps_ensure rfl).bind fun _ _ _ => rfl) ?_
  rintro _ _ rfl
  have hfree : q.processes q.nextFreePid = none := by
    cases hp : q.processes q.nextFreePid with
    | none => rfl
    | some proc =>
      have := h.below _ ((h.keys q.nextFreePid).mpr (by simp [hp]))
      exact absurd this (Int.lt_irrefl _)
  rw [ensure_of hfree, ok_bind]
  exact insert_next h.nodup h.keys h.below h.parent hnew

theorem saveInterrupted (h : TableInv q) (state : S) :
    Keeps TableInv (q.saveInterrupted state) :=
  (h.modifyCurrent (·.setPausedState state) fun _ => rfl).mono fun _ hq => hq.1

theorem block (h : TableInv q) {w : Except Panic WaitingState} (hw : Keeps (fun _ => True) w)
    (state : S) : Keeps TableInv (q.block w state) := by
  obtain ⟨pid, rest, proc, ho, hp⟩ := h.front
  rw [ProcessQueue.block, current_eq ho hp, ok_bind]
  refine (keeps_ensure rfl).bind fun _ _ _ => hw.bind fun w' _ _ => ?_
  have hset := h.modifyCurrent (fun proc => proc.setWaitingState (some w')) fun _ => rfl
  exact hset.bind fun q' _ hq' => hq'.1.saveInterrupted state

theorem frontToBack (h : TableInv q) {order : List Pid}
    (ho : Lib.frontToBack q.order = some order) : TableInv { q with order := order } where
  nodup := (frontToBack_perm ho).nodup_iff.mpr h.nodup
  keys p := by
    rw [← h.keys p]
    exact (frontToBack_perm ho).mem_iff
  nonempty := by
    obtain ⟨a, t, -, rfl⟩ := frontToBack_eq_some ho
    simp
  below p hp := h.below p ((frontToBack_perm ho).mem_iff.mp hp)
  parent := h.parent

theorem reap (h : TableInv q) {pid : Pid} (hp : (q.processes pid).isSome)
    (hf : q.order.head? ≠ some pid) : ∃ q', q.reap pid = .ok q' ∧ TableInv q' := by
  obtain ⟨proc, hproc⟩ := Option.isSome_iff_exists.mp hp
  have hmem : pid ∈ q.order := (h.keys pid).mpr hp
  obtain ⟨index, hidx⟩ : ∃ index, q.order.idxOf? pid = some index := by
    cases hi : q.order.idxOf? pid with
    | none => exact absurd hmem (List.idxOf?_eq_none_iff.mp hi)
    | some index => exact ⟨index, rfl⟩
  obtain ⟨hlt, hpid, -⟩ := List.idxOf?_eq_some_iff.mp hidx
  have hget : q.order[index]? = some pid := List.getElem?_eq_some_iff.mpr ⟨hlt, hpid⟩
  obtain ⟨order, horder⟩ := swapRemoveBack_isSome hlt
  have hiff := mem_swapRemoveBack h.nodup hget horder
  rw [ProcessQueue.reap, hproc, hidx]
  simp only [orHalt_some, ok_bind, horder]
  refine ⟨_, rfl, ?_, ?_, ?_, ?_, ?_⟩
  · exact (swapRemoveBack_perm horder).nodup_iff.mpr (h.nodup.sublist (List.eraseIdx_sublist _ _))
  · intro p
    rw [hiff, h.keys]
    by_cases hpp : p = pid
    · subst hpp
      simp
    · simp [hpp]
  · -- the front stays
    obtain ⟨front, rest, ho⟩ := List.exists_cons_of_ne_nil h.nonempty
    have hfront : front ∈ order := by
      rw [hiff]
      refine ⟨by simp [ho], ?_⟩
      rintro rfl
      exact hf (by simp [ho])
    exact List.ne_nil_of_mem hfront
  · intro p hp'
    exact h.below p ((hiff p).mp hp').1
  · intro p x hx
    by_cases hpp : p = pid
    · subst hpp
      simp at hx
    · simp only [Function.update_of_ne hpp] at hx
      exact h.parent p x hx

theorem mem_children (h : TableInv q) {iteration : List Pid} {currPid pid : Pid}
    {rest : List Pid} (ho : q.order = currPid :: rest) {proc : Process S F}
    (hc : (pid, proc) ∈ q.children iteration currPid) :
    (q.processes pid).isSome ∧ q.order.head? ≠ some pid := by
  rw [ProcessQueue.children, List.mem_filterMap] at hc
  obtain ⟨p, -, hp⟩ := hc
  split at hp
  · rename_i child hchild
    split at hp
    · rename_i hppid
      simp only [Option.some.injEq, Prod.mk.injEq] at hp
      obtain ⟨rfl, rfl⟩ := hp
      refine ⟨by simp [hchild], ?_⟩
      have hlt := h.parent p child hchild
      rw [ho, List.head?_cons, ← hppid]
      intro he
      exact absurd hlt (by rw [Option.some.inj he]; exact Int.lt_irrefl _)
    · simp at hp
  · simp at hp

theorem handle (h : TableInv q) {result : PollResult S}
    (hr : ∀ pid, result = .handleWaiting (some pid) →
      (q.processes pid).isSome ∧ q.order.head? ≠ some pid) :
    Keeps TableInv (q.handle result) := by
  cases result with
  | doNothing => exact h
  | startUserland state => exact h
  | handleWaiting removeZombie =>
    rw [ProcessQueue.handle]
    have hset := h.modifyCurrent (fun proc => proc.setWaitingState none) fun _ => rfl
    refine hset.bind ?_
    rintro q' _ ⟨hq', ho, hsome⟩
    cases removeZombie with
    | none => exact hq'
    | some pid =>
      obtain ⟨hp, hf⟩ := hr pid rfl
      obtain ⟨q'', he, hq''⟩ := hq'.reap (by rw [hsome]; exact hp) (by rw [ho]; exact hf)
      simp only [he]
      exact hq''

end TableInv

theorem fromPid_keeps (pid : Pid) : Keeps (fun _ => True) (ChildType.fromPid pid) := by
  unfold ChildType.fromPid
  repeat' split
  all_goals trivial

theorem pollChildren_keeps (childType : ChildType) (myPgrp : Pid) (status outputPid : Nat)
    (children : List (Pid × Process S F)) :
    Keeps (fun _ => True) (pollChildren childType myPgrp status outputPid children) := by
  induction children with
  | nil => trivial
  | cons c rest ih =>
    obtain ⟨childPid, proc⟩ := c
    rw [pollChildren]
    split
    · exact ih
    · split
      · split
        · rfl
        · trivial
      · exact ih

theorem poll_keeps (readNonblocking : F → Nat → Nat → Option FopReadResult) (proc : Process S F)
    (children : List (Pid × Process S F)) :
    Keeps (fun _ => True) (proc.poll readNonblocking children) := by
  unfold Process.poll
  split
  · trivial
  · refine (keeps_orHalt rfl).bind fun _ _ _ => (keeps_orHalt rfl).bind fun _ _ _ =>
      (keeps_orHalt rfl).bind fun result _ _ => ?_
    split <;> trivial
  · split
    · exact pollChildren_keeps _ _ _ _ _
    · rfl
  · trivial

/-- **A round of the loop** keeps the invariant and reaps only a process that is not at
the front. -/
theorem TableInv.runNextTaskRound {q : ProcessQueue S F} (h : TableInv q)
    (readNonblocking : F → Nat → Nat → Option FopReadResult) (iteration : List Pid) :
    Keeps (fun r => TableInv r.2 ∧
        ∀ pid, r.1.result = .handleWaiting (some pid) → pid ≠ r.1.polled)
      (q.runNextTaskRound readNonblocking iteration) := by
  rw [ProcessQueue.runNextTaskRound]
  obtain ⟨pid, rest, ho⟩ := List.exists_cons_of_ne_nil h.nonempty
  have hrot : Lib.frontToBack q.order = some (rest ++ [pid]) := by rw [ho]; rfl
  have hq := h.frontToBack hrot
  simp only [hrot, orHalt_some, ok_bind]
  obtain ⟨currPid, tail, curr, hord, hcurr⟩ := hq.front
  rw [TableInv.current_eq hord hcurr, TableInv.currentPid_eq hord, ok_bind, ok_bind]
  refine (poll_keeps readNonblocking curr _).bind ?_
  rintro ⟨result, stores⟩ hpoll -
  have hreap : ∀ pid, result = .handleWaiting (some pid) → _ := fun pid hr =>
    have ⟨proc, hc⟩ := Process.poll_reaps (hr ▸ hpoll)
    hq.mem_children hord hc
  refine (hq.handle hreap).bind ?_
  intro q' _ hq'
  refine ⟨hq', ?_⟩
  rintro p hp rfl
  exact (hreap p hp).2 (by rw [hord]; rfl)

/-- **Every operation keeps the invariant** and panics at none of the places that rely
on it. -/
theorem exec_inv (defaultFd : List (Option F)) {q : ProcessQueue S F} (h : TableInv q)
    (op : Op S F) : Keeps TableInv (op.exec defaultFd q) := by
  cases op with
  | push program => exact (h.push defaultFd program).map fun _ hr => hr
  | setCurrentAsZombie exitCode =>
    exact (h.modifyCurrent (·.setWaitingState (some (.amZombie exitCode))) fun _ => rfl).mono
      fun _ hq => hq.1
  | replace program =>
    exact (h.modifyCurrent (·.replace program) fun _ => rfl).mono fun _ hq => hq.1
  | wait pid status options outputPid state =>
    exact h.block ((fromPid_keeps pid).map fun _ _ => trivial) state
  | readFd fd buffer numBytes read state =>
    exact h.block ((keeps_ensure rfl).map fun _ _ => trivial) state
  | interrupted state => exact h.saveInterrupted state
  | round readNonblocking iteration =>
    exact (h.runNextTaskRound readNonblocking iteration).map fun _ hr => hr.1

/-- The queue with the first program. -/
def ProcessQueue.started (defaultFd : List (Option F)) (program : LoadedProgram S) :
    ProcessQueue S F where
  processes := Function.update (fun _ => none) 1 (some (Process.create defaultFd program))
  order := [1]
  nextFreePid := 2

theorem init_started (defaultFd : List (Option F)) (program : LoadedProgram S) :
    (scheduler defaultFd).init (ProcessQueue.started defaultFd program) :=
  ⟨program, 1, rfl⟩

theorem eq_started {defaultFd : List (Option F)} {q : ProcessQueue S F}
    (h : (scheduler defaultFd).init q) : ∃ program, q = ProcessQueue.started defaultFd program := by
  obtain ⟨program, pid, h⟩ := h
  have hq : ProcessQueue.new.push defaultFd program =
      .ok (1, ProcessQueue.started defaultFd program) := rfl
  rw [hq, Except.ok.injEq, Prod.mk.injEq] at h
  exact ⟨program, h.2.symm⟩

theorem inv_of_init {defaultFd : List (Option F)} {q : ProcessQueue S F}
    (h : (scheduler defaultFd).init q) : TableInv q := by
  obtain ⟨program, rfl⟩ := eq_started h
  exact TableInv.insert_next (q := ProcessQueue.new) (by simp [ProcessQueue.new])
    (by simp [ProcessQueue.new]) (by simp [ProcessQueue.new]) (by simp [ProcessQueue.new])
    Int.zero_lt_one

theorem reachable_inv {defaultFd : List (Option F)} {q : ProcessQueue S F}
    (h : (scheduler defaultFd).Reachable q) : TableInv q := by
  refine h.invariant (P := TableInv) (fun _ hq => inv_of_init hq) ?_
  rintro q op q' hq ⟨-, hstep⟩
  have hk := exec_inv defaultFd hq op
  rw [hstep] at hk
  exact hk

/-- **The scheduler's table**: in every reachable state the queue lists exactly the pids of
the table, each once, is not empty and stays below the counter; `current` succeeds, no
operation panics at a place that relies on the table, and no round reaps the process at
the front. -/
theorem scheduler_table_invariant (defaultFd : List (Option F)) (q : ProcessQueue S F)
    (h : (scheduler defaultFd).Reachable q) :
    q.order.Nodup ∧ (∀ p, p ∈ q.order ↔ (q.processes p).isSome) ∧ q.order ≠ [] ∧
    (∀ p, (q.processes p).isSome → p < q.nextFreePid) ∧
    (∃ proc, q.current = .ok proc) ∧
    (∀ op : Op S F, op.Admissible q → ∀ panic, op.exec defaultFd q = .error panic →
      panic.ofTable = false) ∧
    ∀ readNonblocking iteration, Enumerates q iteration →
      ∀ r q', q.runNextTaskRound readNonblocking iteration = .ok (r, q') →
        ∀ pid, r.result = .handleWaiting (some pid) → pid ≠ r.polled := by
  have hq := reachable_inv h
  refine ⟨hq.nodup, hq.keys, hq.nonempty, fun p hp => hq.below p ((hq.keys p).mpr hp), ?_, ?_, ?_⟩
  · obtain ⟨pid, rest, proc, ho, hp⟩ := hq.front
    exact ⟨proc, TableInv.current_eq ho hp⟩
  · intro op _ panic hpanic
    have hk := exec_inv defaultFd hq op
    rw [hpanic] at hk
    exact hk
  · intro readNonblocking iteration _ r q' hr
    have hk := hq.runNextTaskRound readNonblocking iteration
    rw [hr] at hk
    exact hk.2

/-- A hash map may iterate in the order of the queue. -/
theorem enumerates_order {defaultFd : List (Option F)} {q : ProcessQueue S F}
    (h : (scheduler defaultFd).Reachable q) : Enumerates q q.order :=
  ⟨(reachable_inv h).nodup, (reachable_inv h).keys⟩

theorem reachable_exec {defaultFd : List (Option F)} {q q' : ProcessQueue S F} (op : Op S F)
    (h : (scheduler defaultFd).Reachable q) (ha : op.Admissible q)
    (he : op.exec defaultFd q = .ok q') : (scheduler defaultFd).Reachable q' :=
  h.step (a := op) ⟨ha, he⟩

/-- A program forks, the child exits, the parent waits for any child: in the round that
reaps the child, the parent is at the front. -/
theorem scheduler_table_invariant_wait :
    ∃ q : ProcessQueue Unit Unit, (scheduler []).Reachable q ∧ Enumerates q [2, 1] ∧
      ∃ r q', q.runNextTaskRound (fun _ _ _ => none) [2, 1] = .ok (r, q') ∧
        r.result = .handleWaiting (some 2) ∧ q'.order = [1] ∧ 2 ≠ r.polled := by
  have r0 : (scheduler (S := Unit) (F := Unit) []).Reachable _ := .init ⟨⟨0, 0, ()⟩, 1, rfl⟩
  have r1 := reachable_exec (.push ⟨0, 0, ()⟩) r0 trivial rfl
  have r2 := reachable_exec (.round (fun _ _ _ => none) [1, 2]) r1 (enumerates_order r1) rfl
  have r3 := reachable_exec (.setCurrentAsZombie 7) r2 trivial rfl
  have r4 := reachable_exec (.round (fun _ _ _ => none) [2, 1]) r3 (enumerates_order r3) rfl
  have r5 := reachable_exec (.wait (-1) 0 0 8 ()) r4 trivial rfl
  have r6 := reachable_exec (.round (fun _ _ _ => none) [1, 2]) r5 (enumerates_order r5) rfl
  have hiter := enumerates_order r6
  refine ⟨_, r6, hiter, _, _, rfl, rfl, rfl, ?_⟩
  exact (scheduler_table_invariant [] _ r6).2.2.2.2.2.2 (fun _ _ _ => none) [2, 1] hiter _ _ rfl
    2 rfl

end Stuos.Sched
