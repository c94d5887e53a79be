import Stuos.Sched.Steps

/-!
# Waiting for a child

What `waitpid` promises, against what `ChildType`, `Process::poll` and the loop of
`run_next_task` do, and what happens to the children of a process that is reaped.

* `wait_contract_iff`: `poll` stores the exit code where the pid belongs, and a wait for a
  process group looks for a process with that pid, so the contract holds only where these
  happen to agree.
* `parent_present_of_childless_reaps`: the parent of every process is in the table as long
  as no process is reaped that still has children; nothing gives these another parent.
-/

namespace Stuos.Sched

open Stuos.Lib
open Stuos.Ipc (FopReadResult)

variable {S F : Type}

/-! ### The contract -/

/-- The rules of `waitpid`: whether a wait for `pid` may take a child. -/
def Selects (pid myPgrp childPid childPgrp : Int) : Prop :=
  if 0 < pid then childPid = pid
  else if pid = -1 then True
  else if pid = 0 then childPgrp = myPgrp
  else childPgrp = -pid

/-- `waitpid` of the C library returns its `output_pid`, which starts as 67, after the stores
of the call. -/
def waitpid (outputPid : Nat) (stores : List Store) : Nat :=
  stores.foldl (fun value s => if s.addr = outputPid then s.value else value) 67

/-- A completed wait for `pid` by the process `w` has taken the child `z` as `waitpid`
promises. -/
structure Completed (q : ProcessQueue S F) (w myPgrp pid : Pid) (status outputPid : Nat)
    (stores : List Store) (q' : ProcessQueue S F) (z : Pid) : Prop where
  child : ∃ child exitCode, q.processes z = some child ∧ child.identity.ppid = w ∧
    child.threads.waitingState = some (.amZombie exitCode) ∧
    Selects pid myPgrp z child.identity.pgrp ∧
    (status ≠ 0 → (⟨status, exitCode.toNat⟩ : Store) ∈ stores)
  stored : ∃ s ∈ stores, s.addr = outputPid ∧ (s.value : Int) = z
  returned : (waitpid outputPid stores : Int) = z
  removed : q'.processes z = none
  others : ∀ p, p ≠ z → (q'.processes p).isSome = (q.processes p).isSome

/-- **The contract of a wait** by the process `w` that is polled next: the request is taken,
and whenever the poll completes it, whatever the order of the table, it completes it as
`waitpid` promises. -/
def WaitContract (q : ProcessQueue S F) (w : Pid) (proc : Process S F) (pid : Pid) (status : Nat)
    (options : Int) (outputPid : Nat) : Prop :=
  ∃ childType, ChildType.fromPid pid = .ok childType ∧
    ∀ readNonblocking iteration r q' z, Enumerates q iteration →
      (q.set w (proc.setWaitingState
        (some (.waitingChild childType status options outputPid)))).runNextTaskRound
          readNonblocking iteration = .ok (r, q') →
      r.result = .handleWaiting (some z) →
      Completed q w proc.identity.pgrp pid status outputPid r.stores q' z

/-! ### What the code does -/

/-- The children a wait for `pid` really looks at. -/
def LooksAt (pid myPgrp childPid childPgrp : Int) : Prop :=
  if pid = -1 then True
  else if pid = 0 then childPgrp = myPgrp
  else childPid = pid.natAbs

theorem fromPid_eq_ok (pid : Int) : (∃ ct, ChildType.fromPid pid = .ok ct) ↔ pid ≠ pidMin := by
  unfold ChildType.fromPid
  split
  · rename_i h
    subst h
    simp [pidMin]
  · split
    · rename_i h
      subst h
      simp [pidMin]
    · split
      · rename_i h
        refine ⟨fun _ he => ?_, fun _ => ⟨_, rfl⟩⟩
        rw [he] at h
        simp [pidMin] at h
      · split
        · rename_i h
          simp [h]
        · rename_i h
          exact ⟨fun _ => h, fun _ => ⟨_, rfl⟩⟩

theorem isValid_iff {pid myPgrp childPid childPgrp : Int} {ct : ChildType}
    (h : ChildType.fromPid pid = .ok ct) :
    ct.isValid myPgrp childPid childPgrp = true ↔ LooksAt pid myPgrp childPid childPgrp := by
  unfold ChildType.fromPid at h
  unfold LooksAt
  split at h
  · rename_i h1
    simp only [Except.ok.injEq] at h
    subst h
    simp [ChildType.isValid, h1]
  · rename_i h1
    split at h
    · rename_i h2
      simp only [Except.ok.injEq] at h
      subst h
      simp [ChildType.isValid, h2, eq_comm]
    · rename_i h2
      rw [if_neg h1, if_neg h2]
      split at h
      · rename_i h3
        have h3' : (1 : Int) ≤ pid := h3
        simp only [Except.ok.injEq] at h
        subst h
        rw [ChildType.isValid, decide_eq_true_eq]
        exact ⟨fun he : (pid : Int) = childPid => by omega, fun he => show (pid : Int) = _ by omega⟩
      · rename_i h3
        have h3' : ¬(1 : Int) ≤ pid := h3
        split at h
        · simp at h
        · simp only [Except.ok.injEq] at h
          subst h
          rw [ChildType.isValid, decide_eq_true_eq]
          exact ⟨fun he : (-pid : Int) = childPid => by omega,
            fun he => show (-pid : Int) = _ by omega⟩

theorem selects_iff {pid myPgrp childPid childPgrp : Int}
    (h : LooksAt pid myPgrp childPid childPgrp) :
    Selects pid myPgrp childPid childPgrp ↔ (pid < -1 → childPgrp = childPid) := by
  unfold LooksAt at h
  unfold Selects
  split at h
  · rename_i h1
    simp [h1]
  · split at h
    · rename_i h1
      simp [h1, h]
    · rename_i h1 h2
      rw [if_neg h1, if_neg h2]
      by_cases h3 : 0 < pid
      · rw [if_pos h3]
        exact ⟨fun _ hlt => by omega, fun _ => by omega⟩
      · rw [if_neg h3]
        exact ⟨fun he _ => by omega, fun he => by have := he (by omega); omega⟩

theorem waitpid_waitStores (status outputPid : Nat) (exitCode : UInt8) :
    waitpid outputPid (waitStores status outputPid exitCode) = exitCode.toNat := by
  unfold waitStores waitpid
  split
  · simp
  · simp

theorem TableInv.enumerates_first {q : ProcessQueue S F} (h : TableInv q) {z : Pid}
    (hz : (q.processes z).isSome) : Enumerates q (z :: q.order.erase z) := by
  have hmem : z ∈ q.order := (h.keys z).mpr hz
  have hperm := List.perm_cons_erase hmem
  exact ⟨hperm.nodup_iff.mp h.nodup, fun p => hperm.mem_iff.symm.trans (h.keys p)⟩

/-- A round of a waiting process completes the wait as promised, apart from what is stored
for the pid and from the process group. -/
theorem completed_of_round {q : ProcessQueue S F} (h : TableInv q) {w : Pid} {rest : List Pid}
    {proc : Process S F} (hrot : q.Rotated w rest proc) {pid : Pid} {childType : ChildType}
    (hct : ChildType.fromPid pid = .ok childType) {status outputPid : Nat} {options : Int}
    {readNonblocking : F → Nat → Nat → Option FopReadResult} {iteration : List Pid}
    {r : ProcessQueue.Round S} {q' : ProcessQueue S F} {z : Pid}
    (he : (q.set w (proc.setWaitingState
      (some (.waitingChild childType status options outputPid)))).runNextTaskRound
        readNonblocking iteration = .ok (r, q'))
    (hr : r.result = .handleWaiting (some z)) :
    ∃ child exitCode, options = 0 ∧ outputPid ≠ 0 ∧ q.processes z = some child ∧
      child.identity.ppid = w ∧ child.threads.waitingState = some (.amZombie exitCode) ∧
      LooksAt pid proc.identity.pgrp z child.identity.pgrp ∧
      r.stores = waitStores status outputPid exitCode ∧ q'.processes z = none ∧
      ∀ p, p ≠ z → (q'.processes p).isSome = (q.processes p).isSome := by
  obtain ⟨rest', proc', hrot', -, heff⟩ := ProcessQueue.round_cases he
  have horder := hrot.order.symm.trans hrot'.order
  rw [Option.some.injEq, List.cons.injEq] at horder
  obtain ⟨rfl, rfl⟩ := horder
  have hproc := hrot'.process
  rw [ProcessQueue.set_same, Option.some.injEq] at hproc
  subst hproc
  generalize r.stores = stores at heff ⊢
  rw [hr] at heff
  cases heff with
  | reap hw hz hppid ht hout hi hsw =>
    rename_i ct st op child exitCode index order
    simp only [Process.setWaitingState, Option.some.injEq, WaitingState.waitingChild.injEq] at hw
    obtain ⟨rfl, rfl, rfl, rfl⟩ := hw
    have hzw : z ≠ r.polled := by
      rintro rfl
      rw [ProcessQueue.set_same, Option.some.injEq] at hz
      subst hz
      have hself : proc.identity.ppid = r.polled := hppid
      exact absurd (h.parent _ _ hrot.process) (by rw [hself]; exact Int.lt_irrefl _)
    rw [ProcessQueue.set_other _ _ hzw] at hz
    refine ⟨child, exitCode, rfl, hout, hz, hppid, ht.zombie, (isValid_iff hct).mp ht.valid, rfl,
      by simp, fun p hp => ?_⟩
    by_cases hpw : p = r.polled
    · subst hpw
      simp [hp, hrot.process]
    · simp [hp, hpw, ProcessQueue.set]

/-- Every zombie that a wait of `w` for `pid` looks at has its own pid as exit code and, in a
wait for a process group, as process group. -/
def CodesArePids (q : ProcessQueue S F) (w myPgrp : Pid) (pid : Int) : Prop :=
  ∀ z child exitCode, q.processes z = some child → child.identity.ppid = w →
    child.threads.waitingState = some (.amZombie exitCode) →
    LooksAt pid myPgrp z child.identity.pgrp →
    (exitCode.toNat : Int) = z ∧ (pid < -1 → child.identity.pgrp = z)

theorem WaitContract.codesArePids {q : ProcessQueue S F} (h : TableInv q) {w : Pid}
    {rest : List Pid} {proc : Process S F} (hrot : q.Rotated w rest proc) {pid : Pid}
    {status outputPid : Nat} (hc : WaitContract q w proc pid status 0 outputPid)
    (hout : outputPid ≠ 0) : CodesArePids q w proc.identity.pgrp pid := by
  obtain ⟨ct, hct, hall⟩ := hc
  intro z child exitCode hz hppid hzombie hlooks
  have hzw : z ≠ w := by
    rintro rfl
    exact absurd (h.parent _ _ hz) (by rw [hppid]; exact Int.lt_irrefl _)
  have hset : TableInv (q.set w (proc.setWaitingState
      (some (.waitingChild ct status 0 outputPid)))) := h.set hrot.process rfl
  obtain ⟨q', hround⟩ := ProcessQueue.round_reaps hset ⟨hrot.order, ProcessQueue.set_same _ _ _⟩ rfl
    hout (by rw [ProcessQueue.set_other _ _ hzw]; exact hz) hppid
    ⟨(isValid_iff hct).mpr hlooks, hzombie⟩ (fun _ _ _ => none) (q.order.erase z)
  have hc := hall _ _ _ q' z (h.enumerates_first (by simp [hz])) hround rfl
  refine ⟨?_, ?_⟩
  · rw [← waitpid_waitStores status outputPid exitCode]
    exact hc.returned
  · obtain ⟨child', e, hz', -, -, hsel, -⟩ := hc.child
    obtain rfl := Option.some.inj (hz.symm.trans hz')
    exact (selects_iff hlooks).mp hsel

theorem waitContract_of_codesArePids {q : ProcessQueue S F} (h : TableInv q) {w : Pid}
    {rest : List Pid} {proc : Process S F} (hrot : q.Rotated w rest proc) {pid : Pid}
    {status outputPid : Nat} {options : Int} (hpid : pid ≠ pidMin)
    (hall : options = 0 → outputPid ≠ 0 → CodesArePids q w proc.identity.pgrp pid) :
    WaitContract q w proc pid status options outputPid := by
  obtain ⟨ct, hct⟩ := (fromPid_eq_ok pid).mpr hpid
  refine ⟨ct, hct, ?_⟩
  intro readNonblocking iteration r q' z _ he hr
  obtain ⟨child, exitCode, hopt, hout, hz, hppid, hzombie, hlooks, hstores, hgone, hothers⟩ :=
    completed_of_round h hrot hct he hr
  obtain ⟨hcode, hpgrp⟩ := hall hopt hout z child exitCode hz hppid hzombie hlooks
  rw [hstores]
  refine ⟨⟨child, exitCode, hz, hppid, hzombie, (selects_iff hlooks).mpr hpgrp, ?_⟩, ?_, ?_,
    hgone, hothers⟩
  · intro hs
    simp [waitStores, hs]
  · exact ⟨⟨outputPid, exitCode.toNat⟩, by simp [waitStores], rfl, hcode⟩
  · rw [waitpid_waitStores]
    exact hcode

/-- **When the contract holds**: the pid is not `i32::MIN`, whose absolute value does not exist,
and every zombie that the wait looks at has its own pid as exit code and, in a wait for a
process group, as process group (unless the wait cannot complete at all, because of its
options or a null pointer). -/
theorem wait_contract_iff (q : ProcessQueue S F) (h : TableInv q) (w : Pid) (rest : List Pid)
    (proc : Process S F) (hrot : q.Rotated w rest proc) (pid : Pid) (status : Nat) (options : Int)
    (outputPid : Nat) :
    WaitContract q w proc pid status options outputPid ↔
      pid ≠ pidMin ∧
        (options = 0 → outputPid ≠ 0 → CodesArePids q w proc.identity.pgrp pid) := by
  constructor
  · intro hc
    refine ⟨(fromPid_eq_ok pid).mp ⟨hc.choose, hc.choose_spec.1⟩, ?_⟩
    rintro rfl hout
    exact hc.codesArePids h hrot hout
  · rintro ⟨hpid, hall⟩
    exact waitContract_of_codesArePids h hrot hpid hall

/-- A program forks and its child exits: in this state the parent is polled next, and the
child is its only one. -/
theorem exists_exited_child (exitCode : UInt8) :
    ∃ (q : ProcessQueue Unit Unit) (proc child : Process Unit Unit), (scheduler []).Reachable q ∧
      q.Rotated 1 [2] proc ∧ q.processes 2 = some child ∧ child.identity.ppid = 1 ∧
      child.threads.waitingState = some (.amZombie exitCode) ∧
      ∀ z c, q.processes z = some c → c.identity.ppid = 1 → z = 2 := by
  have r0 : (scheduler (S := Unit) (F := Unit) []).Reachable _ := .init ⟨⟨0, 0, ()⟩, 1, rfl⟩
  have r1 := reachable_exec (.push ⟨0, 0, ()⟩) r0 trivial rfl
  have r2 := reachable_exec (.round (fun _ _ _ => none) [1, 2]) r1 (enumerates_order r1) rfl
  have r3 := reachable_exec (.setCurrentAsZombie exitCode) r2 trivial rfl
  refine ⟨_, _, _, r3, ⟨rfl, rfl⟩, rfl, rfl, rfl, ?_⟩
  intro z c hz hppid
  by_contra hne
  by_cases h1 : z = 1
  · subst h1
    obtain rfl := Option.some.inj hz
    exact absurd hppid (by decide)
  · simp [ProcessQueue.new, hne, h1] at hz

/-- A child that exits with its own pid 2 as code is waited for as promised. -/
theorem wait_contract_iff_code_two :
    ∃ (q : ProcessQueue Unit Unit) (proc : Process Unit Unit), (scheduler []).Reachable q ∧
      q.Rotated 1 [2] proc ∧ WaitContract q 1 proc (-1) 0 0 8 := by
  obtain ⟨q, proc, child, hq, hrot, hchild, hppid, hzombie, honly⟩ := exists_exited_child 2
  refine ⟨q, proc, hq, hrot, ?_⟩
  rw [wait_contract_iff q (reachable_inv hq) 1 [2] proc hrot]
  refine ⟨by decide, fun _ _ => ?_⟩
  intro z c exitCode hz hp hzomb _
  obtain rfl := honly z c hz hp
  obtain rfl := Option.some.inj (hchild.symm.trans hz)
  obtain rfl : (2 : UInt8) = exitCode := by simpa [hzombie] using hzomb
  exact ⟨rfl, fun h => absurd h (by decide)⟩

/-- **`waitpid` returns the exit code**: for a child that exits with 7, the contract fails. -/
theorem wait_returns_exit_code :
    ∃ (q : ProcessQueue Unit Unit) (proc : Process Unit Unit), (scheduler []).Reachable q ∧
      q.Rotated 1 [2] proc ∧ ¬ WaitContract q 1 proc (-1) 0 0 8 := by
  obtain ⟨q, proc, child, hq, hrot, hchild, hppid, hzombie, -⟩ := exists_exited_child 7
  refine ⟨q, proc, hq, hrot, fun hc => ?_⟩
  have h := hc.codesArePids (reachable_inv hq) hrot (by decide) 2 child 7 hchild hppid hzombie
    (by simp [LooksAt])
  exact absurd h.1 (by decide)

/-! ### Orphans -/

/-- Every process has no parent or one that is in the table. -/
def ParentPresent (q : ProcessQueue S F) : Prop :=
  ∀ p proc, q.processes p = some proc →
    proc.identity.ppid = 0 ∨ (q.processes proc.identity.ppid).isSome

/-- If the process that a round polls waits for a child, then the zombies it may take have no
children in the table. -/
def ReapsChildless (q : ProcessQueue S F) : Op S F → Prop
  | .round _ _ => ∀ w rest proc childType status outputPid, q.Rotated w rest proc →
      proc.threads.waitingState = some (.waitingChild childType status 0 outputPid) →
      ∀ z child exitCode, q.processes z = some child → child.identity.ppid = w →
        proc.Taken childType z child exitCode →
        ∀ p grandchild, q.processes p = some grandchild → grandchild.identity.ppid ≠ z
  | _ => True

namespace ParentPresent

variable {q : ProcessQueue S F}

theorem set (h : ParentPresent q) {pid : Pid} {proc proc' : Process S F}
    (hp : q.processes pid = some proc) (hid : proc'.identity = proc.identity) :
    ParentPresent (q.set pid proc') := by
  have hsome : ∀ p, ((q.set pid proc').processes p).isSome = (q.processes p).isSome := by
    intro p
    by_cases hpp : p = pid
    · subst hpp
      simp [hp]
    · rw [ProcessQueue.set_other _ _ hpp]
  intro p x hx
  rw [hsome]
  by_cases hpp : p = pid
  · subst hpp
    rw [ProcessQueue.set_same, Option.some.injEq] at hx
    subst hx
    rw [hid]
    exact h p proc hp
  · rw [ProcessQueue.set_other _ _ hpp] at hx
    exact h p x hx

theorem insert (h : ParentPresent q) {parentPid : Pid} {parent newProc : Process S F}
    (hp : q.processes parentPid = some parent) (hid : newProc.identity.ppid = parentPid)
    (order : List Pid) (next : Pid) :
    ParentPresent ⟨Function.update q.processes q.nextFreePid (some newProc), order, next⟩ := by
  have hsome : ∀ p, (q.processes p).isSome →
      (Function.update q.processes q.nextFreePid (some newProc) p).isSome := by
    intro p hpp
    by_cases he : p = q.nextFreePid
    · subst he
      simp
    · rwa [Function.update_of_ne he]
  intro p x hx
  by_cases hpp : p = q.nextFreePid
  · subst hpp
    simp only [Function.update_self, Option.some.injEq] at hx
    subst hx
    exact Or.inr (hsome _ (by rw [hid, hp]; rfl))
  · simp only [Function.update_of_ne hpp] at hx
    exact (h p x hx).imp id (hsome _)

theorem remove (h : ParentPresent q) {z : Pid}
    (hz : ∀ p x, q.processes p = some x → x.identity.ppid ≠ z) (order : List Pid) (next : Pid) :
    ParentPresent ⟨Function.update q.processes z none, order, next⟩ := by
  intro p x hx
  by_cases hpz : p = z
  · subst hpz
    simp at hx
  · simp only [Function.update_of_ne hpz] at hx
    have hne := hz p x hx
    refine (h p x hx).imp id fun hsome => ?_
    simp only [Function.update_of_ne hne]
    exact hsome

/-- A step that reaps no process with children keeps every parent in the table. -/
theorem exec (h : ParentPresent q) (hne : q.order ≠ []) {defaultFd : List (Option F)}
    {op : Op S F} {q' : ProcessQueue S F} (hc : ReapsChildless q op)
    (he : op.exec defaultFd q = .ok q') : ParentPresent q' := by
  rcases exec_cases hne he with ⟨program, parentPid, parent, -, hf, -, rfl⟩ |
    ⟨pid, proc, proc', hf, rfl, hid⟩ | ⟨readNonblocking, iteration, r, rfl, hr⟩
  · exact h.insert hf.process rfl _ _
  · exact h.set hf.process hid
  · obtain ⟨rest, proc, hrot, -, heff⟩ := ProcessQueue.round_cases hr
    obtain ⟨root, polled, result, stores⟩ := r
    cases heff with
    | nothing => exact h
    | start => exact h
    | read =>
      have hwake : ParentPresent (q.set polled (proc.setWaitingState none)) :=
        h.set hrot.process rfl
      exact hwake
    | reap hw hz hppid ht hout hi hsw =>
      have hwake : ParentPresent (q.set polled (proc.setWaitingState none)) :=
        h.set hrot.process rfl
      refine hwake.remove (fun p x hx => ?_) _ _
      by_cases hp : p = polled
      · subst hp
        rw [ProcessQueue.set_same, Option.some.injEq] at hx
        subst hx
        exact hc _ rest proc _ _ _ hrot hw _ _ _ hz hppid ht _ proc hrot.process
      · rw [ProcessQueue.set_other _ _ hp] at hx
        exact hc _ rest proc _ _ _ hrot hw _ _ _ hz hppid ht p x hx

end ParentPresent

/-- **Every parent is present** in every state of a run in which no process is reaped that still
has children in the table. -/
theorem parent_present_of_childless_reaps (defaultFd : List (Option F)) (q q' : ProcessQueue S F)
    (l : List (Op S F)) (hinit : (scheduler defaultFd).init q)
    (hrun : (scheduler defaultFd).Run ReapsChildless q l q') : ParentPresent q' := by
  refine (hrun.invariant (P := fun _ s => TableInv s ∧ ParentPresent s) ?_ ?_).2
  · rintro _ s op s' ⟨hi, hp⟩ hc ⟨-, he⟩
    have hk := exec_inv defaultFd hi op
    rw [he] at hk
    exact ⟨hk, hp.exec hi.nonempty hc he⟩
  · refine ⟨inv_of_init hinit, ?_⟩
    obtain ⟨program, rfl⟩ := eq_started hinit
    intro p x hx
    by_cases hp : p = 1
    · subst hp
      obtain rfl := Option.some.inj hx
      exact Or.inl rfl
    · simp [ProcessQueue.started, hp] at hx

/-- A program forks, and the child, which has no children, is reaped. -/
theorem parent_present_of_childless_reaps_one_child :
    ∃ (q q' : ProcessQueue Unit Unit) (l : List (Op Unit Unit)), (scheduler []).init q ∧
      (scheduler []).Run ReapsChildless q l q' ∧ q'.order = [1] ∧ ParentPresent q' := by
  have hinit := init_started (S := Unit) (F := Unit) [] ⟨0, 0, ()⟩
  have order : ∀ {q l}, (scheduler []).Run ReapsChildless
      (ProcessQueue.started [] ⟨0, 0, ()⟩) l q → Enumerates q q.order :=
    fun h => enumerates_order (h.reachable (.init hinit))
  have notWaiting : ∀ {q : ProcessQueue Unit Unit} {w rest proc read iteration},
      q.Rotated w rest proc → (∀ ct st op, proc.threads.waitingState ≠
        some (.waitingChild ct st 0 op)) → ReapsChildless q (.round read iteration) := by
    intro q w rest proc read iteration hrot hn w' rest' proc' ct st op hrot' hw
    obtain ⟨rfl, rfl, rfl⟩ := hrot.unique hrot'
    exact absurd hw (hn ct st op)
  have shallow : ∀ {q : ProcessQueue Unit Unit} {read iteration}, TableInv q → q.order = [2, 1] →
      (∀ x, q.processes 1 = some x → x.identity.ppid = 0) →
      (∀ x, q.processes 2 = some x → x.identity.ppid = 1) →
      ReapsChildless q (.round read iteration) := by
    intro q read iteration hi ho h1 h2 w rest proc ct st op hrot _ z child e hz hppid _ p x hx
    have hmem : ∀ {p x}, q.processes p = some x → p = 2 ∨ p = 1 := by
      intro p x hx
      have := (hi.keys p).mpr (by rw [hx]; rfl)
      simpa [ho] using this
    obtain rfl : 1 = w := by
      have := hrot.order
      rw [ho] at this
      exact (List.cons.inj (Option.some.inj this)).1
    have hz2 : z = 2 := (hmem hz).resolve_right fun h => by
      subst h
      exact absurd ((h1 child hz).symm.trans hppid) (by decide)
    subst hz2
    rcases hmem hx with rfl | rfl
    · rw [h2 x hx]
      decide
    · rw [h1 x hx]
      decide
  have step : ∀ {q q' l} (op : Op Unit Unit), (scheduler []).Run ReapsChildless
      (ProcessQueue.started [] ⟨0, 0, ()⟩) l q → ReapsChildless q op → op.Admissible q →
      op.exec [] q = .ok q' → (scheduler []).Run ReapsChildless
        (ProcessQueue.started [] ⟨0, 0, ()⟩) (l ++ [op]) q' :=
    fun op h hc ha he => h.snoc hc ⟨ha, he⟩
  have r1 := step (.push ⟨0, 0, ()⟩) (.nil _) trivial trivial rfl
  have r2 := step (.round (fun _ _ _ => none) [1, 2]) r1
    (notWaiting ⟨rfl, rfl⟩ (by rintro _ _ _ ⟨⟩)) (order r1) rfl
  have r3 := step (.setCurrentAsZombie 7) r2 trivial trivial rfl
  have r4 := step (.round (fun _ _ _ => none) [2, 1]) r3
    (notWaiting ⟨rfl, rfl⟩ (by rintro _ _ _ ⟨⟩)) (order r3) rfl
  have r5 := step (.wait (-1) 0 0 8 ()) r4 trivial trivial rfl
  have r6 := step (.round (fun _ _ _ => none) [1, 2]) r5
    (notWaiting ⟨rfl, rfl⟩ (by rintro _ _ _ ⟨⟩)) (order r5) rfl
  have r7 := step (.round (fun _ _ _ => none) [2, 1]) r6
    (shallow (reachable_inv (r6.reachable (.init hinit))) rfl (by rintro _ ⟨⟩; rfl)
      (by rintro _ ⟨⟩; rfl)) (order r6) rfl
  exact ⟨_, _, _, hinit, r7, rfl, parent_present_of_childless_reaps [] _ _ _ hinit r7⟩

/-- **An orphan**: the child of a process that is reaped keeps it as its parent. -/
theorem reaping_leaves_orphan :
    ∃ q : ProcessQueue Unit Unit, (scheduler []).Reachable q ∧ ¬ ParentPresent q := by
  have r0 : (scheduler (S := Unit) (F := Unit) []).Reachable _ := .init ⟨⟨0, 0, ()⟩, 1, rfl⟩
  have r1 := reachable_exec (.push ⟨0, 0, ()⟩) r0 trivial rfl
  have r2 := reachable_exec (.round (fun _ _ _ => none) [1, 2]) r1 (enumerates_order r1) rfl
  have r3 := reachable_exec (.push ⟨0, 0, ()⟩) r2 trivial rfl
  have r4 := reachable_exec (.setCurrentAsZombie 7) r3 trivial rfl
  have r5 := reachable_exec (.round (fun _ _ _ => none) [2, 1, 3]) r4 (enumerates_order r4) rfl
  have r6 := reachable_exec (.wait (-1) 0 0 8 ()) r5 trivial rfl
  have r7 := reachable_exec (.round (fun _ _ _ => none) [1, 3, 2]) r6 (enumerates_order r6) rfl
  have r8 := reachable_exec (.round (fun _ _ _ => none) [3, 2, 1]) r7 (enumerates_order r7) rfl
  have r9 := reachable_exec (.round (fun _ _ _ => none) [2, 1, 3]) r8 (enumerates_order r8) rfl
  refine ⟨_, r9, fun h => ?_⟩
  rcases h 3 _ rfl with hzero | hsome
  · exact absurd hzero (by decide)
  · exact absurd hsome (by decide)

end Stuos.Sched
