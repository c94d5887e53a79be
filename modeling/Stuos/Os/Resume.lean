import Stuos.Os.ContextSwitch
import Stuos.Os.Progress

/-!
# A process goes on where it was stopped

Runs of the whole system, from the step that saves the state of a process to the round that
starts it again.  In between, other processes run and make system calls, the process is
polled and may wait for a read or a child.

* `SavedState.step`: as long as the process is not started, its saved state is not touched.
* `resumes_with_saved_state`: so a process is started with the state that was saved last.
* `timer_preemption_transparent`: with the handlers of the processor, the timer cannot be
  noticed by the process that it stops.
-/

namespace Stuos.Os

open Stuos.Lib Stuos.Memory Stuos.Sched
open Stuos.Ipc (FopReadResult)

variable {S F : Type}

namespace System

/-- The step starts the process `x` in userland with the processor state `st`. -/
inductive Starts (s : System S F) : Event S F → Pid → S → Prop
  | intro {readNonblocking iteration r q st} :
      s.queue.runNextTaskRound readNonblocking iteration = .ok (r, q) →
      r.result = .startUserland st → Starts s (.round readNonblocking iteration) r.polled st

/-- The step saves `st` as the state in which the process `x` goes on. -/
inductive Saves (s : System S F) : Event S F → Pid → S → Prop
  | interrupted {x st proc} : s.queue.Front x proc → Saves s (.interrupted st) x st
  | wait {x pid status options outputPid st proc} : s.queue.Front x proc →
      Saves s (.wait pid status options outputPid st) x st
  | readFd {x fd buffer numBytes read st proc} : s.queue.Front x proc →
      Saves s (.readFd fd buffer numBytes read st) x st
  | fork {st} : Saves s (.fork st) s.queue.nextFreePid st
  | execve {x image proc} : s.queue.Front x proc → Saves s (.execve image) x image.initialState

/-- The process can still go on, with the state `st`. -/
structure Paused (st : S) (proc : Process S F) : Prop where
  state : proc.threads.pausedState = st
  alive : ∀ exitCode, proc.threads.waitingState ≠ some (.amZombie exitCode)

/-- `x` is in the table with the saved state `st`, and is not the one that runs. -/
structure SavedState (x : Pid) (st : S) (s : System S F) : Prop where
  process : ∃ proc, s.queue.processes x = some proc ∧ Paused st proc
  stopped : s.running = true → s.queue.order.head? ≠ some x

variable {s s' : System S F} {q : ProcessQueue S F} {x pid : Pid} {st : S}
  {proc proc' : Process S F}

theorem Paused.setWaitingState (h : Paused st proc) : Paused st (proc.setWaitingState none) :=
  ⟨h.state, by simp [Process.setWaitingState]⟩

/-! ### One step -/

section

theorem SavedState.front_ne (h : SavedState x st s) (hrun : s.running = true)
    (hf : s.queue.Front pid proc) : x ≠ pid := by
  rintro rfl
  obtain ⟨rest, ho⟩ := hf.order
  exact h.stopped hrun (by rw [ho]; rfl)

theorem SavedState.set (h : SavedState x st s) (hrun : s.running = true)
    (hf : s.queue.Front pid proc) (hq : s'.queue = s.queue.set pid proc') : SavedState x st s' := by
  obtain ⟨p, hp, hpaused⟩ := h.process
  refine ⟨⟨p, ?_, hpaused⟩, fun _ => ?_⟩
  · rw [hq, s.queue.set_other proc' (h.front_ne hrun hf)]
    exact hp
  · rw [hq, ProcessQueue.set_order]
    exact h.stopped hrun

theorem SavedState.modifyCurrent (h : SavedState x st s) (hrun : s.running = true)
    {f : Process S F → Process S F} (he : s.queue.modifyCurrent f = .ok s'.queue) :
    SavedState x st s' := by
  obtain ⟨pid, proc, hf, hq⟩ := ProcessQueue.modifyCurrent_cases he
  exact h.set hrun hf hq

theorem SavedState.pushed (h : SavedState x st s) (hrun : s.running = true)
    (hf : s.queue.Front pid proc) (hnone : s.queue.processes s.queue.nextFreePid = none)
    (hp : s'.queue.processes = Function.update s.queue.processes s.queue.nextFreePid (some proc'))
    (ho : s'.queue.order = s.queue.order ++ [s.queue.nextFreePid]) : SavedState x st s' := by
  obtain ⟨p, hx, hpaused⟩ := h.process
  refine ⟨⟨p, ?_, hpaused⟩, fun _ => ?_⟩
  · have hne : x ≠ s.queue.nextFreePid := by
      rintro rfl
      simp [hnone] at hx
    rw [hp, Function.update_of_ne hne]
    exact hx
  · obtain ⟨rest, horder⟩ := hf.order
    have hhead := h.stopped hrun
    rw [ho, horder]
    rwa [horder] at hhead

theorem SavedState.round (h : SavedState x st s) (hrun : s.running = false)
    {readNonblocking : F → Nat → Nat → Option FopReadResult} {iteration : List Pid}
    (hstarts : ∀ st', ¬ Starts s (.round readNonblocking iteration) x st')
    (he : s.round readNonblocking iteration = .ok s') : SavedState x st s' := by
  simp only [System.round, bind_eq_ok, sched_eq_ok] at he
  obtain ⟨⟨r, q'⟩, hr, he⟩ := he
  obtain ⟨rest, proc, hrot, -, heff⟩ := ProcessQueue.round_cases hr
  obtain ⟨p, hp, hpaused⟩ := h.process
  have hstopped : ∀ {s' : System S F}, s'.running = s.running → s'.running = true →
      s'.queue.order.head? ≠ some x := by
    intro s' he htrue
    rw [he, hrun] at htrue
    cases htrue
  -- the process after it was polled
  have hpolled : ∃ p', (s.queue.set r.polled (proc.setWaitingState none)).processes x = some p' ∧
      Paused st p' := by
    by_cases hx : x = r.polled
    · subst hx
      refine ⟨_, s.queue.set_same _ _, ?_⟩
      rw [Option.some.inj (hrot.process.symm.trans hp)]
      exact hpaused.setWaitingState
    · exact ⟨p, by rw [s.queue.set_other _ hx]; exact hp, hpaused⟩
  obtain ⟨root, polled, result, stores⟩ := r
  cases heff with
  | nothing =>
    obtain rfl := Except.ok.inj he
    exact ⟨⟨p, hp, hpaused⟩, hstopped rfl⟩
  | @start state =>
    obtain rfl := Except.ok.inj he
    refine ⟨⟨p, hp, hpaused⟩, fun _ hhead => ?_⟩
    obtain rfl : polled = x := Option.some.inj hhead
    exact hstarts state (.intro hr rfl)
  | read hw =>
    obtain rfl := Except.ok.inj he
    exact ⟨hpolled, hstopped rfl⟩
  | @reap _ _ _ z _ exitCode _ _ _ hz _ ht =>
    simp only [bind_eq_ok, sched_eq_ok, mem_eq_ok] at he
    obtain ⟨_, -, m, -, he⟩ := he
    obtain rfl := Except.ok.inj he
    obtain ⟨p', hp', hpaused'⟩ := hpolled
    -- `x` is not a zombie
    have hne : x ≠ z := by
      rintro rfl
      obtain rfl := Option.some.inj (hz.symm.trans hp)
      exact hpaused.alive _ ht.zombie
    refine ⟨⟨p', ?_, hpaused'⟩, hstopped rfl⟩
    rw [← hp']
    exact Function.update_of_ne hne _ _

/-- **One step** that does not start the process keeps its saved state. -/
theorem SavedState.step (h : SavedState x st s) {event : Event S F}
    (hstarts : ∀ st', ¬ Starts s event x st') (hs : system.step s event s') :
    SavedState x st s' := by
  obtain ⟨ha, he⟩ := hs
  have hleave : ∀ {op : Op S F}, s.running = true → s.leave op = .ok s' →
      (∀ q', op.exec [] s.queue = .ok q' → ∃ pid proc proc', s.queue.Front pid proc ∧
        q' = s.queue.set pid proc') → SavedState x st s' := by
    intro op hrun he hop
    simp only [leave, bind_eq_ok, sched_eq_ok, Except.ok.injEq] at he
    obtain ⟨queue, hq, rfl⟩ := he
    obtain ⟨pid, proc, proc', hf, rfl⟩ := hop queue hq
    exact h.set hrun hf rfl
  cases event with
  | requestPage virt =>
    obtain ⟨⟨r, s₁⟩, hr, rfl⟩ := map_eq_ok.mp he
    simp only [syscallRequestPage, bind_eq_ok, sched_eq_ok] at hr
    obtain ⟨pid, -, proc, -, ⟨result, limit⟩, -, hr⟩ := hr
    split at hr
    · simp only [bind_eq_ok, sched_eq_ok, Except.ok.injEq, Prod.mk.injEq] at hr
      obtain ⟨queue, hq, -, rfl⟩ := hr
      exact h.modifyCurrent ha hq
    · obtain ⟨-, rfl⟩ := Prod.mk.inj (Except.ok.inj hr)
      exact h
  | setrlimit resource limit =>
    simp only [Event.exec, syscallSetrlimit, bind_eq_ok, sched_eq_ok, Except.ok.injEq] at he
    obtain ⟨_, -, proc, -, _, -, queue, hq, rfl⟩ := he
    exact h.modifyCurrent ha.1 hq
  | fork state =>
    simp only [Event.exec, syscallFork, bind_eq_ok, sched_eq_ok] at he
    obtain ⟨pid, -, proc, hcurr, ⟨new, m⟩, -, ⟨child, q⟩, hpush, proc', -, he⟩ := he
    obtain rfl := Except.ok.inj he
    obtain ⟨pid', hf⟩ := current_cases hcurr
    have hne : s.queue.order ≠ [] := by
      obtain ⟨rest, ho⟩ := hf.order
      simp [ho]
    obtain ⟨_, _, -, -, hnone, rfl⟩ := ProcessQueue.push_cases hne hpush
    exact h.pushed ha hf hnone rfl rfl
  | execve image =>
    simp only [Event.exec, syscallExecve, ProcessQueue.replaceCurrentProcess, bind_eq_ok,
      sched_eq_ok] at he
    obtain ⟨pid, -, proc, -, ⟨new, m⟩, -, queue, hq, m', -, he⟩ := he
    obtain rfl := Except.ok.inj he
    exact h.modifyCurrent ha hq
  | exit exitCode =>
    refine hleave ha he fun q' hq => ?_
    obtain ⟨pid, proc, hf, rfl⟩ := ProcessQueue.modifyCurrent_cases hq
    exact ⟨pid, proc, _, hf, rfl⟩
  | wait pid status options outputPid state =>
    refine hleave ha he fun q' hq => ?_
    obtain ⟨pid, proc, w', hf, -, -, rfl⟩ := ProcessQueue.block_cases hq
    exact ⟨pid, proc, _, hf, rfl⟩
  | readFd fd buffer numBytes read state =>
    refine hleave ha he fun q' hq => ?_
    obtain ⟨pid, proc, w', hf, -, -, rfl⟩ := ProcessQueue.block_cases hq
    exact ⟨pid, proc, _, hf, rfl⟩
  | interrupted state =>
    refine hleave ha he fun q' hq => ?_
    obtain ⟨pid, proc, hf, rfl⟩ := ProcessQueue.modifyCurrent_cases hq
    exact ⟨pid, proc, _, hf, rfl⟩
  | round readNonblocking iteration => exact h.round ha.1 hstarts he
  | kernelWork m frames =>
    obtain rfl := Except.ok.inj he
    exact ⟨h.process, h.stopped⟩

end

/-! ### Starting and saving -/

theorem poll_starts {readNonblocking : F → Nat → Nat → Option FopReadResult}
    {children : List (Pid × Process S F)} {stores : List Store}
    (h : proc.poll readNonblocking children = .ok (.startUserland st, stores)) :
    proc.threads.waitingState = none ∧ proc.threads.pausedState = st := by
  cases hw : proc.threads.waitingState with
  | none =>
    simp only [Process.poll, hw, Except.ok.injEq, Prod.mk.injEq, PollResult.startUserland.injEq] at h
    exact ⟨rfl, h.1⟩
  | some w =>
    rcases poll_cases h with h' | ⟨state, h'⟩ | ⟨h', -⟩ | ⟨_, _, _, _, _, _, _, _, _, _, h', -⟩
    · cases h'
    · cases w with
      | waitingRead fdNum buf n ptr =>
        simp only [Process.poll, hw, bind_eq_ok] at h
        obtain ⟨_, -, _, -, _, -, h⟩ := h
        split at h <;> simp at h
      | waitingChild childType status options outputPid =>
        simp only [Process.poll, hw] at h
        split at h
        · rcases pollChildren_cases h with ⟨h', -⟩ | ⟨_, _, _, -, -, -, h', -⟩ <;> cases h'
        · simp at h
      | amZombie exitCode => simp [Process.poll, hw] at h
    · cases h'
    · cases h'

/-- **A round that starts a process** finds it in the table with that saved state. -/
theorem round_starts {q q' : ProcessQueue S F}
    {readNonblocking : F → Nat → Nat → Option FopReadResult} {iteration : List Pid}
    {r : ProcessQueue.Round S} (hr : q.runNextTaskRound readNonblocking iteration = .ok (r, q'))
    (hst : r.result = .startUserland st) :
    ∃ proc, q.processes r.polled = some proc ∧ q'.Front r.polled proc ∧
      proc.threads.waitingState = none ∧ proc.threads.pausedState = st := by
  obtain ⟨rest, proc, hrot, -, heff⟩ := ProcessQueue.round_cases hr
  have hpoll : ∃ children stores,
      proc.poll readNonblocking children = .ok (.startUserland st, stores) := by
    simp only [ProcessQueue.runNextTaskRound, ProcessQueue.current, ProcessQueue.currentPid,
      bind_eq_ok, orHalt_eq_ok, Except.ok.injEq] at hr
    obtain ⟨order, horder, proc', ⟨pid, ho, hp⟩, pid', ho', ⟨result, stores⟩, hpoll, q₁, -, he⟩ := hr
    obtain ⟨rfl, -⟩ := Prod.mk.inj he
    dsimp only at hst hrot ho'
    subst hst
    obtain rfl := Option.some.inj (ho.symm.trans ho')
    obtain rfl := Option.some.inj (hp.symm.trans hrot.process)
    exact ⟨_, _, hpoll⟩
  obtain ⟨children, stores, hpoll⟩ := hpoll
  obtain ⟨hw, hp⟩ := poll_starts hpoll
  rw [hst] at heff
  cases heff with
  | start => exact ⟨proc, hrot.process, ⟨⟨rest, rfl⟩, hrot.process⟩, hw, hp⟩

/-- The running process is not waiting for anything. -/
def RunningReady (s : System S F) : Prop :=
  s.running = true → ∃ pid proc, s.queue.Front pid proc ∧ proc.threads.waitingState = none

theorem RunningReady.limited (h : s.RunningReady) (hrun : s.running = true) {limit : LimitData}
    (he : s.queue.modifyCurrent (fun proc => { proc with memoryLimit := limit }) = .ok s'.queue) :
    s'.RunningReady := by
  intro _
  obtain ⟨pid, proc, hfront, hw⟩ := h hrun
  have hq := ProcessQueue.modifyCurrent_front hfront he
  refine ⟨pid, { proc with memoryLimit := limit }, ⟨?_, ?_⟩, hw⟩
  · rw [hq]
    exact hfront.order
  · rw [hq]
    exact s.queue.set_same _ _

theorem RunningReady.step (h : s.RunningReady) {event : Event S F}
    (hs : system.step s event s') : s'.RunningReady := by
  obtain ⟨ha, he⟩ := hs
  have hleave : ∀ {op : Op S F}, s.leave op = .ok s' → s'.RunningReady := by
    intro op he hrun
    simp only [leave, bind_eq_ok, sched_eq_ok, Except.ok.injEq] at he
    obtain ⟨queue, -, rfl⟩ := he
    cases hrun
  cases event with
  | requestPage virt =>
    obtain ⟨⟨r, s₁⟩, hr, rfl⟩ := map_eq_ok.mp he
    simp only [syscallRequestPage, bind_eq_ok, sched_eq_ok] at hr
    obtain ⟨pid, -, proc, -, ⟨result, limit⟩, -, hr⟩ := hr
    split at hr
    · simp only [bind_eq_ok, sched_eq_ok, Except.ok.injEq, Prod.mk.injEq] at hr
      obtain ⟨queue, hq, -, rfl⟩ := hr
      exact h.limited ha hq
    · obtain ⟨-, rfl⟩ := Prod.mk.inj (Except.ok.inj hr)
      exact h
  | setrlimit resource limit =>
    simp only [Event.exec, syscallSetrlimit, bind_eq_ok, sched_eq_ok, Except.ok.injEq] at he
    obtain ⟨_, -, proc, -, _, -, queue, hq, rfl⟩ := he
    exact h.limited ha.1 hq
  | fork state =>
    simp only [Event.exec, syscallFork, bind_eq_ok, sched_eq_ok] at he
    obtain ⟨pid, -, proc, hcurr, ⟨new, m⟩, -, ⟨child, q⟩, hpush, proc', -, he⟩ := he
    obtain rfl := Except.ok.inj he
    intro _
    obtain ⟨pid', proc', hf, hw⟩ := h ha
    obtain ⟨rest, ho⟩ := hf.order
    obtain ⟨_, _, -, -, hnone, rfl⟩ := ProcessQueue.push_cases (by simp [ho]) hpush
    have hne : pid' ≠ s.queue.nextFreePid := by
      rintro rfl
      simpa [hnone] using hf.process
    refine ⟨pid', proc', ⟨⟨rest ++ [s.queue.nextFreePid], by simp [ho]⟩, ?_⟩, hw⟩
    exact (Function.update_of_ne hne _ _).trans hf.process
  | execve image =>
    simp only [Event.exec, syscallExecve, bind_eq_ok, sched_eq_ok] at he
    obtain ⟨pid, -, proc, -, ⟨new, m⟩, -, queue, hq, m', -, he⟩ := he
    obtain rfl := Except.ok.inj he
    intro hrun
    cases hrun
  | exit exitCode => exact hleave he
  | wait pid status options outputPid state => exact hleave he
  | readFd fd buffer numBytes read state => exact hleave he
  | interrupted state => exact hleave he
  | round readNonblocking iteration =>
    simp only [Event.exec, System.round, bind_eq_ok, sched_eq_ok] at he
    obtain ⟨⟨⟨root, polled, result, stores⟩, q'⟩, hr, he⟩ := he
    intro hrun
    have hidle : ¬ s.running = true := by simp [ha.1]
    cases result with
    | doNothing =>
      obtain rfl := Except.ok.inj he
      exact absurd hrun hidle
    | startUserland state =>
      obtain rfl := Except.ok.inj he
      obtain ⟨proc, -, hf, hw, -⟩ := round_starts hr rfl
      exact ⟨polled, proc, hf, hw⟩
    | handleWaiting removeZombie =>
      cases removeZombie with
      | none =>
        obtain rfl := Except.ok.inj he
        exact absurd hrun hidle
      | some z =>
        simp only [bind_eq_ok, sched_eq_ok, mem_eq_ok] at he
        obtain ⟨_, -, m, -, he⟩ := he
        obtain rfl := Except.ok.inj he
        exact absurd hrun hidle
  | kernelWork m frames =>
    obtain rfl := Except.ok.inj he
    exact h

theorem reachable_ready (h : system.Reachable s) : s.RunningReady := by
  refine h.invariant (P := RunningReady) ?_ fun _ _ _ h hs => h.step hs
  rintro _ ⟨_, _, _⟩ hrun
  cases hrun

theorem savedState_set (hrun : s'.running = false) (hq : s'.queue = s.queue.set x proc')
    (hp : Paused st proc') : SavedState x st s' := by
  refine ⟨⟨proc', by rw [hq]; exact s.queue.set_same _ _, hp⟩, fun htrue => ?_⟩
  rw [hrun] at htrue
  cases htrue

/-- **A step that saves a state** leaves the process stopped with it. -/
theorem Saves.savedState {event : Event S F} (h : s.Saves event x st) (hready : s.RunningReady)
    (hs : system.step s event s') : SavedState x st s' := by
  obtain ⟨ha, he⟩ := hs
  cases h with
  | interrupted hf =>
    simp only [Event.exec, leave, bind_eq_ok, sched_eq_ok, Except.ok.injEq] at he
    obtain ⟨queue, hq, rfl⟩ := he
    obtain ⟨_, _, hf', hw⟩ := hready ha
    obtain ⟨rfl, rfl⟩ := hf.unique hf'
    refine savedState_set rfl (ProcessQueue.modifyCurrent_front hf hq) ⟨rfl, ?_⟩
    intro exitCode
    rw [Process.setPausedState, hw]
    simp
  | wait hf =>
    simp only [Event.exec, leave, bind_eq_ok, sched_eq_ok, Except.ok.injEq] at he
    obtain ⟨queue, hq, rfl⟩ := he
    obtain ⟨pid, proc', w', hf', -, hw, rfl⟩ := ProcessQueue.block_cases hq
    obtain ⟨rfl, rfl⟩ := hf.unique hf'
    obtain ⟨childType, -, rfl⟩ := map_eq_ok.mp hw
    exact savedState_set rfl rfl ⟨rfl, by simp [Process.setWaitingState, Process.setPausedState]⟩
  | readFd hf =>
    simp only [Event.exec, leave, bind_eq_ok, sched_eq_ok, Except.ok.injEq] at he
    obtain ⟨queue, hq, rfl⟩ := he
    obtain ⟨pid, proc', w', hf', -, hw, rfl⟩ := ProcessQueue.block_cases hq
    obtain ⟨rfl, rfl⟩ := hf.unique hf'
    obtain ⟨_, -, rfl⟩ := map_eq_ok.mp hw
    exact savedState_set rfl rfl ⟨rfl, by simp [Process.setWaitingState, Process.setPausedState]⟩
  | fork =>
    simp only [Event.exec, syscallFork, bind_eq_ok, sched_eq_ok] at he
    obtain ⟨pid, -, proc, hcurr, ⟨new, m⟩, -, ⟨child, q⟩, hpush, proc', -, he⟩ := he
    obtain rfl := Except.ok.inj he
    obtain ⟨pid', hf⟩ := current_cases hcurr
    obtain ⟨rest, ho⟩ := hf.order
    obtain ⟨parentPid, parent, -, -, hnone, rfl⟩ := ProcessQueue.push_cases (by simp [ho]) hpush
    refine ⟨⟨_, Function.update_self _ _ _, rfl, ?_⟩, fun _ hhead => ?_⟩
    · simp [Process.createWithParent, Thread.new]
    · -- the parent runs on
      rw [ho] at hhead
      obtain rfl : pid' = s.queue.nextFreePid := Option.some.inj hhead
      simpa [hnone] using hf.process
  | execve hf =>
    simp only [Event.exec, syscallExecve, ProcessQueue.replaceCurrentProcess, bind_eq_ok,
      sched_eq_ok] at he
    obtain ⟨pid, -, proc, -, ⟨new, m⟩, -, queue, hq, m', -, he⟩ := he
    obtain rfl := Except.ok.inj he
    refine savedState_set rfl (ProcessQueue.modifyCurrent_front hf hq) ⟨rfl, ?_⟩
    simp [Process.replace, Thread.new]

theorem Starts.eq_saved {event : Event S F} {st' : S} (h : s.Starts event x st')
    (hsaved : SavedState x st s) : st' = st := by
  cases h with
  | intro hr hst =>
    obtain ⟨proc, hp, -, -, hpaused⟩ := round_starts hr hst
    obtain ⟨proc', hp', hsaved⟩ := hsaved.process
    obtain rfl := Option.some.inj (hp.symm.trans hp')
    rw [← hpaused, hsaved.state]

/-! ### A process that is stopped and started -/

theorem round_ok {q : ProcessQueue S F} {rest : List Pid} (hrot : q.Rotated pid rest proc)
    (hw : proc.threads.waitingState = none)
    (readNonblocking : F → Nat → Nat → Option FopReadResult) (iteration : List Pid) :
    q.runNextTaskRound readNonblocking iteration = .ok (⟨proc.pageTableRoot, pid,
      .startUserland proc.threads.pausedState, []⟩, { q with order := pid :: rest }) := by
  have hcurrent : ProcessQueue.current { q with order := pid :: rest } = .ok proc :=
    TableInv.current_eq rfl hrot.process
  simp only [ProcessQueue.runNextTaskRound, hrot.order, orHalt_some, ok_bind, hcurrent,
    TableInv.currentPid_eq (q := { q with order := pid :: rest }) rfl, Process.poll, hw,
    ProcessQueue.handle]

theorem round_step (h : s.Inv) (hrun : s.running = false) {rest : List Pid}
    (hrot : s.queue.Rotated pid rest proc) (hw : proc.threads.waitingState = none)
    (readNonblocking : F → Nat → Nat → Option FopReadResult) :
    ∃ s', system.step s (.round readNonblocking s.queue.order) s' ∧ s'.running = true ∧
      s'.queue = { s.queue with order := pid :: rest } ∧
      s'.machine = s.machine.setPml4Phys proc.pageTableRoot := by
  refine ⟨{ s with
    machine := s.machine.setPml4Phys proc.pageTableRoot
    queue := { s.queue with order := pid :: rest }
    running := true }, ⟨⟨hrun, h.table.nodup, h.table.keys⟩, ?_⟩, rfl, rfl, rfl⟩
  simp only [Event.exec, System.round, sched, round_ok hrot hw, Except.mapError, ok_bind]

theorem Starts.eq_next {readNonblocking : F → Nat → Nat → Option FopReadResult}
    {iteration : List Pid} {rest : List Pid}
    (h : s.Starts (.round readNonblocking iteration) x st) (hrot : s.queue.Rotated pid rest proc) :
    x = pid := by
  cases h with
  | intro hr hst =>
    obtain ⟨rest', proc', hrot', -, -⟩ := ProcessQueue.round_cases hr
    exact (hrot'.unique hrot).1

theorem interrupted_step (hrun : s.running = true) (hf : s.queue.Front pid proc) (st : S) :
    ∃ s', system.step s (.interrupted st) s' ∧ s'.running = false ∧
      s'.queue = s.queue.set pid (proc.setPausedState st) := by
  refine ⟨{ s with queue := s.queue.set pid (proc.setPausedState st), running := false },
    ⟨hrun, ?_⟩, rfl, rfl⟩
  obtain ⟨rest, ho⟩ := hf.order
  simp only [Event.exec, leave, Op.exec, ProcessQueue.saveInterrupted,
    TableInv.modifyCurrent_eq ho hf.process, sched, Except.mapError, ok_bind]
  rfl

theorem forked_process (state : S) : ∃ s : System S Unit, ∃ proc proc', system.Reachable s ∧ s.Inv ∧
    s.running = true ∧ s.queue.order = [1, 2] ∧ s.queue.processes 1 = some proc ∧
    s.queue.processes 2 = some proc' ∧ proc.threads.waitingState = none ∧
    proc'.threads.waitingState = none := by
  have hacc : Accounted boot [] bootKernel := booted_boot.spaces.inv.accounted
  have hfree := freePages_boot
  obtain ⟨image, hgood, hpages⟩ : ∃ image : Image S, image.Good ∧ image.pages.length = 19 :=
    ⟨{ pages := program.pages, heapStart := program.heapStart, initialState := state },
      ⟨good_program.range, good_program.aligned, good_program.nodup⟩, rfl⟩
  obtain ⟨root, m, he, hl, hframes, hle, -⟩ := instantiate_ok hacc hgood (by rw [hpages]; omega)
  rw [hpages] at hframes hle
  have hinit : System.Init _ := System.Init.intro (F := Unit) [] booted_boot he
  have hrot : ProcessQueue.Rotated (S := S) (F := Unit)
      (ProcessQueue.started [] ⟨image.heapStart, root, image.initialState⟩) 1 [] _ := ⟨rfl, rfl⟩
  obtain ⟨s, hstart, hrun, hq, hm⟩ := round_step hinit.inv rfl hrot rfl fun _ _ _ => none
  have hi := (exec_change hinit.inv hstart.1 trivial hstart.2).inv hinit.inv
  have hf : s.queue.Front 1 (Process.create [] ⟨image.heapStart, root, image.initialState⟩) := by
    rw [hq]
    exact ⟨⟨[], rfl⟩, rfl⟩
  have hframes' : (frameList s.machine root).length ≤ (freePages s.machine).length := by
    rw [hm]
    have hset : freePages (m.setPml4Phys root) = freePages m := rfl
    show (frameList (m.setPml4Phys root) root).length ≤ (freePages (m.setPml4Phys root)).length
    rw [hset]
    exact Nat.le_trans hframes (by omega)
  have hnext : s.queue.nextFreePid = 2 := by rw [hq]; rfl
  have ho : s.queue.order = [1] := by rw [hq]
  obtain ⟨s', hfork, hr, -⟩ := fork_ok hi hf state (by rw [hnext]; decide) hframes'
  have hstep : system.step s (.fork state) s' := ⟨hrun, hfork⟩
  have hreach := ((Lts.Reachable.init (M := system) hinit).step hstart).step hstep
  have hi' := (exec_change hi hstep.1 trivial hstep.2).inv hi
  have hc := fork_cases hi hfork
  cases hc with
  | forked hf' hnone hnew hcl =>
    obtain ⟨rfl, rfl⟩ := hf.unique hf'
    have hparent : ∀ child : Process S Unit, Function.update s.queue.processes s.queue.nextFreePid
        (some child) 1 = s.queue.processes 1 := fun child =>
      Function.update_of_ne (by rw [hnext]; decide) _ _
    have hchild : ∀ child : Process S Unit, Function.update s.queue.processes s.queue.nextFreePid
        (some child) 2 = some child := fun child => by rw [hnext, Function.update_self]
    refine ⟨_, _, _, hreach, hi', hr.trans hrun, ?_, (hparent _).trans hf.process, hchild _,
      rfl, rfl⟩
    rw [ho, hnext]
    rfl
  | left hev => exact hev.elim

theorem interrupted_process (st : S) : ∃ (s₀ s₁ s₂ : System S Unit) (proc : Process S Unit)
    (events : List (Event S Unit)) (event' : Event S Unit), system.Reachable s₀ ∧
    s₀.queue.Front 1 proc ∧ system.step s₀ (.interrupted st) s₁ ∧
    system.Run (fun s e => ∀ st, ¬ s.Starts e 1 st) s₁ events s₂ ∧ s₂.Starts event' 1 st := by
  obtain ⟨s, proc, proc', hreach, hi, hrun, ho, hp, hp', hw, hw'⟩ := forked_process st
  have hf : s.queue.Front 1 proc := ⟨⟨[2], ho⟩, hp⟩
  obtain ⟨s₁, hstop, hidle, hq₁⟩ := interrupted_step hrun hf st
  have hi₁ := (exec_change hi hstop.1 trivial hstop.2).inv hi
  -- the child is next
  have hrot : s₁.queue.Rotated 2 [1] proc' := by
    rw [hq₁]
    refine ⟨?_, (s.queue.set_other _ (by decide)).trans hp'⟩
    rw [ProcessQueue.set_order, ho]
    rfl
  obtain ⟨s₂, hturn, hrun₂, hq₂, -⟩ := round_step hi₁ hidle hrot hw' fun _ _ _ => none
  have hf₂ : s₂.queue.Front 2 proc' := by
    rw [hq₂]
    exact ⟨⟨[1], rfl⟩, hrot.process⟩
  obtain ⟨s₃, hstop₂, -, hq₃⟩ := interrupted_step hrun₂ hf₂ st
  -- and then the parent again
  have hrot₃ : s₃.queue.Rotated 1 [2] (proc.setPausedState st) := by
    rw [hq₃, hq₂, hq₁]
    refine ⟨rfl, ?_⟩
    rw [ProcessQueue.set_other _ _ (by decide)]
    simp [ProcessQueue.set]
  have hrun : system.Run (fun s e => ∀ st, ¬ s.Starts e 1 st) s₁ _ s₂ := (Lts.Run.nil s₁).snoc
    (fun st' hstarts => absurd (hstarts.eq_next hrot) (by decide)) hturn
  have hrun₃ := hrun.snoc (fun st' hstarts => by cases hstarts) hstop₂
  exact ⟨s, s₁, s₃, proc, _, _, hreach, hf, hstop, hrun₃,
    .intro (round_ok hrot₃ hw (fun _ _ _ => none) []) rfl⟩

/-- **A process is started with the state that was saved last**: by an interrupt, by a system
call that waits, by the fork that made it, or by `execve`; whatever the others do meanwhile. -/
theorem resumes_with_saved_state (s₀ s₁ s₂ : System S F) (event event' : Event S F)
    (events : List (Event S F)) (x : Pid) (st st' : S) (h₀ : system.Reachable s₀)
    (hsave : s₀.Saves event x st) (hs : system.step s₀ event s₁)
    (hrun : system.Run (fun s e => ∀ st, ¬ s.Starts e x st) s₁ events s₂)
    (hstart : s₂.Starts event' x st') : st' = st := by
  have hsaved : SavedState x st s₂ := by
    refine hrun.invariant (P := fun _ s => SavedState x st s) ?_
      (hsave.savedState (reachable_ready h₀) hs)
    exact fun _ _ _ _ h hok hs => h.step hok hs
  exact hstart.eq_saved hsaved

/-- Two processes, and the state of the first one after the second has run. -/
theorem resumes_with_saved_state_interrupted : ∃ (s₀ s₁ s₂ : System Nat Unit)
    (events : List (Event Nat Unit)) (event' : Event Nat Unit) (st' : Nat),
    system.step s₀ (.interrupted 7) s₁ ∧
    system.Run (fun s e => ∀ st, ¬ s.Starts e 1 st) s₁ events s₂ ∧
    s₂.Starts event' 1 st' ∧ st' = 7 := by
  obtain ⟨s₀, s₁, s₂, proc, events, event', h₀, hf, hs, hrun, hstart⟩ := interrupted_process 7
  exact ⟨s₀, s₁, s₂, events, event', 7, hs, hrun, hstart,
    resumes_with_saved_state s₀ s₁ s₂ _ event' events 1 7 7 h₀ (.interrupted hf) hs hrun hstart⟩

/-! ### With the handlers -/

section

variable {globals : Set Nat} {low : Nat} {apicTimerCounter apicEoi : State → State}

/-- **The timer cannot be noticed** by a process that it stops: `run_next_task` saves what the
handler has pushed, and whatever runs until then, `start_userland` gives the process back
every register. -/
theorem timer_preemption_transparent (u k k' : State) (rsp0 p : Word)
    (s₀ s₁ s₂ : System ProcessorState F) (event' : Event ProcessorState F)
    (events : List (Event ProcessorState F)) (x : Pid) (proc : Process ProcessorState F)
    (h : Stack globals low (interruptStack u rsp0).toNat)
    (htimer : Obeys globals low apicTimerCounter ((interrupt u rsp0).pushRegs savedRegs))
    (heoi : Obeys globals low apicEoi
      (apicTimerCounter ((interrupt u rsp0).pushRegs savedRegs))) (hu : fromUserland u)
    (hhandler : vector32Handler apicTimerCounter apicEoi (interrupt u rsp0) = .runNextTask p k)
    (h₀ : system.Reachable s₀) (hf : s₀.queue.Front x proc)
    (hs : system.step s₀ (.interrupted (ProcessorState.read k.mem p.toNat)) s₁)
    (hrun : system.Run (fun s e => ∀ st, ¬ s.Starts e x st) s₁ events s₂)
    (hstart : s₂.Starts event' x (ProcessorState.read k'.mem (k'.regs .rdi).toNat))
    (hk : (k'.regs .rdi).toNat + stateBytes < 2 ^ 64) :
    processorState (startUserland k') = processorState u := by
  obtain ⟨p', s, hhandler', hread, -⟩ := vector32_user h htimer heoi hu
  obtain ⟨rfl, rfl⟩ := Exit.runNextTask.inj (hhandler.symm.trans hhandler')
  have hsaved := resumes_with_saved_state s₀ s₁ s₂ _ event' events x _ _ h₀ (.interrupted hf) hs
    hrun hstart
  rw [(startUserland_processorState hk).1, hsaved, hread]

/-- The pointer that the handler passes on is also where `start_userland` may read. -/
theorem timer_preemption_transparent_userState : ∃ k p,
    vector32Handler sampleCall sampleCall (interrupt userState 0x200000) = .runNextTask p k ∧
    processorState (startUserland (k.set .rdi p)) = processorState userState := by
  have hrsp := stack_userState.saved.1.rsp
  rw [show (interruptStack userState 0x200000).toNat = 0x200000 by decide] at hrsp
  have htimer : Obeys sampleData 0x100000 sampleCall
      ((interrupt userState 0x200000).pushRegs savedRegs) :=
    obeys_sampleCall (by rw [hrsp]; decide)
  have heoi : Obeys sampleData 0x100000 sampleCall
      (sampleCall ((interrupt userState 0x200000).pushRegs savedRegs)) :=
    obeys_sampleCall (by rw [sampleCall_rsp, hrsp]; decide)
  obtain ⟨k, hs, -, he⟩ := stack_userState.timer htimer heoi
  rw [if_pos (by decide)] at he
  obtain ⟨s₀, s₁, s₂, proc, events, event', h₀, hf, hstep, hrun, hstart⟩ := interrupted_process
    (ProcessorState.read k.mem (k.regs .rsp).toNat)
  refine ⟨_, _, he, ?_⟩
  refine timer_preemption_transparent userState _ _ 0x200000 _ s₀ s₁ s₂ event' events 1 proc
    stack_userState htimer heoi (by decide) he h₀ hf hstep hrun ?_ ?_
  · simpa using hstart
  · rw [State.set_regs, Function.update_self, hs.rsp]
    decide

/-- **A system call that waits cannot be told from one that returns**: whether the process is
started again later, or `process_syscall` returns, it goes on in the same state. -/
theorem syscall_resumes (u k' : State) (syscallStackTop : Nat) (processSyscall : State → State)
    (s₀ s₁ s₂ : System ProcessorState F) (event event' : Event ProcessorState F)
    (events : List (Event ProcessorState F)) (x : Pid)
    (h : Stack globals low (loadWord u.mem syscallStackTop).toNat)
    (hcall : Obeys globals low processSyscall (handleSyscallEntry syscallStackTop (syscall u)))
    (h₀ : system.Reachable s₀)
    (hsave : s₀.Saves event x (ProcessorState.read
      (handleSyscallEntry syscallStackTop (syscall u)).mem
      ((handleSyscallEntry syscallStackTop (syscall u)).regs .rdx).toNat))
    (hs : system.step s₀ event s₁)
    (hrun : system.Run (fun s e => ∀ st, ¬ s.Starts e x st) s₁ events s₂)
    (hstart : s₂.Starts event' x (ProcessorState.read k'.mem (k'.regs .rdi).toNat))
    (hk : (k'.regs .rdi).toNat + stateBytes < 2 ^ 64) :
    processorState (startUserland k') = syscallState u ∧
    processorState (handleSyscall syscallStackTop processSyscall (syscall u)) = syscallState u := by
  refine ⟨?_, (handle_syscall_returns h hcall).1⟩
  obtain ⟨hentry, -, -, -, hrdx⟩ := syscall_entry h
  rw [hrdx, hentry.rsp, hentry.state] at hsave
  rw [(startUserland_processorState hk).1]
  exact resumes_with_saved_state s₀ s₁ s₂ event event' events x _ _ h₀ hsave hs hrun hstart

/-- A process that yields, with the top of the kernel's stack at `0x600000`. -/
theorem syscall_resumes_yield : ∃ u k : State,
    processorState (startUserland k) = syscallState u ∧
    processorState (handleSyscall 0x600000 sampleCall (syscall u)) = syscallState u := by
  obtain ⟨u, hu⟩ : ∃ u : State, u =
    { userState with mem := storeWord (fun _ => 0) 0x600000 0x200000 } := ⟨_, rfl⟩
  have htop : loadWord u.mem 0x600000 = 0x200000 := by
    rw [hu]
    exact loadWord_storeWord _ _ _
  have h : Stack sampleData 0x100000 (loadWord u.mem 0x600000).toNat := by
    have hstack := stack_userState
    rwa [show interruptStack userState 0x200000 = 0x200000 by decide, ← htop] at hstack
  obtain ⟨hentry, -, -, -, hrdx⟩ := syscall_entry h
  have hcall : Obeys sampleData 0x100000 sampleCall (handleSyscallEntry 0x600000 (syscall u)) :=
    obeys_sampleCall (by rw [hentry.rsp, htop]; decide)
  obtain ⟨s₀, s₁, s₂, proc, events, event', h₀, hf, hstep, hrun, hstart⟩ := interrupted_process
    (ProcessorState.read (handleSyscallEntry 0x600000 (syscall u)).mem
      ((handleSyscallEntry 0x600000 (syscall u)).regs .rdx).toNat)
  refine ⟨u, (handleSyscallEntry 0x600000 (syscall u)).set .rdi
    ((handleSyscallEntry 0x600000 (syscall u)).regs .rdx), ?_⟩
  refine syscall_resumes u _ 0x600000 sampleCall s₀ s₁ s₂ _ event' events 1 h hcall h₀
    (.interrupted hf) hstep hrun ?_ ?_
  · simpa using hstart
  · rw [State.set_regs, Function.update_self, hrdx, hentry.rsp, htop]
    decide

end

end System

end Stuos.Os
