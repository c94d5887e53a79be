import Stuos.Sched.PipeEnds

/-!
# `dup2`

`unistd.c` and `fcntl.c` of the C library, over the kernel's two calls on descriptors.
`calls` lists the system calls that the library has made.

* `closeFd_ok`: a descriptor that is open can be closed, in every sound state.
* `dup2_open`: what `dup2` does when `fildes2` is open and is not `fildes`.
* `dup2_law_iff`: **exactly then, and for numbers it refuses, `dup2` does what it
  should**.  It closes `fildes2` without asking whether it is open or is `fildes`, and
  the kernel panics; and it lets `OPEN_MAX` through.
-/

namespace Stuos.Sched

open Stuos.Lib Stuos.Ipc

variable {S : Type}

/-! ### The library -/

/-- `F_DUPFD`. -/
def fDupFd : Int := 0

/-- `EBADF`. -/
def ebadf : Int := 9

/-- `syscall_dupfd` with the `result_fd` it fills in. -/
def Kernel.syscallDupfdResult (k : Kernel S) (fildes minNewFd : Int) :
    Except Fault (Nat × Kernel S) := do
  ensure (0 ≤ minNewFd ∧ minNewFd < openMax) .dupRange
  ensure (0 ≤ fildes ∧ fildes < openMax) .dupRange
  let curr ← sched k.queue.current
  let o ← sched (slotAt curr.fileDescriptors fildes)
  let resultFd ← orHalt .noFreeFd (findFreeFd curr.fileDescriptors minNewFd.toNat)
  let queue ← sched (k.queue.modifyCurrent (·.setFd resultFd (some o)))
  .ok (resultFd, ⟨k.files.rcClone o, queue⟩)

/-- What ends the calling program. -/
inductive LibcFault
  | kernel (f : Fault)
  /-- `abort` on an unknown command. -/
  | unknownFcntl
  deriving DecidableEq, Repr

/-- The library of the process that runs, and the kernel below it. -/
structure Libc (S : Type) where
  kernel : Kernel S
  errno : Int
  calls : List (Syscall S)

namespace Libc

def close (l : Libc S) (fd : Int) : Except LibcFault (Int × Libc S) := do
  let kernel ← (l.kernel.syscallCloseFd fd).mapError .kernel
  .ok (0, { l with kernel := kernel, calls := l.calls ++ [.closeFd fd] })

/-- `fcntl` with its one optional argument. -/
def fcntl (l : Libc S) (fildes cmd fd : Int) : Except LibcFault (Int × Libc S) :=
  if cmd = fDupFd then do
    let r ← (l.kernel.syscallDupfdResult fildes fd).mapError .kernel
    .ok (r.1, { l with kernel := r.2, calls := l.calls ++ [.dupfd fildes fd] })
  else .error .unknownFcntl

def dup2 (l : Libc S) (fildes fildes2 : Int) : Except LibcFault (Int × Libc S) :=
  if fildes2 < 0 ∨ openMax < fildes2 then .ok (-1, { l with errno := ebadf })
  else do
    let r ← l.close fildes2
    r.2.fcntl fildes fDupFd fildes2

end Libc

theorem syscallDupfd_eq (k : Kernel S) (fildes minNewFd : Int) :
    k.syscallDupfd fildes minNewFd = (k.syscallDupfdResult fildes minNewFd).map Prod.snd := by
  unfold Kernel.syscallDupfd Kernel.syscallDupfdResult
  cases ensure (0 ≤ minNewFd ∧ minNewFd < openMax) Fault.dupRange with
  | error e => rfl
  | ok _ =>
    cases ensure (0 ≤ fildes ∧ fildes < openMax) Fault.dupRange with
    | error e => rfl
    | ok _ =>
      simp only [ok_bind]
      cases Kernel.sched k.queue.current with
      | error e => rfl
      | ok curr =>
        simp only [ok_bind]
        cases Kernel.sched (slotAt curr.fileDescriptors fildes) with
        | error e => rfl
        | ok o =>
          simp only [ok_bind]
          cases orHalt Fault.noFreeFd (findFreeFd curr.fileDescriptors minNewFd.toNat) with
          | error e => rfl
          | ok fd =>
            simp only [ok_bind]
            cases Kernel.sched (k.queue.modifyCurrent (·.setFd fd (some o))) <;> rfl

/-! ### Sound states -/

/-- The counts are right, so are the pipes, and every descriptor table has `OPEN_MAX` slots. -/
structure Kernel.Sound (k : Kernel S) : Prop where
  inv : k.Inv
  pipes : k.files.PipesInv
  slots : ∀ pid proc, k.queue.processes pid = some proc →
    proc.fileDescriptors.length = openMax

theorem Kernel.Change.slots {k k' : Kernel S} {call : Syscall S} (hc : k.Change call k')
    (h : ∀ pid proc, k.queue.processes pid = some proc → proc.fileDescriptors.length = openMax) :
    ∀ pid proc, k'.queue.processes pid = some proc → proc.fileDescriptors.length = openMax := by
  have hset : ∀ {q : ProcessQueue S Nat} {pid : Pid} {proc proc' : Process S Nat},
      q.processes = k.queue.processes → k.queue.processes pid = some proc →
      proc'.fileDescriptors.length = proc.fileDescriptors.length →
      ∀ p x, (q.set pid proc').processes p = some x → x.fileDescriptors.length = openMax := by
    intro q pid proc proc' hq hp hlen p x hx
    by_cases hpp : p = pid
    · subst hpp
      rw [ProcessQueue.set_same, Option.some.injEq] at hx
      subst hx
      rw [hlen, h p proc hp]
    · rw [ProcessQueue.set_other _ _ hpp, hq] at hx
      exact h p x hx
  cases hc with
  | openFile hf hfd => exact hset rfl hf.process (by simp [Process.setFd])
  | pipe hf ha hb => exact hset rfl hf.process (by simp [Process.setFd])
  | dupfd hf hheld hfd => exact hset rfl hf.process (by simp [Process.setFd])
  | closeFd hf hfd hd => exact hset rfl hf.process (by simp [Process.setFd])
  | write hf hheld hw => exact h
  | lseek hf hheld hw => exact h
  | thread hf hid hfd hzombie => exact hset rfl hf.process (by rw [hfd])
  | fork hf hnone =>
    intro p x hx
    by_cases hp : p = k.queue.nextFreePid
    · subst hp
      simp only [Function.update_self, Option.some.injEq] at hx
      subst hx
      have hparent := h _ _ hf.process
      exact hparent
    · simp only [Function.update_of_ne hp] at hx
      exact h p x hx
  | execve hf hd => exact hset rfl hf.process rfl
  | round hrot hpoll hproc =>
    refine hset rfl hrot.process ?_
    rcases hproc with rfl | rfl <;> rfl
  | reap hrot hz hppid hzp hzombie hperm hd hinv =>
    rename_i pid rest proc z child order files
    intro p x hx
    by_cases hpz : p = z
    · subst hpz
      simp at hx
    · simp only [Function.update_of_ne hpz] at hx
      have hlen : (proc.setWaitingState none).fileDescriptors.length =
          proc.fileDescriptors.length := rfl
      exact hset (q := k.queue) rfl hrot.process hlen p x hx

theorem sound_initial (program : LoadedProgram S) :
    (⟨.initial, ProcessQueue.started defaultFd program⟩ : Kernel S).Sound := by
  obtain ⟨hinv, hpipes, -⟩ := endsInv_initial program
  refine ⟨hinv, hpipes, fun pid proc hp => ?_⟩
  by_cases hpid : pid = 1
  · subst hpid
    obtain rfl : Process.create defaultFd program = proc := by
      simpa [ProcessQueue.started] using hp
    rfl
  · simp [ProcessQueue.started, hpid] at hp

theorem reachable_sound {k : Kernel S} (h : kernel.Reachable k) : k.Sound := by
  refine h.invariant (P := Kernel.Sound) ?_ ?_
  · rintro k ⟨program, rfl⟩
    exact sound_initial program
  · rintro k call k' hk ⟨-, he⟩
    have hc := exec_change hk.inv.table he
    exact ⟨(exec_kept hk.inv he).inv, (hc.pipes hk.inv hk.pipes).1, hc.slots hk.slots⟩

/-! ### Closing and duplicating -/

section

variable {k : Kernel S} {pid : Pid} {proc : Process S Nat}

theorem current_of_front {q : ProcessQueue S Nat} (hf : q.Front pid proc) :
    q.current = .ok proc := by
  obtain ⟨rest, ho⟩ := hf.order
  simp [ProcessQueue.current, ProcessQueue.currentPid, ho, hf.process]

theorem modifyCurrent_of_front {q : ProcessQueue S Nat} (hf : q.Front pid proc)
    (f : Process S Nat → Process S Nat) : q.modifyCurrent f = .ok (q.set pid (f proc)) := by
  obtain ⟨rest, ho⟩ := hf.order
  simp [ProcessQueue.modifyCurrent, ProcessQueue.currentPid, ho, hf.process, ProcessQueue.set]

theorem front_set {q : ProcessQueue S Nat} (hf : q.Front pid proc) (proc' : Process S Nat) :
    (q.set pid proc').Front pid proc' :=
  ⟨hf.order, ProcessQueue.set_same _ _ _⟩

/-- The end of a pipe that some slot refers to is open, and so `pipe_close` follows no pointer
to memory that is gone. -/
theorem rcDrop_ok (hs : k.Sound) {o : Nat} (ho : o ∈ k.queue.slots) :
    ∃ files, k.files.rcDrop o = .ok files := by
  simp only [Files.rcDrop]
  split
  · rw [Files.close]
    split
    · rename_i number e hdev
      have hmade := hs.inv.owns.below o ho
      have hopen : (k.files.pipes number).get e ≠ none := fun hnone =>
        hs.inv.owns.not_closed ho ((hs.pipes.closed o number e hmade hdev).mp hnone)
      obtain ⟨data, hdata⟩ := Option.ne_none_iff_exists'.mp hopen
      have hlink := hs.pipes.linked number (hs.pipes.below o number e hmade hdev) e data hdata
      have hclose : ∃ p, pipeClose (k.files.pipes number) e = .ok p := by
        rw [pipeClose, hdata]
        simp only [orHalt_some, ok_bind]
        cases hother : (k.files.pipes number).get e.other with
        | none =>
          rw [hlink, hother]
          exact ⟨_, rfl⟩
        | some other =>
          rw [hlink, hother]
          simp only [Option.isSome_some, if_true, hother, orHalt_some, ok_bind]
          exact ⟨_, rfl⟩
      obtain ⟨p, hp⟩ := hclose
      simp only [hp]
      exact ⟨_, rfl⟩
    · exact ⟨_, rfl⟩
  · exact ⟨_, rfl⟩

/-- **A descriptor that is open can be closed.** -/
theorem closeFd_ok (hs : k.Sound) (hf : k.queue.Front pid proc) {fd : Int} {o : Nat}
    (ho : slotAt proc.fileDescriptors fd = .ok o) :
    ∃ files, k.syscallCloseFd fd = .ok ⟨files, k.queue.set pid (proc.setFd fd.toNat none)⟩ := by
  have hslot := slotAt_spec ho
  have hmem := ProcessQueue.mem_slots_of_held hs.inv.table hf.process (mem_held_of_slot hslot)
  obtain ⟨files, hdrop⟩ := rcDrop_ok hs hmem
  refine ⟨files, ?_⟩
  rw [Kernel.syscallCloseFd, current_of_front hf]
  simp only [Kernel.sched, Except.mapError, ok_bind, ho, modifyCurrent_of_front hf, hdrop]

/-- The slot that was asked for is the lowest free one from there on. -/
theorem findFreeFd_self {slots : List (Option Nat)} {fd : Nat} (h : slots[fd]? = some none) :
    findFreeFd slots fd = some fd := by
  rw [findFreeFd, List.find?_range_eq_some]
  obtain ⟨hlt, -⟩ := List.getElem?_eq_some_iff.mp h
  refine ⟨by simp [h], List.mem_range.mpr hlt, ?_⟩
  intro j hj
  simp [Nat.not_le.mpr hj]

theorem dupfd_ok (hf : k.queue.Front pid proc) {fildes fildes2 : Int} {o : Nat}
    (ho : slotAt proc.fileDescriptors fildes = .ok o) (hfildes : 0 ≤ fildes ∧ fildes < openMax)
    (hrange : 0 ≤ fildes2 ∧ fildes2 < openMax)
    (hfree : proc.fileDescriptors[fildes2.toNat]? = some none) :
    k.syscallDupfdResult fildes fildes2 = .ok (fildes2.toNat,
      ⟨k.files.rcClone o, k.queue.set pid (proc.setFd fildes2.toNat (some o))⟩) := by
  rw [Kernel.syscallDupfdResult, current_of_front hf, ensure_of hrange, ensure_of hfildes]
  simp only [Kernel.sched, Except.mapError, ok_bind, ho, findFreeFd_self hfree, orHalt_some,
    modifyCurrent_of_front hf]

end

/-! ### The law -/

namespace Libc

/-- `fildes2` refers to what `fildes` refers to, and nothing else has changed. -/
def Duplicated (l l' : Libc S) (fildes fildes2 : Int) : Prop :=
  ∃ pid proc proc', l.kernel.queue.Front pid proc ∧ l'.kernel.queue.Front pid proc' ∧
    proc'.fileDescriptors[fildes2.toNat]? = proc.fileDescriptors[fildes.toNat]? ∧
    (∀ fd, fd ≠ fildes2.toNat → proc'.fileDescriptors[fd]? = proc.fileDescriptors[fd]?) ∧
    ∀ other, other ≠ pid →
      l'.kernel.queue.processes other = l.kernel.queue.processes other

/-- What `dup2` is for. -/
structure Dup2Law (l : Libc S) (fildes fildes2 : Int) : Prop where
  duplicates : 0 ≤ fildes2 ∧ fildes2 < openMax →
    ∃ l', l.dup2 fildes fildes2 = .ok (fildes2, l') ∧ l.Duplicated l' fildes fildes2
  refuses : ¬ (0 ≤ fildes2 ∧ fildes2 < openMax) →
    ∃ l', l.dup2 fildes fildes2 = .ok (-1, l') ∧ l'.errno = ebadf ∧ l'.calls = l.calls ∧
      l'.kernel = l.kernel

variable {l : Libc S} {pid : Pid} {proc : Process S Nat} {fildes fildes2 : Int} {o o' : Nat}

theorem slotAt_range {slots : List (Option Nat)} (hlen : slots.length = openMax) {fd : Int}
    (h : slotAt slots fd = .ok o) : 0 ≤ fd ∧ fd < openMax := by
  have hslot := slotAt_spec h
  obtain ⟨hlt, -⟩ := List.getElem?_eq_some_iff.mp hslot
  simp only [slotAt, bind_eq_ok, ensure_eq_ok] at h
  obtain ⟨_, hpos, -⟩ := h
  omega

theorem dup2_of_close_error (hrange : 0 ≤ fildes2 ∧ fildes2 ≤ openMax)
    (h : ∀ l', l.close fildes2 ≠ .ok l') : ∀ r, l.dup2 fildes fildes2 ≠ .ok r := by
  intro r hr
  rw [dup2, if_neg (by omega), bind_eq_ok] at hr
  obtain ⟨l', hl', -⟩ := hr
  exact h l' hl'

theorem close_ok (hs : l.kernel.Sound) (hf : l.kernel.queue.Front pid proc) {fd : Int}
    (ho : slotAt proc.fileDescriptors fd = .ok o) :
    ∃ files, l.close fd = .ok (0, { l with
      kernel := ⟨files, l.kernel.queue.set pid (proc.setFd fd.toNat none)⟩
      calls := l.calls ++ [.closeFd fd] }) := by
  obtain ⟨files, hclose⟩ := closeFd_ok hs hf ho
  refine ⟨files, ?_⟩
  rw [close, hclose]
  rfl

theorem close_error (hf : l.kernel.queue.Front pid proc) {fd : Int}
    (h : ∀ o, slotAt proc.fileDescriptors fd ≠ .ok o) : ∀ r, l.close fd ≠ .ok r := by
  intro r hr
  rw [close, bind_eq_ok] at hr
  obtain ⟨k, hk, -⟩ := hr
  rw [mapError_eq_ok, Kernel.syscallCloseFd, current_of_front hf] at hk
  simp only [bind_eq_ok, sched_eq_ok] at hk
  obtain ⟨curr, hcurr, o, ho, -⟩ := hk
  cases hcurr
  exact h o ho

/-- `dup2` onto itself closes the descriptor and then looks for it. -/
theorem dup2_self_error (hs : l.kernel.Sound) (hf : l.kernel.queue.Front pid proc)
    (ho : slotAt proc.fileDescriptors fildes = .ok o) : ∀ r, l.dup2 fildes fildes ≠ .ok r := by
  intro r hr
  have hrange := slotAt_range (hs.slots pid proc hf.process) ho
  obtain ⟨files, hclose⟩ := close_ok hs hf ho
  rw [dup2, if_neg (by omega), hclose, ok_bind, fcntl, if_pos rfl, bind_eq_ok] at hr
  obtain ⟨r', hdup, -⟩ := hr
  have hf' := front_set hf (proc.setFd fildes.toNat none)
  rw [mapError_eq_ok, Kernel.syscallDupfdResult] at hdup
  simp only [bind_eq_ok, ensure_eq_ok, sched_eq_ok] at hdup
  obtain ⟨_, -, _, -, curr, hcurr, o', ho', -⟩ := hdup
  rw [current_of_front hf', Except.ok.injEq] at hcurr
  subst hcurr
  have hslot := slotAt_spec ho'
  rw [Process.setFd, List.getElem?_set_self' ] at hslot
  simp at hslot

/-- **`dup2` onto another open descriptor.** -/
theorem dup2_open (hs : l.kernel.Sound) (hf : l.kernel.queue.Front pid proc)
    (ho : slotAt proc.fileDescriptors fildes = .ok o)
    (ho' : slotAt proc.fileDescriptors fildes2 = .ok o') (hne : fildes2 ≠ fildes) :
    ∃ l', l.dup2 fildes fildes2 = .ok (fildes2, l') ∧ l.Duplicated l' fildes fildes2 := by
  have hlen := hs.slots pid proc hf.process
  have hr := slotAt_range hlen ho
  have hr' := slotAt_range hlen ho'
  have hnat : fildes.toNat ≠ fildes2.toNat := by omega
  have hlt : fildes2.toNat < proc.fileDescriptors.length := by omega
  obtain ⟨files, hclose⟩ := close_ok hs hf ho'
  have hf' := front_set hf (proc.setFd fildes2.toNat none)
  have hkeep : slotAt (proc.setFd fildes2.toNat none).fileDescriptors fildes = .ok o := by
    rw [slotAt, Process.setFd]
    rw [slotAt] at ho
    simpa [List.getElem?_set_ne (Ne.symm hnat)] using ho
  have hfree : (proc.setFd fildes2.toNat none).fileDescriptors[fildes2.toNat]? = some none := by
    rw [Process.setFd]
    exact List.getElem?_set_self hlt
  have hdup := dupfd_ok (k := ⟨files, l.kernel.queue.set pid (proc.setFd fildes2.toNat none)⟩)
    hf' hkeep hr hr' hfree
  have hf'' := front_set hf' ((proc.setFd fildes2.toNat none).setFd fildes2.toNat (some o))
  have hdup2 : l.dup2 fildes fildes2 = .ok (fildes2.toNat, { l with
      kernel := ⟨files.rcClone o, (l.kernel.queue.set pid (proc.setFd fildes2.toNat none)).set pid
        ((proc.setFd fildes2.toNat none).setFd fildes2.toNat (some o))⟩
      calls := l.calls ++ [.closeFd fildes2] ++ [.dupfd fildes fildes2] }) := by
    rw [dup2, if_neg (by omega), hclose, ok_bind, fcntl, if_pos rfl, hdup]
    rfl
  rw [Int.toNat_of_nonneg hr'.1] at hdup2
  refine ⟨_, hdup2, pid, proc, _, hf, hf'', ?_, ?_, ?_⟩
  · rw [slotAt_spec ho, Process.setFd, Process.setFd]
    exact List.getElem?_set_self (by simpa using hlt)
  · intro fd hfd
    rw [Process.setFd, Process.setFd]
    dsimp only
    rw [List.getElem?_set_ne (Ne.symm hfd), List.getElem?_set_ne (Ne.symm hfd)]
  · intro other hother
    simp [ProcessQueue.set_other _ _ hother]

/-- **When `dup2` obeys its law**: it refuses the number, or `fildes2` is open and is not
`fildes`. -/
theorem dup2_law_iff (l : Libc S) (fildes fildes2 : Int) (hs : l.kernel.Sound) (pid : Pid)
    (proc : Process S Nat) (hf : l.kernel.queue.Front pid proc)
    (hopen : ∃ o, slotAt proc.fileDescriptors fildes = .ok o) :
    l.Dup2Law fildes fildes2 ↔ fildes2 < 0 ∨ openMax < fildes2 ∨
      (fildes2 ≠ fildes ∧ ∃ o, slotAt proc.fileDescriptors fildes2 = .ok o) := by
  obtain ⟨o, ho⟩ := hopen
  have hlen := hs.slots pid proc hf.process
  constructor
  · rintro ⟨hdup, href⟩
    by_contra hcon
    rw [not_or, not_or, not_and] at hcon
    obtain ⟨h0, h1, hcon⟩ := hcon
    have hno : ∀ r, l.dup2 fildes fildes2 ≠ .ok r := by
      by_cases hne : fildes2 = fildes
      · rw [hne]
        exact dup2_self_error hs hf ho
      · refine dup2_of_close_error (by omega) (close_error hf fun o' ho' => ?_)
        exact hcon hne ⟨o', ho'⟩
    by_cases hrange : 0 ≤ fildes2 ∧ fildes2 < openMax
    · obtain ⟨l', hl', -⟩ := hdup hrange
      exact hno _ hl'
    · obtain ⟨l', hl', -⟩ := href hrange
      exact hno _ hl'
  · intro h
    have hrefuse : fildes2 < 0 ∨ openMax < fildes2 → l.Dup2Law fildes fildes2 := by
      intro hout
      refine ⟨fun hr => by omega, fun _ => ⟨{ l with errno := ebadf }, ?_, rfl, rfl, rfl⟩⟩
      rw [dup2, if_pos hout]
    rcases h with h | h | ⟨hne, o', ho'⟩
    · exact hrefuse (.inl h)
    · exact hrefuse (.inr h)
    · have hr := slotAt_range hlen ho'
      exact ⟨fun _ => dup2_open hs hf ho ho' hne, fun hout => absurd hr hout⟩

/-- The first program, with its three descriptors. -/
def started : Libc Unit :=
  ⟨⟨.initial, ProcessQueue.started defaultFd ⟨0, 0, ()⟩⟩, 0, []⟩

/-- `dup2(1, 2)` at the start. -/
theorem dup2_law_stderr : started.Dup2Law 1 2 :=
  (dup2_law_iff started 1 2 (sound_initial _) 1 _ ⟨⟨[], rfl⟩, rfl⟩ ⟨1, rfl⟩).mpr
    (.inr (.inr ⟨by decide, 2, rfl⟩))

/-- `dup2(1, 5)` at the start, where 5 is closed, `dup2(1, 1)` and `dup2(1, OPEN_MAX)`: the
kernel panics. -/
theorem dup2_closed_panics :
    Sched.kernel.Reachable started.kernel ∧ slotAt defaultFd 1 = .ok 1 ∧
      started.dup2 1 5 = .error (.kernel (.panic .fdClosed)) ∧
      started.dup2 1 1 = .error (.kernel (.panic .fdClosed)) ∧
      started.dup2 1 10 = .error (.kernel (.panic .fdOutOfBounds)) ∧
      ¬ started.Dup2Law 1 5 ∧ ¬ started.Dup2Law 1 1 ∧ ¬ started.Dup2Law 1 10 := by
  refine ⟨.init ⟨_, rfl⟩, rfl, rfl, rfl, rfl, fun h => ?_, fun h => ?_, fun h => ?_⟩
  · obtain ⟨l', hl', -⟩ := h.duplicates (by decide)
    cases hl'
  · obtain ⟨l', hl', -⟩ := h.duplicates (by decide)
    cases hl'
  · obtain ⟨l', hl', -⟩ := h.refuses (by decide)
    cases hl'

end Libc

end Stuos.Sched
