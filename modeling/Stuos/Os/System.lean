import Stuos.Memory.Programs
import Stuos.Sched.Steps

/-!
# Processes and their address spaces

The process table of `scheduling.rs` together with the page tables of `memory.c`: the system
calls that touch both, and the rounds of `run_next_task`, which drop the processes they reap.

`running` is true while the process at the front is in userland; a system call that does not
return to it goes on with rounds of `run_next_task`.  `kernel` and `requested` are only kept
for the statements: the frames that the allocator gave to the kernel, and for each process
the pages it has from `REQUEST_PAGE`, with their frames.
-/

namespace Stuos.Sched

open Stuos.Lib

/-! ### Limits -/

inductive AllocateLimitResult (S E : Type)
  | success (s : S)
  | aboveLimit
  | error (e : E)

/-- `LimitData::try_allocate`; `overflow` is the panic of `checked_add(..).unwrap()`. -/
def LimitData.tryAllocate {ε S E : Type} (overflow : ε) (self : LimitData) (increase : Nat)
    (f : Except ε (Except E S)) : Except ε (AllocateLimitResult S E × LimitData) := do
  ensure (self.currentValue + increase < 2 ^ 64) overflow
  if self.limit.rlimCur < self.currentValue + increase then
    .ok (.aboveLimit, self)
  else do
    -- limit can be raised, so try and run the closure
    let x ← f
    match x with
    | .ok x => .ok (.success x, { self with currentValue := self.currentValue + increase })
    | .error x => .ok (.error x, self)

/-- `LimitData::try_update`. -/
def LimitData.tryUpdate {ε : Type} (assertion : ε) (self : LimitData) (newLimit : RLimit) :
    Except ε LimitData := do
  ensure (newLimit.rlimMax ≤ self.limit.rlimMax) assertion
  ensure (newLimit.rlimCur ≤ newLimit.rlimMax) assertion
  .ok { self with limit := newLimit }

end Stuos.Sched

namespace Stuos.Os

open Stuos.Lib Stuos.Memory Stuos.Sched
open Stuos.Ipc (FopReadResult)

/-- `ENOMEM`. -/
def enomem : Nat := 12

/-- `RLIMIT_DATA`. -/
def rlimitData : Int := 0

/-- What stops the kernel. -/
inductive Fault
  | panic (p : Panic)
  | halt (h : Halt)
  /-- `checked_add(..).unwrap()` in `try_allocate`. -/
  | limitOverflow
  /-- The assertions of `try_update`. -/
  | limitAssert
  /-- A resource other than `RLIMIT_DATA`. -/
  | invalidResource

variable {S F : Type}

structure System (S F : Type) where
  machine : Machine
  queue : ProcessQueue S F
  running : Bool
  kernel : List Nat
  requested : Pid → List (Nat × Nat)

namespace System

def sched {α : Type} (x : Except Panic α) : Except Fault α := x.mapError Fault.panic

def mem {α : Type} (x : Except Halt α) : Except Fault α := x.mapError Fault.halt

/-- The root of a process. -/
def rootOf (q : ProcessQueue S F) (pid : Pid) : Nat :=
  match q.processes pid with
  | some proc => proc.pageTableRoot
  | none => 0

/-- The roots of all processes. -/
def roots (s : System S F) : List Nat := s.queue.order.map (rootOf s.queue)

/-! ### System calls -/

/-- `syscall_request_page`: the error number, and the state afterwards. -/
def syscallRequestPage (s : System S F) (virt : Nat) : Except Fault (Nat × System S F) := do
  let pid ← sched s.queue.currentPid
  let curr ← sched s.queue.current
  let r ← curr.memoryLimit.tryAllocate (E := Unit) .limitOverflow pageSize do
    let m ← mem (allocateRamPage s.machine virt false)
    .ok (.ok m)
  match r.1 with
  | .success m => do
    let queue ← sched (s.queue.modifyCurrent fun proc => { proc with memoryLimit := r.2 })
    let page := (virt, (reach m m.cr3 (pathOf virt)).getD 0)
    .ok (0, { s with
      machine := m
      queue := queue
      requested := Function.update s.requested pid (page :: s.requested pid) })
  | _ => .ok (enomem, s)

def syscallSetrlimit (s : System S F) (resource : Int) (limit : RLimit) :
    Except Fault (System S F) := do
  ensure (resource = rlimitData) .invalidResource
  let curr ← sched s.queue.current
  let memoryLimit ← curr.memoryLimit.tryUpdate .limitAssert limit
  let queue ← sched (s.queue.modifyCurrent fun proc => { proc with memoryLimit := memoryLimit })
  .ok { s with queue := queue }

/-- `syscall_fork`; the child has copies of the requested pages in its own frames. -/
def syscallFork (s : System S F) (parentState : S) : Except Fault (System S F) := do
  let pid ← sched s.queue.currentPid
  let curr ← sched s.queue.current
  let r ← mem (cloneVirtualAddressing s.machine curr.pageTableRoot)
  let p ← sched (s.queue.push [] ⟨curr.heapStart, r.1, parentState⟩)
  let m := r.2.setPml4Phys r.1
  let curr ← sched p.2.current
  let m := m.setPml4Phys curr.pageTableRoot
  let pages := (s.requested pid).map fun page =>
    (page.1, (reach m r.1 (pathOf page.1)).getD 0)
  .ok { s with
    machine := m
    queue := p.2
    requested := Function.update s.requested p.1 pages }

/-- `syscall_execve`: the new program is loaded, then `*self = Process {..}` drops the old
process. -/
def syscallExecve (s : System S F) (image : Image S) : Except Fault (System S F) := do
  let pid ← sched s.queue.currentPid
  let old ← sched s.queue.current
  let r ← mem (instantiateElf s.machine image)
  let queue ← sched (s.queue.replaceCurrentProcess ⟨image.heapStart, r.1, image.initialState⟩)
  let m ← mem (dropProcess r.2 old.pageTableRoot)
  .ok { s with
    machine := m
    queue := queue
    running := false
    requested := Function.update s.requested pid [] }

/-- A system call or an interrupt that only changes the process and goes on to
`run_next_task`. -/
def leave (s : System S F) (op : Op S F) : Except Fault (System S F) := do
  let queue ← sched (op.exec [] s.queue)
  .ok { s with queue := queue, running := false }

/-- One round of `run_next_task`: `CR3` is set for the process that is polled, and a zombie
that is removed is dropped. -/
def round (s : System S F) (readNonblocking : F → Nat → Nat → Option FopReadResult)
    (iteration : List Pid) : Except Fault (System S F) := do
  let r ← sched (s.queue.runNextTaskRound readNonblocking iteration)
  let m := s.machine.setPml4Phys r.1.pageTableRoot
  match r.1.result with
  | .doNothing => .ok { s with machine := m, queue := r.2 }
  | .startUserland _ => .ok { s with machine := m, queue := r.2, running := true }
  | .handleWaiting none => .ok { s with machine := m, queue := r.2 }
  | .handleWaiting (some pid) => do
    let zombie ← sched (orHalt .reapMissing (s.queue.processes pid))
    let m ← mem (dropProcess m zombie.pageTableRoot)
    .ok { s with
      machine := m
      queue := r.2
      requested := Function.update s.requested pid [] }

end System

/-! ### The transition system -/

inductive Event (S F : Type)
  | requestPage (virt : Nat)
  | setrlimit (resource : Int) (limit : RLimit)
  | fork (parentState : S)
  | execve (image : Image S)
  | exit (exitCode : UInt8)
  | wait (pid : Pid) (status : Nat) (options : Int) (outputPid : Nat) (state : S)
  | readFd (fd : Int) (buffer numBytes numBytesActuallyRead : Nat) (state : S)
  | interrupted (state : S)
  | round (readNonblocking : F → Nat → Nat → Option FopReadResult) (iteration : List Pid)
  /-- The kernel takes, gives back or writes pages of its own, or writes to a page of a
  process. -/
  | kernelWork (m : Machine) (frames : List Nat)

/-- What the kernel may do by itself: the address spaces keep their frames, and what it maps
for users in the upper half is its own. -/
structure System.KernelWork (s : System S F) (m : Machine) (kernel : List Nat) : Prop where
  base : m.base = s.machine.base
  pages : m.pages = s.machine.pages
  cr3 : m.cr3 = s.machine.cr3
  original : m.originalKernelPageTable = s.machine.originalKernelPageTable
  accounted : Accounted m s.roots kernel
  reach : ∀ r ∈ s.roots, ∀ p, Lower p → reach m r p = reach s.machine r p
  upper : UpperKernel m kernel

/-- System calls are made by the running process, and rounds when none is running; limits are
64-bit numbers. -/
def Event.Admissible (s : System S F) : Event S F → Prop
  | .round _ iteration => s.running = false ∧ Enumerates s.queue iteration
  | .kernelWork m frames => s.KernelWork m frames
  | .setrlimit _ limit => s.running = true ∧ limit.rlimMax < 2 ^ 64
  | _ => s.running = true

def Event.exec (s : System S F) : Event S F → Except Fault (System S F)
  | .requestPage virt => (s.syscallRequestPage virt).map Prod.snd
  | .setrlimit resource limit => s.syscallSetrlimit resource limit
  | .fork parentState => s.syscallFork parentState
  | .execve image => s.syscallExecve image
  | .exit exitCode => s.leave (.setCurrentAsZombie exitCode)
  | .wait pid status options outputPid state => s.leave (.wait pid status options outputPid state)
  | .readFd fd buffer numBytes read state => s.leave (.readFd fd buffer numBytes read state)
  | .interrupted state => s.leave (.interrupted state)
  | .round readNonblocking iteration => s.round readNonblocking iteration
  | .kernelWork m frames => .ok { s with machine := m, kernel := frames }

/-- The kernel has booted: nothing of a process is in memory, and the upper half is the
kernel's. -/
structure Booted (m : Machine) (kernel : List Nat) : Prop where
  spaces : Spaces.Init ⟨m, [], kernel⟩
  upper : UpperKernel m kernel

/-- `kmain` after the boot: the first program is loaded and pushed. -/
inductive System.Init : System S F → Prop
  | intro {m kernel image root m'} (defaultFd : List (Option F)) : Booted m kernel →
      instantiateElf m image = .ok (root, m') →
      Init { machine := m'
             queue := ProcessQueue.started defaultFd ⟨image.heapStart, root, image.initialState⟩
             running := false
             kernel := kernel
             requested := fun _ => [] }

def system : Lts (System S F) (Event S F) where
  init := System.Init
  step s event s' := event.Admissible s ∧ event.exec s = .ok s'

end Stuos.Os
