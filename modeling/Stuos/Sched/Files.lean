import Stuos.Ipc.Pipe
import Stuos.Sched.Steps

/-!
# Open files

`pipes_and_files.rs` and the system calls on descriptors.  A `FileOperations` is an object
with a number; a descriptor slot holds an `Rc` to one, and `strong` is the strong count of
that `Rc`.  Dropping the last `Rc` runs the object's `close`.  What a process holds is dropped
when the process is: when it is reaped, and in `Process::replace` for the value that is
overwritten.

`log` lists the calls of `close`, `read`, `write` and `offset` functions, oldest first.  A
pipe is the one of `pipes_and_files.c`; of the other devices only the calls are modelled,
their results are inputs.
-/

namespace Stuos.Sched

open Stuos.Lib Stuos.Ipc

/-- What is behind a `FileOperations`. -/
inductive Device
  | stdin
  | stdout
  | file
  | pipe (number : Nat) (e : PipeEnd)
  deriving DecidableEq, Repr

/-- A call through a `FileOperations`. -/
inductive FileEvent
  | close (object : Nat)
  | dispatch (object : Nat)
  deriving DecidableEq, Repr

def FileEvent.object : FileEvent → Nat
  | .close o => o
  | .dispatch o => o

/-- What stops the kernel here. -/
inductive Fault
  | panic (p : Panic)
  | pipe (h : PipeHalt)
  /-- `find_free_fd(..).unwrap()`. -/
  | noFreeFd
  /-- The assertions on the numbers in `syscall_dupfd`. -/
  | dupRange
  /-- `invalid_read`, `invalid_write`, `invalid_lseek`, or a pipe's null `offset`. -/
  | invalidOperation
  deriving DecidableEq, Repr

/-- The `FileOperations` objects and the pipes behind some of them. -/
structure Files where
  device : Nat → Device
  made : Nat
  strong : Nat → Nat
  pipes : Nat → Pipe
  pipesMade : Nat
  log : List FileEvent

namespace Files

/-- `Rc::new`. -/
def rcNew (f : Files) (device : Device) : Files :=
  { f with device := Function.update f.device f.made device
           made := f.made + 1
           strong := Function.update f.strong f.made 1 }

/-- `Rc::clone`. -/
def rcClone (f : Files) (o : Nat) : Files :=
  { f with strong := Function.update f.strong o (f.strong o + 1) }

def note (f : Files) (e : FileEvent) : Files := { f with log := f.log ++ [e] }

/-- `Drop for FileOperations`: the `close` function of the object. -/
def close (f : Files) (o : Nat) : Except Fault Files :=
  match f.device o with
  | .pipe number e => do
    let p ← (pipeClose (f.pipes number) e).mapError Fault.pipe
    .ok { f.note (.close o) with pipes := Function.update f.pipes number p }
  | _ => .ok (f.note (.close o))

/-- Dropping an `Rc`. -/
def rcDrop (f : Files) (o : Nat) : Except Fault Files :=
  let f' := { f with strong := Function.update f.strong o (f.strong o - 1) }
  if f.strong o - 1 = 0 then f'.close o else .ok f'

/-- Cloning a descriptor table. -/
def cloneSlots (f : Files) (slots : List (Option Nat)) : Files :=
  slots.reduceOption.foldl rcClone f

/-- Dropping a descriptor table. -/
def dropSlots (f : Files) (slots : List (Option Nat)) : Except Fault Files :=
  slots.reduceOption.foldlM rcDrop f

/-- `fop_generate_pipe` and the two `Rc::new`: the objects are `made` and `made + 1`. -/
def newPipe (f : Files) : Files :=
  let f := { f with pipes := Function.update f.pipes f.pipesMade fopGeneratePipe
                    pipesMade := f.pipesMade + 1 }
  (f.rcNew (.pipe (f.pipesMade - 1) .a)).rcNew (.pipe (f.pipesMade - 1) .b)

/-- `read_nonblocking`.  A pipe answers itself; `answer` is the answer of another device. -/
def read (f : Files) (o num : Nat) (answer : FopReadResult) : Except Fault (FopReadResult × Files) :=
  let f := f.note (.dispatch o)
  match f.device o with
  | .stdout => .error .invalidOperation
  | .pipe number e => do
    let r ← (pipeRead (f.pipes number) e num).mapError Fault.pipe
    .ok (⟨r.2.1.readSomething, r.2.1.bytesRead⟩,
      { f with pipes := Function.update f.pipes number r.1 })
  | _ => .ok (answer, f)

def write (f : Files) (o : Nat) (bytes : List UInt8) : Except Fault Files :=
  let f := f.note (.dispatch o)
  match f.device o with
  | .stdin => .error .invalidOperation
  | .pipe number e => do
    let r ← (pipeWrite (f.pipes number) e bytes).mapError Fault.pipe
    .ok { f with pipes := Function.update f.pipes number r.1 }
  | _ => .ok f

/-- `offset`; only a file has one that can be called. -/
def lseek (f : Files) (o : Nat) : Except Fault Files :=
  let f := f.note (.dispatch o)
  match f.device o with
  | .file => .ok f
  | _ => .error .invalidOperation

end Files

/-! ### Descriptors -/

/-- `find_free_fd`. -/
def findFreeFd (slots : List (Option Nat)) (minimum : Nat) : Option Nat :=
  (List.range slots.length).find? fun i => slots[i]? = some none ∧ minimum ≤ i

/-- `file_descriptors[fd as usize]`, with a descriptor in it. -/
def slotAt (slots : List (Option Nat)) (fd : Int) : Except Panic Nat := do
  ensure (0 ≤ fd) .fdOutOfBounds
  let slot ← orHalt .fdOutOfBounds slots[fd.toNat]?
  orHalt .fdClosed slot

variable {S : Type}

def Process.setFd (proc : Process S Nat) (fd : Nat) (slot : Option Nat) : Process S Nat :=
  { proc with fileDescriptors := proc.fileDescriptors.set fd slot }

/-- The processes and the open files. -/
structure Kernel (S : Type) where
  files : Files
  queue : ProcessQueue S Nat

namespace Kernel

/-- A computation of the scheduler. -/
def sched {α : Type} (x : Except Panic α) : Except Fault α := x.mapError Fault.panic

def syscallOpenFile (k : Kernel S) : Except Fault (Kernel S) := do
  let curr ← sched k.queue.current
  let fd ← orHalt .noFreeFd (findFreeFd curr.fileDescriptors 0)
  let queue ← sched (k.queue.modifyCurrent (·.setFd fd (some k.files.made)))
  .ok ⟨k.files.rcNew .file, queue⟩

def syscallPipe (k : Kernel S) : Except Fault (Kernel S) := do
  let curr ← sched k.queue.current
  let fdA ← orHalt .noFreeFd (findFreeFd curr.fileDescriptors 0)
  let queue ← sched (k.queue.modifyCurrent (·.setFd fdA (some k.files.made)))
  let curr ← sched queue.current
  let fdB ← orHalt .noFreeFd (findFreeFd curr.fileDescriptors (fdA + 1))
  let queue ← sched (queue.modifyCurrent (·.setFd fdB (some (k.files.made + 1))))
  .ok ⟨k.files.newPipe, queue⟩

def syscallDupfd (k : Kernel S) (fildes minNewFd : Int) : Except Fault (Kernel S) := do
  ensure (0 ≤ minNewFd ∧ minNewFd < openMax) .dupRange
  ensure (0 ≤ fildes ∧ fildes < openMax) .dupRange
  let curr ← sched k.queue.current
  let o ← sched (slotAt curr.fileDescriptors fildes)
  let resultFd ← orHalt .noFreeFd (findFreeFd curr.fileDescriptors minNewFd.toNat)
  let queue ← sched (k.queue.modifyCurrent (·.setFd resultFd (some o)))
  .ok ⟨k.files.rcClone o, queue⟩

def syscallCloseFd (k : Kernel S) (fd : Int) : Except Fault (Kernel S) := do
  let curr ← sched k.queue.current
  let o ← sched (slotAt curr.fileDescriptors fd)
  let queue ← sched (k.queue.modifyCurrent (·.setFd fd.toNat none))
  let files ← k.files.rcDrop o
  .ok ⟨files, queue⟩

def syscallWriteFd (k : Kernel S) (fd : Int) (bytes : List UInt8) : Except Fault (Kernel S) := do
  let curr ← sched k.queue.current
  let o ← sched (slotAt curr.fileDescriptors fd)
  let files ← k.files.write o bytes
  .ok { k with files := files }

def syscallLseekFd (k : Kernel S) (fd : Int) : Except Fault (Kernel S) := do
  let curr ← sched k.queue.current
  let o ← sched (slotAt curr.fileDescriptors fd)
  let files ← k.files.lseek o
  .ok { k with files := files }

/-- `push` as `syscall_fork` calls it: the child gets a clone of the descriptor table. -/
def fork (k : Kernel S) (program : LoadedProgram S) : Except Fault (Kernel S) := do
  let parent ← sched k.queue.current
  let r ← sched (k.queue.push [] program)
  .ok ⟨k.files.cloneSlots parent.fileDescriptors, r.2⟩

/-- `replace_current_process`: the table is cloned, then the old process is dropped. -/
def execve (k : Kernel S) (program : LoadedProgram S) : Except Fault (Kernel S) := do
  let old ← sched k.queue.current
  let files := k.files.cloneSlots old.fileDescriptors
  let queue ← sched (k.queue.replaceCurrentProcess program)
  let files ← files.dropSlots old.fileDescriptors
  .ok ⟨files, queue⟩

/-- The call of `read_nonblocking` in `poll`, if the process that is polled waits to read. -/
def pollRead (k : Kernel S) (answer : FopReadResult) :
    Except Fault (Option FopReadResult × Files) := do
  let order ← sched (orHalt .rotateEmpty (frontToBack k.queue.order))
  let curr ← sched (ProcessQueue.current { k.queue with order := order })
  match curr.threads.waitingState with
  | some (.waitingRead fdNum _ numBytes _) => do
    let o ← sched (slotAt curr.fileDescriptors fdNum)
    let r ← k.files.read o numBytes answer
    .ok (some r.1, r.2)
  | _ => .ok (none, k.files)

/-- One round of `run_next_task`.  A zombie that is reaped is dropped. -/
def round (k : Kernel S) (answer : FopReadResult) (iteration : List Pid) :
    Except Fault (Kernel S) := do
  let read ← k.pollRead answer
  let r ← sched (k.queue.runNextTaskRound (fun _ _ _ => read.1) iteration)
  match r.1.result with
  | .handleWaiting (some z) => do
    let zombie ← sched (orHalt .reapMissing (k.queue.processes z))
    let files ← read.2.dropSlots zombie.fileDescriptors
    .ok ⟨files, r.2⟩
  | _ => .ok ⟨read.2, r.2⟩

end Kernel

/-! ### The system -/

inductive Syscall (S : Type)
  | openFile
  | pipe
  | dupfd (fildes minNewFd : Int)
  | closeFd (fd : Int)
  | writeFd (fd : Int) (bytes : List UInt8)
  | lseekFd (fd : Int)
  | readFd (fd : Int) (buffer numBytes numBytesActuallyRead : Nat) (state : S)
  | fork (program : LoadedProgram S)
  | execve (program : LoadedProgram S)
  | exit (exitCode : UInt8)
  | wait (pid : Pid) (status : Nat) (options : Int) (outputPid : Nat) (state : S)
  | interrupted (state : S)
  | round (answer : FopReadResult) (iteration : List Pid)

/-- The table is iterated in an order of its entries, and calls are made by a process that is
running: the one at the front, when it does not wait. -/
def Syscall.Admissible (k : Kernel S) : Syscall S → Prop
  | .round _ iteration => Enumerates k.queue iteration
  | _ => ∃ curr, k.queue.current = .ok curr ∧ curr.threads.waitingState = none

/-- An operation of the scheduler that leaves the files alone. -/
def Kernel.queueOp (k : Kernel S) (op : Op S Nat) : Except Fault (Kernel S) := do
  let queue ← Kernel.sched (op.exec [] k.queue)
  .ok { k with queue := queue }

def Syscall.exec (k : Kernel S) : Syscall S → Except Fault (Kernel S)
  | .openFile => k.syscallOpenFile
  | .pipe => k.syscallPipe
  | .dupfd fildes minNewFd => k.syscallDupfd fildes minNewFd
  | .closeFd fd => k.syscallCloseFd fd
  | .writeFd fd bytes => k.syscallWriteFd fd bytes
  | .lseekFd fd => k.syscallLseekFd fd
  | .readFd fd buffer numBytes read state => k.queueOp (.readFd fd buffer numBytes read state)
  | .fork program => k.fork program
  | .execve program => k.execve program
  | .exit exitCode => k.queueOp (.setCurrentAsZombie exitCode)
  | .wait pid status options outputPid state => k.queueOp (.wait pid status options outputPid state)
  | .interrupted state => k.queueOp (.interrupted state)
  | .round answer iteration => k.round answer iteration

/-- `default_fd`: stdin, stdout and stderr are the objects 0, 1 and 2. -/
def defaultFd : List (Option Nat) := [some 0, some 1, some 2] ++ List.replicate (openMax - 3) none

/-- The files when the first program is pushed. -/
def Files.initial : Files where
  device := fun o => if o = 0 then .stdin else .stdout
  made := 3
  strong := fun o => if o < 3 then 1 else 0
  pipes := fun _ => fopGeneratePipe
  pipesMade := 0
  log := []

/-- Any interleaving of the processes' calls and the scheduler's rounds. -/
def kernel : Lts (Kernel S) (Syscall S) where
  init k := ∃ program, k = ⟨.initial, ProcessQueue.started defaultFd program⟩
  step k call k' := call.Admissible k ∧ call.exec k = .ok k'

end Stuos.Sched
