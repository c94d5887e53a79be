import Mathlib.Algebra.Order.Ring.Int
import Mathlib.Data.Int.Notation
import Stuos.Ipc.Pipe

/-!
# Processes

`processes.rs`: what a process is, how one is made from a parent or replaced, and
`Process::poll`, which decides what the scheduler does with it.  `S` is the saved
processor state, which is only ever copied, and `F` what a descriptor slot refers to
(an `Rc` to a `FileOperations`).

A panic ends the kernel (the crate is built with `panic = "abort"` and, as a `dev`
build, with overflow checks), so every operation returns in `Except Panic`; the
constructors of `Panic` name the places.
-/

namespace Stuos.Sched

open Stuos.Lib
open Stuos.Ipc (FopReadResult)

/-- `Pid`, an `i32`. -/
abbrev Pid := Int

def pidMin : Pid := -2 ^ 31
def pidMax : Pid := 2 ^ 31 - 1

/-- `OPEN_MAX`. -/
def openMax : Nat := 10

/-- The places where the scheduler, or what it polls, can panic. -/
inductive Panic
  /-- `order[0]` on an empty queue. -/
  | orderFront
  /-- `processes.get(..).unwrap()` in `current` and `current_mut`. -/
  | currentMissing
  /-- `processes.get(parent_pid).unwrap()` in `push`. -/
  | parentMissing
  /-- `assert!(self.processes.insert(..).is_none())` in `push`. -/
  | pidTaken
  /-- `order.pop_front().unwrap()`. -/
  | rotateEmpty
  /-- `processes.remove(&pid).unwrap()` of the reaped process. -/
  | reapMissing
  /-- `find(..).unwrap()` of the reaped pid in `order`. -/
  | reapNotQueued
  /-- `swap_remove_back(index).unwrap()`. -/
  | reapIndex
  /-- `next_free_pid += 1` past `i32::MAX`. -/
  | pidOverflow
  /-- `assert!(curr_thread.waiting_state.is_none())`. -/
  | alreadyWaiting
  /-- `x.abs()` of `i32::MIN`. -/
  | absOverflow
  /-- A negative descriptor number. -/
  | fdNegative
  /-- A descriptor number of `OPEN_MAX` or more. -/
  | fdOutOfBounds
  /-- A descriptor slot that is empty. -/
  | fdClosed
  /-- `read_nonblocking` itself panicked. -/
  | readNonblocking
  /-- `assert!(options == 0)`. -/
  | waitOptions
  /-- `assert!(!output_pid.is_null())`. -/
  | outputPidNull
  deriving DecidableEq, Repr

/-- `rlimit`. -/
structure RLimit where
  rlimCur : Nat
  rlimMax : Nat
  deriving DecidableEq, Repr

/-- `LimitData`. -/
structure LimitData where
  currentValue : Nat
  limit : RLimit
  deriving DecidableEq, Repr

/-- `LimitData::default()`. -/
def LimitData.default : LimitData := ⟨0, ⟨2 ^ 64 - 1, 2 ^ 64 - 1⟩⟩

/-! ### Waiting -/

inductive ChildType
  | withPgrp (pgrp : Pid)
  | any
  | pgrpIsMyPgrp
  | withPid (pid : Pid)
  deriving DecidableEq, Repr

def ChildType.fromPid (pid : Pid) : Except Panic ChildType :=
  if pid = -1 then .ok .any
  else if pid = 0 then .ok .pgrpIsMyPgrp
  else if 1 ≤ pid then .ok (.withPid pid)
  else if pid = pidMin then .error .absOverflow
  else .ok (.withPgrp (-pid))

def ChildType.isValid (self : ChildType) (myPgrp candidatePid candidatePgrp : Pid) : Bool :=
  match self with
  | .withPgrp x => x = candidatePid
  | .any => true
  | .pgrpIsMyPgrp => myPgrp = candidatePgrp
  | .withPid x => x = candidatePid

inductive WaitingState
  | waitingRead (fdNum outputBuf numBytes outputNumBytesPtr : Nat)
  | waitingChild (childType : ChildType) (status : Nat) (options : Int) (outputPid : Nat)
  | amZombie (exitCode : UInt8)
  deriving DecidableEq, Repr

structure Thread (S : Type) where
  pausedState : S
  waitingState : Option WaitingState

def Thread.new {S : Type} (state : S) : Thread S := ⟨state, none⟩

/-! ### Processes -/

structure LoadedProgram (S : Type) where
  heapStart : Nat
  pageTableRoot : Nat
  initialState : S

structure ProcessIdentity where
  pgrp : Pid
  ppid : Pid
  deriving DecidableEq, Repr

structure Process (S F : Type) where
  heapStart : Nat
  /-- `OPEN_MAX` slots. -/
  fileDescriptors : List (Option F)
  pageTableRoot : Nat
  identity : ProcessIdentity
  threads : Thread S
  cwd : List Char
  memoryLimit : LimitData

namespace Process

variable {S F : Type}

/-- `Process::create`; `defaultFd` is `default_fd()`. -/
def create (defaultFd : List (Option F)) (program : LoadedProgram S) : Process S F where
  heapStart := program.heapStart
  fileDescriptors := defaultFd
  pageTableRoot := program.pageTableRoot
  cwd := ['/']
  memoryLimit := LimitData.default
  threads := Thread.new program.initialState
  identity := { pgrp := 1, ppid := 0 }

def createWithParent (program : LoadedProgram S) (parent : Process S F) (parentPid : Pid) :
    Process S F where
  heapStart := program.heapStart
  fileDescriptors := parent.fileDescriptors
  pageTableRoot := program.pageTableRoot
  cwd := parent.cwd
  memoryLimit := parent.memoryLimit
  threads := Thread.new program.initialState
  identity := { pgrp := parent.identity.pgrp, ppid := parentPid }

def replace (self : Process S F) (program : LoadedProgram S) : Process S F where
  heapStart := program.heapStart
  fileDescriptors := self.fileDescriptors
  pageTableRoot := program.pageTableRoot
  cwd := self.cwd
  memoryLimit := self.memoryLimit
  threads := Thread.new program.initialState
  identity := self.identity

def setWaitingState (self : Process S F) (w : Option WaitingState) : Process S F :=
  { self with threads := { self.threads with waitingState := w } }

def setPausedState (self : Process S F) (state : S) : Process S F :=
  { self with threads := { self.threads with pausedState := state } }

@[simp] theorem replace_identity (self : Process S F) (program : LoadedProgram S) :
    (self.replace program).identity = self.identity := rfl

@[simp] theorem setWaitingState_identity (self : Process S F) (w : Option WaitingState) :
    (self.setWaitingState w).identity = self.identity := rfl

@[simp] theorem setPausedState_identity (self : Process S F) (state : S) :
    (self.setPausedState state).identity = self.identity := rfl

end Process

/-! ### Polling -/

inductive PollResult (S : Type)
  | doNothing
  | startUserland (state : S)
  | handleWaiting (removeZombie : Option Pid)

/-- A number stored through a user pointer. -/
structure Store where
  addr : Nat
  value : Nat
  deriving DecidableEq, Repr

variable {S F : Type}

/-- The loop of `poll` over the children of a process that waits for one. -/
def pollChildren (childType : ChildType) (myPgrp : Pid) (status outputPid : Nat) :
    List (Pid × Process S F) → Except Panic (PollResult S × List Store)
  | [] => .ok (.doNothing, [])
  | (childPid, proc) :: rest =>
    if childType.isValid myPgrp childPid proc.identity.pgrp = false then
      pollChildren childType myPgrp status outputPid rest
    else
      match proc.threads.waitingState with
      | some (.amZombie exitCode) =>
        if outputPid = 0 then .error .outputPidNull
        else .ok (.handleWaiting (some childPid),
          ⟨outputPid, exitCode.toNat⟩ :: if status = 0 then [] else [⟨status, exitCode.toNat⟩])
      | _ => pollChildren childType myPgrp status outputPid rest

/-- `Process::poll`.  `readNonblocking` is what the file behind a descriptor answers. -/
def Process.poll (readNonblocking : F → Nat → Nat → Option FopReadResult) (self : Process S F)
    (children : List (Pid × Process S F)) : Except Panic (PollResult S × List Store) :=
  match self.threads.waitingState with
  | none => .ok (.startUserland self.threads.pausedState, [])
  | some (.waitingRead fdNum outputBuf numBytes outputNumBytesPtr) => do
    let slot ← orHalt .fdOutOfBounds self.fileDescriptors[fdNum]?
    let fop ← orHalt .fdClosed slot
    let result ← orHalt .readNonblocking (readNonblocking fop outputBuf numBytes)
    if result.readSomething then
      .ok (.handleWaiting none, [⟨outputNumBytesPtr, result.bytesRead⟩])
    else .ok (.doNothing, [])
  | some (.waitingChild childType status options outputPid) =>
    if options = 0 then pollChildren childType self.identity.pgrp status outputPid children
    else .error .waitOptions
  | some (.amZombie _) => .ok (.doNothing, [])

theorem pollChildren_reaps {childType : ChildType} {myPgrp : Pid} {status outputPid : Nat}
    {children : List (Pid × Process S F)} {pid : Pid} {stores : List Store}
    (h : pollChildren childType myPgrp status outputPid children =
      .ok (.handleWaiting (some pid), stores)) :
    ∃ proc, (pid, proc) ∈ children := by
  induction children with
  | nil => simp [pollChildren] at h
  | cons c rest ih =>
    obtain ⟨childPid, proc⟩ := c
    rw [pollChildren] at h
    split at h
    · obtain ⟨proc', hp⟩ := ih h
      exact ⟨proc', by simp [hp]⟩
    · split at h
      · split at h
        · simp at h
        · simp only [Except.ok.injEq, Prod.mk.injEq, PollResult.handleWaiting.injEq,
            Option.some.injEq] at h
          exact ⟨proc, by simp [h.1]⟩
      · obtain ⟨proc', hp⟩ := ih h
        exact ⟨proc', by simp [hp]⟩

theorem Process.poll_reaps {readNonblocking : F → Nat → Nat → Option FopReadResult}
    {self : Process S F} {children : List (Pid × Process S F)} {pid : Pid} {stores : List Store}
    (h : self.poll readNonblocking children = .ok (.handleWaiting (some pid), stores)) :
    ∃ proc, (pid, proc) ∈ children := by
  unfold Process.poll at h
  split at h
  · simp at h
  · simp only [bind_eq_ok] at h
    obtain ⟨_, -, _, -, _, -, h⟩ := h
    split at h <;> simp at h
  · split at h
    · exact pollChildren_reaps h
    · simp at h
  · simp at h

end Stuos.Sched
