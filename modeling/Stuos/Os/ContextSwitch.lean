import Mathlib.Data.Set.BooleanAlgebra
import Mathlib.Order.CompletePartialOrder
import Stuos.Lib.Amd64

/-!
# Entering and leaving the kernel

`interrupts_lowlevel.asm` and the system call entry of `lowlevel.asm`: what an interrupt and
the `syscall` instruction leave behind, the handlers that save the registers on the stack in
the layout of `struct ProcessorState`, and `start_userland`, which pops them again.  The
functions that the handlers call are arguments; they keep to the calling convention.

`rip` is looked at only where the kernel is entered and left.

* `restore_processorState`: the common end of all handlers loads the saved state.
* `vector32_user`: the timer hands `run_next_task` the registers of the process.
* `vector32_kernel` and `vectorN_transparent`: the other interrupts cannot be noticed.
* `handle_syscall_returns`: a system call returns as the calling convention says.
-/

namespace Stuos.Os

open Stuos.Lib

/-! ### `struct ProcessorState` -/

@[ext] structure ProcessorState where
  r15 : Word
  r14 : Word
  r13 : Word
  r12 : Word
  r11 : Word
  r10 : Word
  r9 : Word
  r8 : Word
  rsi : Word
  rdi : Word
  rbp : Word
  rdx : Word
  rcx : Word
  rbx : Word
  rax : Word
  rip : Word
  cs : Word
  rflags : Word
  rsp : Word
  ss : Word
  deriving DecidableEq, Repr

/-- The fields in the order in which they lie in memory. -/
def ProcessorState.toList (st : ProcessorState) : List Word :=
  [st.r15, st.r14, st.r13, st.r12, st.r11, st.r10, st.r9, st.r8, st.rsi, st.rdi, st.rbp, st.rdx,
    st.rcx, st.rbx, st.rax, st.rip, st.cs, st.rflags, st.rsp, st.ss]

/-- The `ProcessorState` that a pointer points to. -/
def ProcessorState.read (m : Mem) (p : Nat) : ProcessorState where
  r15 := loadWord m p
  r14 := loadWord m (p + 8)
  r13 := loadWord m (p + 16)
  r12 := loadWord m (p + 24)
  r11 := loadWord m (p + 32)
  r10 := loadWord m (p + 40)
  r9 := loadWord m (p + 48)
  r8 := loadWord m (p + 56)
  rsi := loadWord m (p + 64)
  rdi := loadWord m (p + 72)
  rbp := loadWord m (p + 80)
  rdx := loadWord m (p + 88)
  rcx := loadWord m (p + 96)
  rbx := loadWord m (p + 104)
  rax := loadWord m (p + 112)
  rip := loadWord m (p + 120)
  cs := loadWord m (p + 128)
  rflags := loadWord m (p + 136)
  rsp := loadWord m (p + 144)
  ss := loadWord m (p + 152)

/-- What a program sees of the processor, apart from the memory. -/
def processorState (s : State) : ProcessorState where
  r15 := s.regs .r15
  r14 := s.regs .r14
  r13 := s.regs .r13
  r12 := s.regs .r12
  r11 := s.regs .r11
  r10 := s.regs .r10
  r9 := s.regs .r9
  r8 := s.regs .r8
  rsi := s.regs .rsi
  rdi := s.regs .rdi
  rbp := s.regs .rbp
  rdx := s.regs .rdx
  rcx := s.regs .rcx
  rbx := s.regs .rbx
  rax := s.regs .rax
  rip := s.rip
  cs := s.cs
  rflags := s.rflags
  rsp := s.regs .rsp
  ss := s.ss

/-- The size of the structure. -/
def stateBytes : Nat := 160

theorem read_toList (m : Mem) (p : Nat) : (ProcessorState.read m p).toList = words m p 20 := rfl

theorem toList_injective {st st' : ProcessorState} (h : st.toList = st'.toList) : st = st' := by
  simp only [ProcessorState.toList, List.cons.injEq, and_true] at h
  obtain ⟨h1, h2, h3, h4, h5, h6, h7, h8, h9, h10, h11, h12, h13, h14, h15, h16, h17, h18, h19,
    h20⟩ := h
  exact ProcessorState.ext h1 h2 h3 h4 h5 h6 h7 h8 h9 h10 h11 h12 h13 h14 h15 h16 h17 h18 h19 h20

theorem read_eq {m : Mem} {p : Nat} {st : ProcessorState} (h : words m p 20 = st.toList) :
    ProcessorState.read m p = st :=
  toList_injective ((read_toList m p).trans h)

theorem read_congr {m m' : Mem} {p : Nat} (h : ∀ i, p ≤ i → i < p + stateBytes → m i = m' i) :
    ProcessorState.read m p = ProcessorState.read m' p := by
  apply read_eq
  rw [read_toList]
  exact words_congr h

/-! ### The processor -/

def kernCs : Word := 0x08
def kernSs : Word := 0x10
def userCs : Word := 0x1B
def userSs : Word := 0x23

/-- The flags that an interrupt gate clears: TF, IF, NT, RF and VM. -/
def gateFlags : Word := 0x34300

/-- The interrupt flag. -/
def interruptFlag : Word := 0x200

/-- The code runs in userland. -/
def fromUserland (s : State) : Prop := s.cs &&& 3 ≠ 0

instance (s : State) : Decidable (fromUserland s) := by
  unfold fromUserland
  infer_instance

/-- The stack that an interrupt uses: the one of the task state segment when it comes from
userland, and the current one otherwise, down to a multiple of 16. -/
def interruptStack (s : State) (rsp0 : Word) : Word :=
  (if fromUserland s then rsp0 else s.regs .rsp) &&& ~~~15

/-- The stack, the segments and the flags that an interrupt sets, through a gate of
`set_idt_entry`. -/
def throughGate (s : State) (rsp0 : Word) : State :=
  { s with
    regs := Function.update s.regs .rsp (interruptStack s rsp0)
    cs := kernCs
    ss := if fromUserland s then 0 else s.ss
    rflags := s.rflags &&& ~~~gateFlags }

/-- **An interrupt.** -/
def interrupt (s : State) (rsp0 : Word) : State :=
  (throughGate s rsp0).pushAll [s.ss, s.regs .rsp, s.rflags, s.cs, s.rip]

/-- **The `syscall` instruction**, as `syscall_init` has set it up. -/
def syscall (s : State) : State :=
  { s with
    regs := Function.update (Function.update s.regs .rcx s.rip) .r11 s.rflags
    cs := kernCs
    ss := kernSs
    rflags := s.rflags &&& ~~~interruptFlag }

/-! ### The handlers -/

/-- The order in which a handler pushes the registers. -/
def savedRegs : List Reg :=
  [.rax, .rbx, .rcx, .rdx, .rbp, .rdi, .rsi, .r8, .r9, .r10, .r11, .r12, .r13, .r14, .r15]

/-- The order in which they are popped. -/
def restoredRegs : List Reg :=
  [.r15, .r14, .r13, .r12, .r11, .r10, .r9, .r8, .rsi, .rdi, .rbp, .rdx, .rcx, .rbx, .rax]

/-- The pops and the `iretq` at the end of a handler. -/
def restore (s : State) : State := (s.popRegs restoredRegs).iretq

/-- How the timer handler ends. -/
inductive Exit
  | iretq (s : State)
  | runNextTask (interruptedProcessorState : Word) (s : State)

/-- `vector_32_handler`. -/
def vector32Handler (apicTimerCounter apicEoi : State → State) (s : State) : Exit :=
  let s := s.pushRegs savedRegs
  let s := apicTimerCounter s
  let s := apicEoi s
  -- 8*15 to skip pushed register state, 8 to skip return address, to get cs
  let s := s.set .rax (loadWord s.mem (s.regs .rsp + 128).toNat)
  if s.regs .rax &&& 3 = 0 then .iretq (restore s)
  else
    let s := s.set .rdi (s.regs .rsp)
    .runNextTask (s.regs .rdi) s

/-- `vector_33_handler` and those after it, up to the call of the handler. -/
def vectorNEntry (generalPurposeInterruptHandlers i : Nat) (s : State) : State :=
  let s := s.pushRegs savedRegs
  let s := s.set .rax (loadWord s.mem (generalPurposeInterruptHandlers + 8 * i))
  s.set .rdi (BitVec.ofNat 64 i)

/-- `vector_33_handler` and those after it; `call` is what the code at an address does. -/
def vectorNHandler (call : Word → State → State) (apicEoi : State → State)
    (generalPurposeInterruptHandlers i : Nat) (s : State) : State :=
  let s := vectorNEntry generalPurposeInterruptHandlers i s
  let s := call (s.regs .rax) s
  let s := apicEoi s
  restore s

/-- The values that `handle_syscall` pushes. -/
def syscallFrame (s : State) : List Word :=
  [userSs, s.regs .rdx, s.regs .r11, userCs, s.regs .rcx, s.regs .rax, s.regs .rbx, 0, 0,
    s.regs .rbp, 0, 0, s.regs .r8, s.regs .r9, s.regs .r10, 0, s.regs .r12, s.regs .r13,
    s.regs .r14, s.regs .r15]

/-- `handle_syscall` up to the call of `process_syscall`. -/
def handleSyscallEntry (syscallStackTop : Nat) (s : State) : State :=
  let s := s.set .rdx (s.regs .rsp)
  let s := s.set .rsp (loadWord s.mem syscallStackTop)
  let s := s.pushAll (syscallFrame s)
  let s := { s with rflags := s.rflags ||| interruptFlag }
  let s := s.set .rdx (s.regs .rsp)
  s.set .rbp 0

/-- `handle_syscall`. -/
def handleSyscall (syscallStackTop : Nat) (processSyscall : State → State) (s : State) : State :=
  restore (processSyscall (handleSyscallEntry syscallStackTop s))

/-- `start_userland`. -/
def startUserland (s : State) : State := restore (s.set .rsp (s.regs .rdi))

/-! ### Saving and restoring -/

/-- **The common end of the handlers** loads the state on top of the stack. -/
theorem restore_processorState {s : State} (h : (s.regs .rsp).toNat + stateBytes < 2 ^ 64) :
    processorState (restore s) = ProcessorState.read s.mem (s.regs .rsp).toNat ∧
    (restore s).mem = s.mem := by
  rw [stateBytes] at h
  obtain ⟨hregs, hrsp, -, hmem⟩ := State.popRegs_words (s := s)
    (show Reg.rsp ∉ restoredRegs by decide) (by decide) (by rw [show restoredRegs.length = 15 from rfl]; omega)
  rw [show restoredRegs.length = 15 from rfl] at hregs hrsp
  refine ⟨?_, hmem⟩
  have hother : ∀ r, r ≠ Reg.rsp → (restore s).regs r = (s.popRegs restoredRegs).regs r :=
    fun r hr => by simp [restore, State.iretq, hr]
  have hframe : (restore s).rip = loadWord s.mem ((s.regs .rsp).toNat + 120) ∧
      (restore s).cs = loadWord s.mem ((s.regs .rsp).toNat + 128) ∧
      (restore s).rflags = loadWord s.mem ((s.regs .rsp).toNat + 136) ∧
      (restore s).regs .rsp = loadWord s.mem ((s.regs .rsp).toNat + 144) ∧
      (restore s).ss = loadWord s.mem ((s.regs .rsp).toNat + 152) := by
    simp [restore, State.iretq, hmem, hrsp, Nat.add_assoc]
  obtain ⟨hrip, hcs, hrflags, hsp, hss⟩ := hframe
  simp only [restoredRegs, List.map_cons, List.map_nil, words, List.cons.injEq, and_true,
    Nat.add_assoc, Nat.reduceAdd] at hregs
  obtain ⟨h15, h14, h13, h12, h11, h10, h9, h8, hsi, hdi, hbp, hdx, hcx, hbx, hax⟩ := hregs
  simp only [processorState, ProcessorState.read, ProcessorState.mk.injEq]
  rw [hother .r15 (by decide), hother .r14 (by decide), hother .r13 (by decide),
    hother .r12 (by decide), hother .r11 (by decide), hother .r10 (by decide),
    hother .r9 (by decide), hother .r8 (by decide), hother .rsi (by decide),
    hother .rdi (by decide), hother .rbp (by decide), hother .rdx (by decide),
    hother .rcx (by decide), hother .rbx (by decide), hother .rax (by decide)]
  exact ⟨h15, h14, h13, h12, h11, h10, h9, h8, hsi, hdi, hbp, hdx, hcx, hbx, hax, hrip, hcs,
    hrflags, hsp, hss⟩

theorem pushAll_processorState {s : State} {vs : List Word} {st : ProcessorState}
    (hvs : vs.reverse = st.toList) (h : stateBytes ≤ (s.regs .rsp).toNat) :
    ((s.pushAll vs).regs .rsp).toNat = (s.regs .rsp).toNat - stateBytes ∧
    ProcessorState.read (s.pushAll vs).mem ((s.regs .rsp).toNat - stateBytes) = st ∧
    Set.EqOn (s.pushAll vs).mem s.mem
      (Set.Ico ((s.regs .rsp).toNat - stateBytes) (s.regs .rsp).toNat)ᶜ := by
  have hlen : vs.length = 20 := by
    rw [← List.length_reverse, hvs]
    rfl
  obtain ⟨h1, h2, h3⟩ := State.pushAll_words (show s.Room vs.length by
    rw [State.Room, hlen]
    exact h)
  rw [h1, hvs, hlen] at h2
  rw [hlen] at h1 h3
  exact ⟨h1, read_eq h2, h3⟩

theorem pushRegs_interrupt (u : State) (rsp0 : Word) :
    (interrupt u rsp0).pushRegs savedRegs = (throughGate u rsp0).pushAll
      ([u.ss, u.regs .rsp, u.rflags, u.cs, u.rip] ++ savedRegs.map u.regs) := by
  rw [State.pushRegs_eq (by decide), State.pushAll_append, interrupt]
  rfl

theorem throughGate_rsp (u : State) (rsp0 : Word) :
    (throughGate u rsp0).regs .rsp = interruptStack u rsp0 := by
  simp [throughGate]

/-- **The registers after the pushes of a handler** lie on the stack as a `ProcessorState`. -/
theorem saved_state {u : State} {rsp0 : Word}
    (h : stateBytes ≤ (interruptStack u rsp0).toNat) :
    (((interrupt u rsp0).pushRegs savedRegs).regs .rsp).toNat =
      (interruptStack u rsp0).toNat - stateBytes ∧
    ProcessorState.read ((interrupt u rsp0).pushRegs savedRegs).mem
      ((interruptStack u rsp0).toNat - stateBytes) = processorState u ∧
    Set.EqOn ((interrupt u rsp0).pushRegs savedRegs).mem u.mem
      (Set.Ico ((interruptStack u rsp0).toNat - stateBytes) (interruptStack u rsp0).toNat)ᶜ := by
  rw [pushRegs_interrupt]
  rw [← throughGate_rsp u rsp0] at h ⊢
  exact pushAll_processorState rfl h

/-! ### Calls out of a handler -/

/-- A function of the kernel that is called in the state `s`: it keeps to the calling convention,
and writes to the data `globals` and to its own frames, which lie below the stack pointer and not
below `low`. -/
def Obeys (globals : Set Nat) (low : Nat) (f : State → State) (s : State) : Prop :=
  Called (globals ∪ Set.Ico low (s.regs .rsp).toNat) s (f s)

/-- The state `st` lies on top of the stack, at `p`. -/
structure Saved (p : Nat) (st : ProcessorState) (s : State) : Prop where
  rsp : (s.regs .rsp).toNat = p
  state : ProcessorState.read s.mem p = st

/-- The memory has changed in the data and on the stack up to `top` only. -/
def Disturbed (globals : Set Nat) (low top : Nat) (s s' : State) : Prop :=
  Set.EqOn s'.mem s.mem (globals ∪ Set.Ico low top)ᶜ

section

variable {globals : Set Nat} {low top p : Nat} {st : ProcessorState} {s s' s'' : State}

theorem Saved.set {r : Reg} (h : Saved p st s) (hr : r ≠ .rsp) (v : Word) :
    Saved p st (s.set r v) := by
  refine ⟨?_, h.state⟩
  rw [State.set_regs, Function.update_of_ne hr.symm]
  exact h.rsp

theorem Saved.cs (h : Saved p st s) : loadWord s.mem (p + 128) = st.cs := by
  rw [← h.state]
  rfl

theorem Saved.setFlags (h : Saved p st s) (flags : Word) : Saved p st { s with rflags := flags } :=
  ⟨h.rsp, h.state⟩

/-- **A call keeps what lies on the stack above it.** -/
theorem Obeys.saved {f : State → State} (hf : Obeys globals low f s)
    (hg : Disjoint globals (Set.Ico p (p + stateBytes))) (h : Saved p st s) :
    Saved p st (f s) := by
  refine ⟨?_, ?_⟩
  · rw [Called.rsp hf]
    exact h.rsp
  · rw [← h.state]
    apply read_congr
    intro i h1 h2
    refine Called.mem hf ?_
    rw [Set.mem_compl_iff, Set.mem_union, not_or, Set.mem_Ico, h.rsp]
    exact ⟨Set.disjoint_right.mp hg ⟨h1, h2⟩, by omega⟩

theorem Disturbed.trans (h : Disturbed globals low top s s') (h' : Disturbed globals low top s' s'') :
    Disturbed globals low top s s'' :=
  Set.EqOn.trans h' h

theorem Disturbed.set (h : Disturbed globals low top s s') (r : Reg) (v : Word) :
    Disturbed globals low top s (s'.set r v) := h

theorem Obeys.disturbed {f : State → State} (hf : Obeys globals low f s) (h : Saved p st s)
    (hp : p ≤ top) : Disturbed globals low top s (f s) := by
  refine (Called.mem hf).mono (Set.compl_subset_compl.mpr ?_)
  rw [h.rsp]
  exact Set.union_subset_union_right _ (Set.Ico_subset_Ico_right hp)

/-- **The end of a handler** gives back the state that lies on the stack. -/
theorem Saved.restore (h : Saved p st s) (hp : p + stateBytes < 2 ^ 64) :
    processorState (restore s) = st ∧ (Os.restore s).mem = s.mem := by
  rw [← h.rsp] at hp
  obtain ⟨hst, hmem⟩ := restore_processorState hp
  rw [h.rsp, h.state] at hst
  exact ⟨hst, hmem⟩

end

/-- The stack has room for a `ProcessorState` above `low`, and no data lies there. -/
structure Stack (globals : Set Nat) (low top : Nat) : Prop where
  room : low + stateBytes ≤ top
  bound : top < 2 ^ 64
  apart : Disjoint globals (Set.Ico low top)

section

variable {globals : Set Nat} {low : Nat} {apicTimerCounter apicEoi : State → State} {u : State}
  {rsp0 : Word}

theorem Stack.apart_frame {top : Nat} (h : Stack globals low top) :
    Disjoint globals (Set.Ico (top - stateBytes) (top - stateBytes + stateBytes)) := by
  have hroom := h.room
  refine h.apart.mono_right (Set.Ico_subset_Ico ?_ ?_) <;> omega

theorem Stack.saved (h : Stack globals low (interruptStack u rsp0).toNat) :
    Saved ((interruptStack u rsp0).toNat - stateBytes) (processorState u)
      ((interrupt u rsp0).pushRegs savedRegs) ∧
    Disturbed globals low (interruptStack u rsp0).toNat u
      ((interrupt u rsp0).pushRegs savedRegs) := by
  have hroom := h.room
  obtain ⟨h1, h2, h3⟩ := saved_state (show stateBytes ≤ (interruptStack u rsp0).toNat by omega)
  refine ⟨⟨h1, h2⟩, h3.mono (Set.compl_subset_compl.mpr ?_)⟩
  refine Set.subset_union_of_subset_right (Set.Ico_subset_Ico_left ?_) _
  omega

theorem Stack.timer (h : Stack globals low (interruptStack u rsp0).toNat)
    (htimer : Obeys globals low apicTimerCounter ((interrupt u rsp0).pushRegs savedRegs))
    (heoi : Obeys globals low apicEoi
      (apicTimerCounter ((interrupt u rsp0).pushRegs savedRegs))) :
    ∃ s, Saved ((interruptStack u rsp0).toNat - stateBytes) (processorState u) s ∧
      Disturbed globals low (interruptStack u rsp0).toNat u s ∧
      vector32Handler apicTimerCounter apicEoi (interrupt u rsp0) =
        if fromUserland u then .runNextTask (s.regs .rsp) (s.set .rdi (s.regs .rsp))
        else .iretq (restore s) := by
  have hroom := h.room
  have hbound := h.bound
  obtain ⟨hs, hd⟩ := h.saved
  have hs₁ := htimer.saved h.apart_frame hs
  have hd₁ := hd.trans (htimer.disturbed hs (by omega))
  have hs₂ := heoi.saved h.apart_frame hs₁
  have hd₂ := hd₁.trans (heoi.disturbed hs₁ (by omega))
  -- the word that is tested is the code segment of the interrupted code
  have hcs : loadWord (apicEoi (apicTimerCounter ((interrupt u rsp0).pushRegs savedRegs))).mem
      ((apicEoi (apicTimerCounter ((interrupt u rsp0).pushRegs savedRegs))).regs .rsp
        + 128).toNat = u.cs := by
    have haddr : ∀ w : Word, w.toNat + 128 < 2 ^ 64 → (w + 128).toNat = w.toNat + 128 := by
      intro w hw
      bv_omega
    rw [haddr _ (by rw [hs₂.rsp, stateBytes]; omega), hs₂.rsp]
    exact hs₂.cs
  refine ⟨_, hs₂.set (r := .rax) (by decide) u.cs, hd₂, ?_⟩
  simp only [vector32Handler, hcs]
  by_cases hu : fromUserland u
  · rw [if_pos hu, if_neg (by simpa [fromUserland] using hu)]
    simp
  · rw [if_neg hu, if_pos (by simpa [fromUserland] using hu)]

/-- **The timer interrupts a process**: `run_next_task` gets a pointer to its registers. -/
theorem vector32_user (h : Stack globals low (interruptStack u rsp0).toNat)
    (htimer : Obeys globals low apicTimerCounter ((interrupt u rsp0).pushRegs savedRegs))
    (heoi : Obeys globals low apicEoi
      (apicTimerCounter ((interrupt u rsp0).pushRegs savedRegs)))
    (hu : fromUserland u) :
    ∃ p s, vector32Handler apicTimerCounter apicEoi (interrupt u rsp0) = .runNextTask p s ∧
      ProcessorState.read s.mem p.toNat = processorState u ∧
      Disturbed globals low (interruptStack u rsp0).toNat u s := by
  obtain ⟨s, hs, hd, he⟩ := h.timer htimer heoi
  rw [if_pos hu] at he
  refine ⟨_, _, he, ?_, hd⟩
  rw [State.set_mem, hs.rsp]
  exact hs.state

/-- **The timer interrupts the kernel**, which cannot notice it. -/
theorem vector32_kernel (h : Stack globals low (interruptStack u rsp0).toNat)
    (htimer : Obeys globals low apicTimerCounter ((interrupt u rsp0).pushRegs savedRegs))
    (heoi : Obeys globals low apicEoi
      (apicTimerCounter ((interrupt u rsp0).pushRegs savedRegs)))
    (hu : ¬ fromUserland u) :
    ∃ s, vector32Handler apicTimerCounter apicEoi (interrupt u rsp0) = .iretq s ∧
      processorState s = processorState u ∧
      Disturbed globals low (interruptStack u rsp0).toNat u s := by
  have hroom := h.room
  have hbound := h.bound
  obtain ⟨s, hs, hd, he⟩ := h.timer htimer heoi
  rw [if_neg hu] at he
  obtain ⟨hst, hmem⟩ := hs.restore (by omega)
  refine ⟨_, he, hst, ?_⟩
  rw [Disturbed, hmem]
  exact hd

/-- **Any other interrupt** is not noticed either, by a process or by the kernel. -/
theorem vectorN_transparent {call : Word → State → State} {table i : Nat}
    (h : Stack globals low (interruptStack u rsp0).toNat)
    (htable : Disjoint (Set.Ico (table + 8 * i) (table + 8 * i + 8))
      (Set.Ico low (interruptStack u rsp0).toNat))
    (hcall : Obeys globals low (call (loadWord u.mem (table + 8 * i)))
      (vectorNEntry table i (interrupt u rsp0)))
    (heoi : Obeys globals low apicEoi
      (call (loadWord u.mem (table + 8 * i)) (vectorNEntry table i (interrupt u rsp0)))) :
    processorState (vectorNHandler call apicEoi table i (interrupt u rsp0)) = processorState u ∧
    Disturbed globals low (interruptStack u rsp0).toNat u
      (vectorNHandler call apicEoi table i (interrupt u rsp0)) := by
  have hroom := h.room
  have hbound := h.bound
  obtain ⟨hs, hd⟩ := h.saved
  -- the pushes have not touched the table of handlers
  have hentry : loadWord ((interrupt u rsp0).pushRegs savedRegs).mem (table + 8 * i) =
      loadWord u.mem (table + 8 * i) := by
    apply loadWord_congr
    intro a h1 h2
    obtain ⟨-, -, hkept⟩ := saved_state (show stateBytes ≤ (interruptStack u rsp0).toNat by omega)
    refine hkept fun hmem => Set.disjoint_left.mp htable ⟨h1, h2⟩ ⟨?_, hmem.2⟩
    have := hmem.1
    omega
  have hrax : (vectorNEntry table i (interrupt u rsp0)).regs .rax =
      loadWord u.mem (table + 8 * i) := by
    simp [vectorNEntry, hentry]
  rw [vectorNHandler, hrax]
  have hs₁ : Saved _ _ (vectorNEntry table i (interrupt u rsp0)) :=
    (hs.set (r := .rax) (by decide) _).set (r := .rdi) (by decide) _
  have hd₁ : Disturbed _ _ _ u (vectorNEntry table i (interrupt u rsp0)) :=
    (hd.set .rax _).set .rdi _
  have hs₂ := hcall.saved h.apart_frame hs₁
  have hd₂ := hd₁.trans (hcall.disturbed hs₁ (by omega))
  have hs₃ := heoi.saved h.apart_frame hs₂
  have hd₃ := hd₂.trans (heoi.disturbed hs₂ (by omega))
  obtain ⟨hst, hmem⟩ := hs₃.restore (by omega)
  refine ⟨hst, ?_⟩
  rw [Disturbed, hmem]
  exact hd₃

end

/-! ### System calls -/

/-- The state in which a process goes on after a system call: the registers that the calling
convention leaves to the callee, and that the entry has no value for, are zero. -/
def syscallState (u : State) : ProcessorState :=
  { processorState u with rdx := 0, rcx := 0, rdi := 0, rsi := 0, r11 := 0, cs := userCs, ss := userSs }

section

variable {globals : Set Nat} {low syscallStackTop : Nat} {u : State}

/-- **What `process_syscall` is called with**: the two arguments of the process, and a pointer
to the state in which it goes on. -/
theorem syscall_entry (h : Stack globals low (loadWord u.mem syscallStackTop).toNat) :
    Saved ((loadWord u.mem syscallStackTop).toNat - stateBytes) (syscallState u)
      (handleSyscallEntry syscallStackTop (syscall u)) ∧
    Disturbed globals low (loadWord u.mem syscallStackTop).toNat u
      (handleSyscallEntry syscallStackTop (syscall u)) ∧
    (handleSyscallEntry syscallStackTop (syscall u)).regs .rdi = u.regs .rdi ∧
    (handleSyscallEntry syscallStackTop (syscall u)).regs .rsi = u.regs .rsi ∧
    (handleSyscallEntry syscallStackTop (syscall u)).regs .rdx =
      (handleSyscallEntry syscallStackTop (syscall u)).regs .rsp := by
  have hroom := h.room
  have hload : loadWord ((syscall u).set .rdx (u.regs .rsp)).mem syscallStackTop =
      loadWord u.mem syscallStackTop := rfl
  have hrsp : (syscall u).regs .rsp = u.regs .rsp := by
    simp [syscall]
  -- the stack of the kernel, with nothing on it
  obtain ⟨s, hs⟩ : ∃ s, s = ((syscall u).set .rdx (u.regs .rsp)).set .rsp
      (loadWord u.mem syscallStackTop) := ⟨_, rfl⟩
  have htop : s.regs .rsp = loadWord u.mem syscallStackTop := by
    simp [hs]
  have hframe : (syscallFrame s).reverse = (syscallState u).toList := by
    simp [hs, syscallFrame, syscallState, processorState, ProcessorState.toList, syscall]
  obtain ⟨h1, h2, h3⟩ := pushAll_processorState hframe (by rw [htop]; omega)
  have hentry : handleSyscallEntry syscallStackTop (syscall u) =
      (({ s.pushAll (syscallFrame s) with
          rflags := (s.pushAll (syscallFrame s)).rflags ||| interruptFlag }).set .rdx
        ((s.pushAll (syscallFrame s)).regs .rsp)).set .rbp 0 := by
    rw [handleSyscallEntry, hrsp, hload, ← hs]
  rw [hentry]
  rw [htop] at h1 h2 h3
  have hmem : s.mem = u.mem := by
    rw [hs]
    rfl
  have hrdi : s.regs .rdi = u.regs .rdi := by
    simp [hs, syscall]
  have hrsi : s.regs .rsi = u.regs .rsi := by
    simp [hs, syscall]
  generalize syscallFrame s = frame at *
  have hregs : ∀ {r : Reg} {v w flags : Word}, r ≠ .rsp → r ≠ .rdx → r ≠ .rbp →
      (State.set (State.set { s.pushAll frame with rflags := flags } .rdx v) .rbp w).regs r =
        s.regs r := by
    intro r v w flags h1 h2 h3
    rw [State.set_regs, Function.update_of_ne h3, State.set_regs, Function.update_of_ne h2,
      State.pushAll_regs h1]
  have hsaved : Saved ((loadWord u.mem syscallStackTop).toNat - stateBytes) (syscallState u)
      (s.pushAll frame) := ⟨h1, h2⟩
  refine ⟨((hsaved.setFlags _).set (by decide) _).set (by decide) _, ?_, ?_, ?_, ?_⟩
  · rw [hmem] at h3
    rw [Disturbed, State.set_mem, State.set_mem]
    refine h3.mono (Set.compl_subset_compl.mpr ?_)
    refine Set.subset_union_of_subset_right (Set.Ico_subset_Ico_left ?_) _
    omega
  · rw [← hrdi]
    exact hregs (by decide) (by decide) (by decide)
  · rw [← hrsi]
    exact hregs (by decide) (by decide) (by decide)
  · simp

/-- **A system call returns** behind its instruction, with the flags and the stack of the
process and the registers that a function has to keep. -/
theorem handle_syscall_returns {processSyscall : State → State}
    (h : Stack globals low (loadWord u.mem syscallStackTop).toNat)
    (hcall : Obeys globals low processSyscall
      (handleSyscallEntry syscallStackTop (syscall u))) :
    processorState (handleSyscall syscallStackTop processSyscall (syscall u)) = syscallState u ∧
    Disturbed globals low (loadWord u.mem syscallStackTop).toNat u
      (handleSyscall syscallStackTop processSyscall (syscall u)) := by
  have hroom := h.room
  have hbound := h.bound
  obtain ⟨hs, hd, -⟩ := syscall_entry h
  have hs₁ := hcall.saved h.apart_frame hs
  have hd₁ := hd.trans (hcall.disturbed hs (by omega))
  obtain ⟨hst, hmem⟩ := hs₁.restore (by omega)
  refine ⟨hst, ?_⟩
  rw [Disturbed, handleSyscall, hmem]
  exact hd₁

end

/-! ### Interrupts that nobody notices -/

/-- **Interrupts are transparent** to the code that they interrupt, the timer in the kernel and
every other vector anywhere: it goes on with the same registers and the same memory, apart from
the data of the kernel and the free part of the stack. -/
theorem interrupts_transparent (globals : Set Nat) (low : Nat) (apicTimerCounter apicEoi : State → State)
    (call : Word → State → State) (table i : Nat) (u : State) (rsp0 : Word)
    (h : Stack globals low (interruptStack u rsp0).toNat)
    (htable : Disjoint (Set.Ico (table + 8 * i) (table + 8 * i + 8))
      (Set.Ico low (interruptStack u rsp0).toNat)) :
    (Obeys globals low apicTimerCounter ((interrupt u rsp0).pushRegs savedRegs) →
      Obeys globals low apicEoi (apicTimerCounter ((interrupt u rsp0).pushRegs savedRegs)) →
      ¬ fromUserland u → ∃ s, vector32Handler apicTimerCounter apicEoi (interrupt u rsp0) = .iretq s ∧
        processorState s = processorState u ∧
        Disturbed globals low (interruptStack u rsp0).toNat u s) ∧
    (Obeys globals low (call (loadWord u.mem (table + 8 * i)))
        (vectorNEntry table i (interrupt u rsp0)) →
      Obeys globals low apicEoi
        (call (loadWord u.mem (table + 8 * i)) (vectorNEntry table i (interrupt u rsp0))) →
      processorState (vectorNHandler call apicEoi table i (interrupt u rsp0)) = processorState u ∧
      Disturbed globals low (interruptStack u rsp0).toNat u
        (vectorNHandler call apicEoi table i (interrupt u rsp0))) :=
  ⟨vector32_kernel h, vectorN_transparent h htable⟩

/-- A process as it runs in userland. -/
def userState : State where
  regs := fun r => if r = .rsp then 0x7000 else 7
  rip := 0x400000
  cs := userCs
  rflags := 0x202
  ss := userSs
  mem := fun _ => 0

/-- A function that leaves values in registers, in its frame and in the data at `0x500000`. -/
def sampleCall (s : State) : State :=
  { (s.set .rax 1).set .rcx 2 with
    mem := storeWord (storeWord s.mem 0x500000 3) ((s.regs .rsp).toNat - 8) 4 }

/-- The data of `sampleCall`. -/
def sampleData : Set Nat := Set.Ico 0x500000 0x500008

@[simp] theorem sampleCall_rsp (s : State) : (sampleCall s).regs .rsp = s.regs .rsp := by
  simp [sampleCall]

theorem obeys_sampleCall {low : Nat} {s : State} (h : low + 8 ≤ (s.regs .rsp).toNat) :
    Obeys sampleData low sampleCall s where
  saved r hr := by
    have hrax : r ≠ .rax := by
      rintro rfl
      exact absurd hr (by decide)
    have hrcx : r ≠ .rcx := by
      rintro rfl
      exact absurd hr (by decide)
    simp [sampleCall, hrax, hrcx]
  cs := rfl
  ss := rfl
  mem a ha := by
    rw [Set.mem_compl_iff, Set.mem_union, not_or, sampleData, Set.mem_Ico, Set.mem_Ico] at ha
    have hframe : a < (s.regs .rsp).toNat - 8 ∨ (s.regs .rsp).toNat - 8 + 8 ≤ a := by omega
    have hdata : a < 0x500000 ∨ 0x500000 + 8 ≤ a := by omega
    dsimp only [sampleCall]
    rw [storeWord_other _ _ hframe, storeWord_other _ _ hdata]

theorem stack_userState :
    Stack sampleData 0x100000 (interruptStack userState 0x200000).toNat where
  room := by decide
  bound := by decide
  apart := by
    have htop : (interruptStack userState 0x200000).toNat = 0x200000 := by decide
    rw [htop, sampleData, Set.disjoint_left]
    intro a ha ha'
    rw [Set.mem_Ico] at ha ha'
    omega

/-- An interrupt of the kernel itself, on its own stack. -/
theorem interrupts_transparent_kernel : ∃ s,
    vector32Handler sampleCall sampleCall (interrupt { userState with cs := kernCs } 0x200000) =
      .iretq s ∧ s.regs .rax = 7 ∧ s.regs .rsp = 0x7000 := by
  have htop : (interruptStack { userState with cs := kernCs } 0x200000).toNat = 0x7000 := by
    decide
  have hapart : ∀ a, 0x300000 ≤ a → Disjoint (Set.Ico a (a + 8)) (Set.Ico 0x1000 0x7000) := by
    intro a ha
    rw [Set.disjoint_left]
    intro x hx hx'
    rw [Set.mem_Ico] at hx hx'
    omega
  have h : Stack sampleData 0x1000
      (interruptStack { userState with cs := kernCs } 0x200000).toNat := by
    rw [htop]
    exact ⟨by decide, by decide, hapart 0x500000 (by decide)⟩
  have hrsp := h.saved.1.rsp
  rw [htop] at hrsp
  obtain ⟨s, he, hst, -⟩ := (interrupts_transparent sampleData 0x1000 sampleCall sampleCall
    (fun _ => sampleCall) 0x300000 33 { userState with cs := kernCs } 0x200000 h (by
      rw [htop]
      exact hapart _ (by decide))).1
    (obeys_sampleCall (by rw [hrsp]; decide))
    (obeys_sampleCall (by rw [sampleCall_rsp, hrsp]; decide)) (by decide)
  exact ⟨s, he, congrArg ProcessorState.rax hst, congrArg ProcessorState.rsp hst⟩

/-- **`start_userland`** loads the state that it is given. -/
theorem startUserland_processorState {s : State} (h : (s.regs .rdi).toNat + stateBytes < 2 ^ 64) :
    processorState (startUserland s) = ProcessorState.read s.mem (s.regs .rdi).toNat ∧
    (startUserland s).mem = s.mem := by
  have hrsp : (s.set .rsp (s.regs .rdi)).regs .rsp = s.regs .rdi := by
    simp
  have hrestore := restore_processorState (s := s.set .rsp (s.regs .rdi)) (by rwa [hrsp])
  rwa [hrsp] at hrestore

end Stuos.Os
