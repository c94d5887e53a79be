import Mathlib.Data.List.ReduceOption
import Stuos.Lib.RefCount
import Stuos.Sched.Files

/-!
# The lifetime of open files

`slots` are the references that the descriptor slots of all processes hold.  Through every
step the strong counts are the numbers of these references (`Owns`), so an object is closed
once, when its last slot goes.

* `close_exactly_once`: in every run, `close` of an object is called exactly once, in the step
  after which no slot refers to it, and nothing is called on it afterwards.
-/

namespace Stuos.Sched

open Stuos.Lib Stuos.Ipc

variable {S : Type}

/-! ### Slots -/

/-- What a process holds. -/
def Process.held (proc : Process S Nat) : List Nat := proc.fileDescriptors.reduceOption

namespace ProcessQueue

def slotsOf (q : ProcessQueue S Nat) (p : Pid) : List Nat :=
  match q.processes p with
  | some proc => proc.held
  | none => []

/-- The objects that some descriptor slot of a process in the table refers to, once for each
slot. -/
def slots (q : ProcessQueue S Nat) : List Nat := q.order.flatMap q.slotsOf

variable {q : ProcessQueue S Nat}

theorem slotsOf_eq {pid : Pid} {proc : Process S Nat} (hp : q.processes pid = some proc) :
    q.slotsOf pid = proc.held := by
  rw [slotsOf, hp]

theorem mem_slots (hi : TableInv q) {o : Nat} :
    o ∈ q.slots ↔ ∃ pid proc, q.processes pid = some proc ∧ o ∈ proc.held := by
  rw [slots, List.mem_flatMap]
  constructor
  · rintro ⟨pid, hmem, ho⟩
    obtain ⟨proc, hp⟩ := Option.isSome_iff_exists.mp ((hi.keys pid).mp hmem)
    exact ⟨pid, proc, hp, slotsOf_eq hp ▸ ho⟩
  · rintro ⟨pid, proc, hp, ho⟩
    exact ⟨pid, (hi.keys pid).mpr (by simp [hp]), by rwa [slotsOf_eq hp]⟩

theorem slots_split (hi : TableInv q) {pid : Pid} {proc : Process S Nat}
    (hp : q.processes pid = some proc) :
    ∃ others, q.slots.Perm (proc.held ++ others) ∧
      ∀ proc', (q.set pid proc').slots.Perm (proc'.held ++ others) := by
  have hmem : pid ∈ q.order := (hi.keys pid).mpr (by simp [hp])
  have hperm := List.perm_cons_erase hmem
  refine ⟨(q.order.erase pid).flatMap q.slotsOf, ?_, fun proc' => ?_⟩
  · have := hperm.flatMap_right q.slotsOf
    rwa [List.flatMap_cons, slotsOf_eq hp] at this
  · have hsame : (q.order.erase pid).flatMap (q.set pid proc').slotsOf =
        (q.order.erase pid).flatMap q.slotsOf := by
      refine List.flatMap_congr fun p hpe => ?_
      have hne : p ≠ pid := by
        rintro rfl
        exact absurd hpe (List.Nodup.not_mem_erase hi.nodup)
      rw [slotsOf, slotsOf, set_other _ _ hne]
    have := hperm.flatMap_right (q.set pid proc').slotsOf
    rwa [List.flatMap_cons, slotsOf_eq (set_same _ _ _), hsame] at this

end ProcessQueue

theorem held_setFd_some {proc : Process S Nat} {fd o : Nat}
    (h : proc.fileDescriptors[fd]? = some none) :
    (proc.setFd fd (some o)).held.Perm (o :: proc.held) := by
  obtain ⟨hlt, hget⟩ := List.getElem?_eq_some_iff.mp h
  have h1 := (List.set_perm_cons_eraseIdx hlt (some o)).filterMap id
  have h2 := (List.getElem_cons_eraseIdx_perm hlt).filterMap id
  rw [hget] at h2
  exact h1.trans (h2.cons o)

theorem held_setFd_none {proc : Process S Nat} {fd o : Nat}
    (h : proc.fileDescriptors[fd]? = some (some o)) :
    proc.held.Perm (o :: (proc.setFd fd none).held) := by
  obtain ⟨hlt, hget⟩ := List.getElem?_eq_some_iff.mp h
  have h1 := (List.set_perm_cons_eraseIdx hlt none).filterMap id
  have h2 := (List.getElem_cons_eraseIdx_perm hlt).filterMap id
  rw [hget] at h2
  exact h2.symm.trans ((h1.symm).cons o)

/-! ### Counting -/

/-- **The objects are counted**: the strong counts are those of the references `refs`, and an
object has been closed, once and as the last call on it, if no reference is left. -/
structure Files.Owns (f : Files) (refs : List Nat) : Prop where
  counted : Counted f.strong refs
  below : ∀ o ∈ refs, o < f.made
  closed : ∀ o, .close o ∈ f.log ↔ o < f.made ∧ o ∉ refs
  once : f.log.Pairwise fun a b => ∀ o, a = .close o → b.object ≠ o

namespace Files.Owns

variable {f f' : Files} {refs refs' : List Nat} {o : Nat}

theorem perm (h : f.Owns refs) (hp : refs.Perm refs') : f.Owns refs' where
  counted := h.counted.perm hp
  below o ho := h.below o (hp.mem_iff.mpr ho)
  closed o := by rw [h.closed, hp.mem_iff]
  once := h.once

theorem not_closed (h : f.Owns refs) (ho : o ∈ refs) : .close o ∉ f.log := by
  rw [h.closed]
  exact fun hc => hc.2 ho

theorem log_once (h : f.Owns refs) {e : FileEvent} (ho : .close e.object ∉ f.log) :
    (f.log ++ [e]).Pairwise fun a b => ∀ o, a = .close o → b.object ≠ o := by
  rw [List.pairwise_append]
  refine ⟨h.once, by simp, ?_⟩
  intro a ha b hb o hao hbo
  rw [List.mem_singleton] at hb
  subst hb hao hbo
  exact ho ha

theorem dispatch (h : f.Owns refs) (ho : o ∈ refs) : (f.note (.dispatch o)).Owns refs where
  counted := h.counted
  below := h.below
  closed o' := by
    rw [note, List.mem_append, ← h.closed o']
    simp
  once := h.log_once (h.not_closed ho)

theorem rcNew (h : f.Owns refs) (device : Device) : (f.rcNew device).Owns (f.made :: refs) where
  counted := h.counted.new fun hm => absurd (h.below _ hm) (Nat.lt_irrefl _)
  below o ho := by
    rcases List.mem_cons.mp ho with rfl | ho
    · exact Nat.lt_succ_self _
    · exact Nat.lt_succ_of_lt (h.below o ho)
  closed o := by
    have hlog : (f.rcNew device).log = f.log := rfl
    have hmade : (f.rcNew device).made = f.made + 1 := rfl
    rw [hlog, hmade, h.closed, List.mem_cons]
    constructor
    · rintro ⟨hlt, hno⟩
      exact ⟨by omega, by rintro (rfl | hm); exacts [absurd hlt (Nat.lt_irrefl _), hno hm]⟩
    · rintro ⟨hlt, hno⟩
      have hne : o ≠ f.made := fun he => hno (Or.inl he)
      exact ⟨by omega, fun hm => hno (Or.inr hm)⟩
  once := h.once

theorem rcClone (h : f.Owns refs) (ho : o ∈ refs) : (f.rcClone o).Owns (o :: refs) where
  counted := h.counted.clone o
  below o' ho' := by
    rcases List.mem_cons.mp ho' with rfl | ho'
    · exact h.below _ ho
    · exact h.below _ ho'
  closed o' := by
    have hlog : (f.rcClone o).log = f.log := rfl
    have hmade : (f.rcClone o).made = f.made := rfl
    rw [hlog, hmade, h.closed, List.mem_cons]
    constructor
    · rintro ⟨hlt, hno⟩
      exact ⟨hlt, by rintro (rfl | hm); exacts [hno ho, hno hm]⟩
    · exact fun ⟨hlt, hno⟩ => ⟨hlt, fun hm => hno (Or.inr hm)⟩
  once := h.once

end Files.Owns

theorem Files.close_cases {f f' : Files} {o : Nat} (he : f.close o = .ok f') :
    ∃ pipes, f' = { f.note (.close o) with pipes := pipes } := by
  unfold Files.close at he
  split at he
  · rw [bind_eq_ok] at he
    obtain ⟨p, -, he⟩ := he
    rw [Except.ok.injEq] at he
    exact ⟨_, he.symm⟩
  · rw [Except.ok.injEq] at he
    exact ⟨f.pipes, he.symm⟩

/-- The log has only grown, by calls of `close` and by calls on objects of `refs`. -/
structure Files.Grows (f f' : Files) (refs : List Nat) : Prop where
  log : ∃ new, f'.log = f.log ++ new ∧ ∀ o, .dispatch o ∈ new → o ∈ refs
  made : f.made ≤ f'.made

namespace Files

variable {f f' f'' : Files} {refs : List Nat} {o : Nat}

theorem Grows.refl (f : Files) (refs : List Nat) : f.Grows f refs :=
  ⟨⟨[], by simp, by simp⟩, Nat.le_refl _⟩

theorem Grows.trans (h : f.Grows f' refs) (h' : f'.Grows f'' refs) : f.Grows f'' refs := by
  obtain ⟨⟨new, hl, hd⟩, hm⟩ := h
  obtain ⟨⟨new', hl', hd'⟩, hm'⟩ := h'
  refine ⟨⟨new ++ new', by rw [hl', hl, List.append_assoc], ?_⟩, Nat.le_trans hm hm'⟩
  intro o ho
  rcases List.mem_append.mp ho with ho | ho
  · exact hd o ho
  · exact hd' o ho

theorem Grows.mono {refs' : List Nat} (h : f.Grows f' refs) (hs : ∀ o ∈ refs, o ∈ refs') :
    f.Grows f' refs' := by
  obtain ⟨⟨new, hl, hd⟩, hm⟩ := h
  exact ⟨⟨new, hl, fun o ho => hs o (hd o ho)⟩, hm⟩

/-- **Dropping a reference**, with `close` if it was the last one. -/
theorem rcDrop_spec (h : f.Owns (o :: refs)) (he : f.rcDrop o = .ok f') :
    f'.Owns refs ∧ f.Grows f' [] ∧ f'.made = f.made := by
  unfold rcDrop at he
  split at he
  · rename_i hlast
    rw [h.counted.last_iff] at hlast
    obtain ⟨pipes, rfl⟩ := close_cases he
    refine ⟨⟨h.counted.drop, fun o' ho' => h.below o' (by simp [ho']), ?_, ?_⟩,
      ⟨⟨[.close o], rfl, by simp⟩, Nat.le_refl _⟩, rfl⟩
    · intro o'
      have hc := h.closed o'
      simp only [note, List.mem_append, FileEvent.close.injEq, hc, List.mem_cons,
        List.not_mem_nil, or_false]
      constructor
      · rintro (⟨hlt, hno⟩ | rfl)
        · exact ⟨hlt, fun hm => hno (Or.inr hm)⟩
        · exact ⟨h.below _ (by simp), hlast⟩
      · rintro ⟨hlt, hno⟩
        by_cases hoo : o' = o
        · exact Or.inr hoo
        · exact Or.inl ⟨hlt, by rintro (hm | hm); exacts [hoo hm, hno hm]⟩
    · exact h.log_once (h.not_closed (o := o) List.mem_cons_self)
  · rename_i hlast
    rw [h.counted.last_iff, not_not] at hlast
    rw [Except.ok.injEq] at he
    subst he
    refine ⟨⟨h.counted.drop, fun o' ho' => h.below o' (by simp [ho']), ?_, h.once⟩,
      ⟨⟨[], by simp, by simp⟩, Nat.le_refl _⟩, rfl⟩
    intro o'
    have hc := h.closed o'
    simp only [hc, List.mem_cons]
    constructor
    · exact fun ⟨hlt, hno⟩ => ⟨hlt, fun hm => hno (Or.inr hm)⟩
    · exact fun ⟨hlt, hno⟩ => ⟨hlt, by rintro (rfl | hm); exacts [hno hlast, hno hm]⟩

/-- **Dropping a descriptor table.** -/
theorem dropSlots_spec {slots : List (Option Nat)} (h : f.Owns (slots.reduceOption ++ refs))
    (he : f.dropSlots slots = .ok f') : f'.Owns refs ∧ f.Grows f' [] ∧ f'.made = f.made := by
  unfold dropSlots at he
  generalize slots.reduceOption = ds at h he
  induction ds generalizing f with
  | nil =>
    rw [List.foldlM_nil, pure_eq_ok, Except.ok.injEq] at he
    exact ⟨he ▸ h, he ▸ Grows.refl f [], by rw [he]⟩
  | cons d ds ih =>
    rw [List.foldlM_cons, bind_eq_ok] at he
    obtain ⟨f₁, h1, h2⟩ := he
    obtain ⟨ho₁, hg₁, hm₁⟩ := rcDrop_spec h h1
    obtain ⟨ho, hg, hm⟩ := ih ho₁ h2
    exact ⟨ho, hg₁.trans hg, hm.trans hm₁⟩

/-- **Cloning a descriptor table** of references that are held. -/
theorem cloneSlots_spec {slots : List (Option Nat)} (h : f.Owns refs)
    (hs : ∀ o ∈ slots.reduceOption, o ∈ refs) :
    (f.cloneSlots slots).Owns (slots.reduceOption ++ refs) ∧ (f.cloneSlots slots).log = f.log ∧
      (f.cloneSlots slots).made = f.made := by
  unfold cloneSlots
  generalize slots.reduceOption = cs at hs
  induction cs generalizing f refs with
  | nil => exact ⟨h, rfl, rfl⟩
  | cons c cs ih =>
    have hc := h.rcClone (hs c (by simp))
    obtain ⟨ho, hl, hm⟩ := ih hc fun o ho => List.mem_cons_of_mem _ (hs o (List.mem_cons_of_mem _ ho))
    exact ⟨ho.perm List.perm_middle, hl, hm⟩

end Files

/-! ### The calls -/

theorem sched_eq_ok {α : Type} {x : Except Panic α} {a : α} :
    Kernel.sched x = .ok a ↔ x = .ok a :=
  mapError_eq_ok

theorem findFreeFd_spec {slots : List (Option Nat)} {minimum fd : Nat}
    (h : findFreeFd slots minimum = some fd) : slots[fd]? = some none ∧ minimum ≤ fd := by
  have := List.find?_some h
  simpa using this

theorem slotAt_spec {slots : List (Option Nat)} {fd : Int} {o : Nat} (h : slotAt slots fd = .ok o) :
    slots[fd.toNat]? = some (some o) := by
  simp only [slotAt, bind_eq_ok, ensure_eq_ok, orHalt_eq_ok] at h
  obtain ⟨_, -, slot, hs, rfl⟩ := h
  exact hs

theorem mem_held_of_slot {proc : Process S Nat} {fd o : Nat}
    (h : proc.fileDescriptors[fd]? = some (some o)) : o ∈ proc.held :=
  List.reduceOption_mem_iff.mpr (List.mem_of_getElem? h)

def Process.Zombie {F : Type} (proc : Process S F) : Prop :=
  ∃ exitCode, proc.threads.waitingState = some (.amZombie exitCode)

/-- The files after the call of `read_nonblocking` in a poll of `proc`, if there is one. -/
inductive Files.Polled (f : Files) (proc : Process S Nat) : Files → Prop
  | not : Polled f proc f
  | read {fdNum buf n ptr o num answer result f'} :
      proc.threads.waitingState = some (.waitingRead fdNum buf n ptr) → o ∈ proc.held →
      f.read o num answer = .ok (result, f') → Polled f proc f'

/-- **What a step does**, in terms of one process and the counts. -/
inductive Kernel.Change (k : Kernel S) : Syscall S → Kernel S → Prop
  | openFile {pid proc fd} : k.queue.Front pid proc → proc.fileDescriptors[fd]? = some none →
      Change k .openFile
        ⟨k.files.rcNew .file, k.queue.set pid (proc.setFd fd (some k.files.made))⟩
  | pipe {pid proc a b} : k.queue.Front pid proc → proc.fileDescriptors[a]? = some none →
      (proc.setFd a (some k.files.made)).fileDescriptors[b]? = some none →
      Change k .pipe ⟨k.files.newPipe, k.queue.set pid
        ((proc.setFd a (some k.files.made)).setFd b (some (k.files.made + 1)))⟩
  | dupfd {pid proc o fd fildes minNewFd} : k.queue.Front pid proc → o ∈ proc.held →
      proc.fileDescriptors[fd]? = some none →
      Change k (.dupfd fildes minNewFd) ⟨k.files.rcClone o, k.queue.set pid (proc.setFd fd (some o))⟩
  | closeFd {pid proc fd o files num} : k.queue.Front pid proc →
      proc.fileDescriptors[fd]? = some (some o) → k.files.rcDrop o = .ok files →
      Change k (.closeFd num) ⟨files, k.queue.set pid (proc.setFd fd none)⟩
  | write {pid proc o bytes files call} : k.queue.Front pid proc → o ∈ proc.held →
      k.files.write o bytes = .ok files → Change k call ⟨files, k.queue⟩
  | lseek {pid proc o files call} : k.queue.Front pid proc → o ∈ proc.held →
      k.files.lseek o = .ok files → Change k call ⟨files, k.queue⟩
  | thread {pid proc proc' call} : k.queue.Front pid proc → proc'.identity = proc.identity →
      proc'.fileDescriptors = proc.fileDescriptors →
      (proc'.Zombie → (∃ exitCode, call = .exit exitCode) ∨ proc.Zombie) →
      Change k call { k with queue := k.queue.set pid proc' }
  | fork {pid proc program} : k.queue.Front pid proc →
      k.queue.processes k.queue.nextFreePid = none →
      Change k (.fork program) ⟨k.files.cloneSlots proc.fileDescriptors,
        { processes := Function.update k.queue.processes k.queue.nextFreePid
            (some (Process.createWithParent program proc pid))
          order := k.queue.order ++ [k.queue.nextFreePid]
          nextFreePid := k.queue.nextFreePid + 1 }⟩
  | execve {pid proc program files} : k.queue.Front pid proc →
      (k.files.cloneSlots proc.fileDescriptors).dropSlots proc.fileDescriptors = .ok files →
      Change k (.execve program) ⟨files, k.queue.set pid (proc.replace program)⟩
  | round {pid rest proc files proc' call} : k.queue.Rotated pid rest proc →
      k.files.Polled proc files → proc' = proc ∨ proc' = proc.setWaitingState none →
      Change k call ⟨files, ProcessQueue.set { k.queue with order := pid :: rest } pid proc'⟩
  | reap {pid rest proc z child order files call} : k.queue.Rotated pid rest proc →
      k.queue.processes z = some child → child.identity.ppid = pid → z ≠ pid → child.Zombie →
      order.Perm ((pid :: rest).erase z) → k.files.dropSlots child.fileDescriptors = .ok files →
      TableInv ⟨Function.update (Function.update k.queue.processes pid
        (some (proc.setWaitingState none))) z none, order, k.queue.nextFreePid⟩ →
      Change k call ⟨files, ⟨Function.update (Function.update k.queue.processes pid
        (some (proc.setWaitingState none))) z none, order, k.queue.nextFreePid⟩⟩

theorem pollRead_cases {k : Kernel S} {answer : FopReadResult} {r : Option FopReadResult × Files}
    {pid : Pid} {rest : List Pid} {proc : Process S Nat} (hrot : k.queue.Rotated pid rest proc)
    (he : k.pollRead answer = .ok r) : k.files.Polled proc r.2 := by
  simp only [Kernel.pollRead, bind_eq_ok, sched_eq_ok, orHalt_eq_ok] at he
  obtain ⟨order, ho, curr, hcurr, he⟩ := he
  obtain rfl := Option.some.inj (hrot.order.symm.trans ho)
  obtain ⟨pid', hf⟩ := current_cases hcurr
  obtain ⟨-, rfl⟩ := hf.unique ⟨⟨rest, rfl⟩, hrot.process⟩
  split at he
  · rename_i fdNum buf n ptr hw
    simp only [bind_eq_ok, sched_eq_ok, Except.ok.injEq] at he
    obtain ⟨o, hs, x, hx, rfl⟩ := he
    exact .read hw (mem_held_of_slot (slotAt_spec hs)) hx
  · rw [Except.ok.injEq] at he
    exact he ▸ .not

theorem Files.Polled.eq_of_waitingChild {f f' : Files} {proc : Process S Nat}
    {ct : ChildType} {status outputPid : Nat} {options : Int} (h : f.Polled proc f')
    (hw : proc.threads.waitingState = some (.waitingChild ct status options outputPid)) :
    f' = f := by
  cases h with
  | not => rfl
  | read hr =>
    rw [hw] at hr
    simp at hr

theorem Kernel.round_change {k k' : Kernel S} {answer : FopReadResult} {iteration : List Pid}
    (hi : TableInv k.queue) (he : k.round answer iteration = .ok k') :
    k.Change (.round answer iteration) k' := by
  simp only [Kernel.round, bind_eq_ok, sched_eq_ok] at he
  obtain ⟨read, hread, ⟨r, q'⟩, hround, he⟩ := he
  obtain ⟨rest, proc, hrot, -, heff⟩ := ProcessQueue.round_cases hround
  have hpoll := pollRead_cases hrot hread
  obtain ⟨root, pid, result, stores⟩ := r
  have hsame : ProcessQueue.set { k.queue with order := pid :: rest } pid proc =
      { k.queue with order := pid :: rest } := by
    have := Function.update_eq_self pid k.queue.processes
    rw [hrot.process] at this
    simp [ProcessQueue.set, this]
  cases heff with
  | nothing =>
    simp only [Except.ok.injEq] at he
    rw [← he, ← hsame]
    exact .round hrot hpoll (Or.inl rfl)
  | start =>
    simp only [Except.ok.injEq] at he
    rw [← he, ← hsame]
    exact .round hrot hpoll (Or.inl rfl)
  | read hw =>
    simp only [Except.ok.injEq] at he
    rw [← he]
    exact .round hrot hpoll (Or.inr rfl)
  | reap hw hz hppid ht hout hindex hsw =>
    rename_i ct status outputPid z child exitCode index order
    simp only [bind_eq_ok, sched_eq_ok, orHalt_eq_ok, Except.ok.injEq] at he
    obtain ⟨zombie, hz', files, hdrop, rfl⟩ := he
    obtain rfl := Option.some.inj (hz.symm.trans hz')
    rw [hpoll.eq_of_waitingChild hw] at hdrop
    have hzpid : z ≠ pid := by
      rintro rfl
      exact absurd (hi.parent _ _ hz) (by rw [hppid]; exact Int.lt_irrefl _)
    have hinv := hi.runNextTaskRound (fun _ _ _ => read.1) iteration
    rw [hround] at hinv
    refine .reap hrot hz hppid hzpid ⟨_, ht.zombie⟩ ?_ hdrop hinv.1
    obtain ⟨hlt, hget, -⟩ := List.idxOf?_eq_some_iff.mp hindex
    have h1 := List.getElem_cons_eraseIdx_perm hlt
    have h2 : (pid :: rest).Perm (z :: (pid :: rest).erase z) :=
      List.perm_cons_erase (List.mem_of_getElem hget)
    rw [hget] at h1
    exact (swapRemoveBack_perm hsw).trans (h1.trans h2).cons_inv

theorem queueOp_change {k k' : Kernel S} {op : Op S Nat} {call : Syscall S}
    (hop : ∀ q', op.exec [] k.queue = .ok q' → ∃ pid proc proc', k.queue.Front pid proc ∧
      q' = k.queue.set pid proc' ∧ proc'.identity = proc.identity ∧
      proc'.fileDescriptors = proc.fileDescriptors ∧
      (proc'.Zombie → (∃ exitCode, call = .exit exitCode) ∨ proc.Zombie))
    (he : k.queueOp op = .ok k') : k.Change call k' := by
  simp only [Kernel.queueOp, bind_eq_ok, sched_eq_ok, Except.ok.injEq] at he
  obtain ⟨q', hq, rfl⟩ := he
  obtain ⟨pid, proc, proc', hf, rfl, hid, hfd, hz⟩ := hop q' hq
  exact .thread hf hid hfd hz

theorem block_thread {q q' : ProcessQueue S Nat} {w : Except Panic WaitingState} {state : S}
    {call : Syscall S} (hw : ∀ exitCode, w ≠ .ok (.amZombie exitCode))
    (he : q.block w state = .ok q') : ∃ pid proc proc', q.Front pid proc ∧
      q' = q.set pid proc' ∧ proc'.identity = proc.identity ∧
      proc'.fileDescriptors = proc.fileDescriptors ∧
      (proc'.Zombie → (∃ exitCode, call = .exit exitCode) ∨ proc.Zombie) := by
  obtain ⟨pid, proc, w', hf, -, hok, rfl⟩ := ProcessQueue.block_cases he
  refine ⟨pid, proc, _, hf, rfl, rfl, rfl, ?_⟩
  rintro ⟨exitCode, hz⟩
  obtain rfl := Option.some.inj hz
  exact absurd hok (hw exitCode)

/-- **Every call** is one of the changes. -/
theorem exec_change {k k' : Kernel S} (hi : TableInv k.queue) {call : Syscall S}
    (he : call.exec k = .ok k') : k.Change call k' := by
  cases call with
  | openFile =>
    simp only [Syscall.exec, Kernel.syscallOpenFile, bind_eq_ok, sched_eq_ok, orHalt_eq_ok,
      Except.ok.injEq] at he
    obtain ⟨curr, hcurr, fd, hfd, q', hq, rfl⟩ := he
    obtain ⟨pid, hf⟩ := current_cases hcurr
    obtain rfl := ProcessQueue.modifyCurrent_front hf hq
    exact .openFile hf (findFreeFd_spec hfd).1
  | pipe =>
    simp only [Syscall.exec, Kernel.syscallPipe, bind_eq_ok, sched_eq_ok, orHalt_eq_ok,
      Except.ok.injEq] at he
    obtain ⟨curr, hcurr, a, ha, q₁, hq₁, curr₁, hcurr₁, b, hb, q₂, hq₂, rfl⟩ := he
    obtain ⟨pid, hf⟩ := current_cases hcurr
    obtain rfl := ProcessQueue.modifyCurrent_front hf hq₁
    have hf₁ : (k.queue.set pid (curr.setFd a (some k.files.made))).Front pid
        (curr.setFd a (some k.files.made)) := ⟨hf.order, ProcessQueue.set_same _ _ _⟩
    obtain ⟨pid₁, hf₁'⟩ := current_cases hcurr₁
    obtain ⟨rfl, rfl⟩ := hf₁.unique hf₁'
    obtain rfl := ProcessQueue.modifyCurrent_front hf₁ hq₂
    have := Kernel.Change.pipe hf (findFreeFd_spec ha).1 (findFreeFd_spec hb).1
    simpa [ProcessQueue.set] using this
  | dupfd fildes minNewFd =>
    simp only [Syscall.exec, Kernel.syscallDupfd, bind_eq_ok, sched_eq_ok, orHalt_eq_ok,
      ensure_eq_ok, Except.ok.injEq] at he
    obtain ⟨_, -, _, -, curr, hcurr, o, ho, fd, hfd, q', hq, rfl⟩ := he
    obtain ⟨pid, hf⟩ := current_cases hcurr
    obtain rfl := ProcessQueue.modifyCurrent_front hf hq
    exact .dupfd hf (mem_held_of_slot (slotAt_spec ho)) (findFreeFd_spec hfd).1
  | closeFd fd =>
    simp only [Syscall.exec, Kernel.syscallCloseFd, bind_eq_ok, sched_eq_ok,
      Except.ok.injEq] at he
    obtain ⟨curr, hcurr, o, ho, q', hq, files, hd, rfl⟩ := he
    obtain ⟨pid, hf⟩ := current_cases hcurr
    obtain rfl := ProcessQueue.modifyCurrent_front hf hq
    exact .closeFd hf (slotAt_spec ho) hd
  | writeFd fd bytes =>
    simp only [Syscall.exec, Kernel.syscallWriteFd, bind_eq_ok, sched_eq_ok,
      Except.ok.injEq] at he
    obtain ⟨curr, hcurr, o, ho, files, hd, rfl⟩ := he
    obtain ⟨pid, hf⟩ := current_cases hcurr
    exact .write hf (mem_held_of_slot (slotAt_spec ho)) hd
  | lseekFd fd =>
    simp only [Syscall.exec, Kernel.syscallLseekFd, bind_eq_ok, sched_eq_ok,
      Except.ok.injEq] at he
    obtain ⟨curr, hcurr, o, ho, files, hd, rfl⟩ := he
    obtain ⟨pid, hf⟩ := current_cases hcurr
    exact .lseek hf (mem_held_of_slot (slotAt_spec ho)) hd
  | readFd fd buffer numBytes read state =>
    refine queueOp_change (fun q' hq => ?_) he
    refine block_thread (fun exitCode h => ?_) hq
    obtain ⟨_, -, h⟩ := map_eq_ok.mp h
    simp at h
  | fork program =>
    simp only [Syscall.exec, Kernel.fork, bind_eq_ok, sched_eq_ok, Except.ok.injEq] at he
    obtain ⟨curr, hcurr, ⟨pid', q'⟩, hq, rfl⟩ := he
    obtain ⟨pid, hf⟩ := current_cases hcurr
    obtain ⟨parentPid, parent, hf', -, hnone, rfl⟩ := ProcessQueue.push_cases hi.nonempty hq
    obtain ⟨rfl, rfl⟩ := hf.unique hf'
    exact .fork hf hnone
  | execve program =>
    simp only [Syscall.exec, Kernel.execve, bind_eq_ok, sched_eq_ok, Except.ok.injEq] at he
    obtain ⟨curr, hcurr, q', hq, files, hd, rfl⟩ := he
    obtain ⟨pid, hf⟩ := current_cases hcurr
    obtain rfl := ProcessQueue.modifyCurrent_front hf hq
    exact .execve hf hd
  | exit exitCode =>
    refine queueOp_change (fun q' hq => ?_) he
    obtain ⟨pid, proc, hf, rfl⟩ := ProcessQueue.modifyCurrent_cases hq
    exact ⟨pid, proc, _, hf, rfl, rfl, rfl, fun _ => Or.inl ⟨exitCode, rfl⟩⟩
  | wait pid status options outputPid state =>
    refine queueOp_change (fun q' hq => ?_) he
    refine block_thread (fun exitCode h => ?_) hq
    obtain ⟨_, -, h⟩ := map_eq_ok.mp h
    simp at h
  | interrupted state =>
    refine queueOp_change (fun q' hq => ?_) he
    obtain ⟨pid, proc, hf, rfl⟩ := ProcessQueue.modifyCurrent_cases hq
    exact ⟨pid, proc, _, hf, rfl, rfl, rfl, fun hz => Or.inr hz⟩
  | round answer iteration => exact Kernel.round_change hi he

/-! ### Every step keeps the counts -/

/-- The counts of the kernel's objects are those of its descriptor slots. -/
structure Kernel.Inv (k : Kernel S) : Prop where
  table : TableInv k.queue
  owns : k.files.Owns k.queue.slots

theorem Files.read_cases {f : Files} {o num : Nat} {answer result : FopReadResult} {f' : Files}
    (he : f.read o num answer = .ok (result, f')) :
    ∃ pipes, f' = { f.note (.dispatch o) with pipes := pipes } := by
  unfold Files.read at he
  simp only at he
  split at he
  · simp at he
  · simp only [bind_eq_ok, Except.ok.injEq, Prod.mk.injEq] at he
    obtain ⟨r, -, -, rfl⟩ := he
    exact ⟨_, rfl⟩
  · rw [Except.ok.injEq, Prod.mk.injEq] at he
    exact ⟨f.pipes, he.2.symm⟩

theorem Files.write_cases {f f' : Files} {o : Nat} {bytes : List UInt8}
    (he : f.write o bytes = .ok f') :
    ∃ pipes, f' = { f.note (.dispatch o) with pipes := pipes } := by
  unfold Files.write at he
  simp only at he
  split at he
  · simp at he
  · simp only [bind_eq_ok, Except.ok.injEq] at he
    obtain ⟨r, -, rfl⟩ := he
    exact ⟨_, rfl⟩
  · rw [Except.ok.injEq] at he
    exact ⟨f.pipes, he.symm⟩

theorem Files.lseek_cases {f f' : Files} {o : Nat} (he : f.lseek o = .ok f') :
    f' = f.note (.dispatch o) := by
  unfold Files.lseek at he
  simp only at he
  split at he
  · rw [Except.ok.injEq] at he
    exact he.symm
  · simp at he

theorem Files.Owns.call {f : Files} {refs : List Nat} {o : Nat} (h : f.Owns refs) (ho : o ∈ refs)
    (pipes : Nat → Pipe) :
    ({ f.note (.dispatch o) with pipes := pipes } : Files).Owns refs ∧
      f.Grows { f.note (.dispatch o) with pipes := pipes } refs := by
  have hd := h.dispatch ho
  refine ⟨⟨hd.counted, hd.below, hd.closed, hd.once⟩, ⟨⟨[.dispatch o], rfl, ?_⟩, Nat.le_refl _⟩⟩
  intro o' ho'
  rw [List.mem_singleton, FileEvent.dispatch.injEq] at ho'
  exact ho' ▸ ho

theorem Files.Polled.owns {f f' : Files} {proc : Process S Nat} {refs : List Nat}
    (hp : f.Polled proc f') (h : f.Owns refs) (hheld : ∀ o ∈ proc.held, o ∈ refs) :
    f'.Owns refs ∧ f.Grows f' refs ∧ f'.made = f.made := by
  cases hp with
  | not => exact ⟨h, Files.Grows.refl f refs, rfl⟩
  | read hw ho hr =>
    obtain ⟨pipes, rfl⟩ := Files.read_cases hr
    obtain ⟨h1, h2⟩ := h.call (hheld _ ho) pipes
    exact ⟨h1, h2, rfl⟩

/-- What every step keeps: the counts are right, the log grows by calls on objects that were
referred to, and a new object is referred to. -/
structure Kernel.Kept (k k' : Kernel S) : Prop where
  inv : k'.Inv
  grows : k.files.Grows k'.files k.queue.slots
  fresh : ∀ o, k.files.made ≤ o → o < k'.files.made → o ∈ k'.queue.slots

namespace ProcessQueue

variable {q : ProcessQueue S Nat}

theorem mem_slots_of_held (hi : TableInv q) {pid : Pid} {proc : Process S Nat}
    (hp : q.processes pid = some proc) {o : Nat} (ho : o ∈ proc.held) : o ∈ q.slots :=
  (mem_slots hi).mpr ⟨pid, proc, hp, ho⟩

theorem slots_set_same (hi : TableInv q) {pid : Pid} {proc proc' : Process S Nat}
    (hp : q.processes pid = some proc) (hheld : proc'.held = proc.held) :
    (q.set pid proc').slots.Perm q.slots := by
  obtain ⟨others, h1, h2⟩ := slots_split hi hp
  exact (h2 proc').trans (hheld ▸ h1.symm)

theorem slots_setFd_some (hi : TableInv q) {pid : Pid} {proc : Process S Nat}
    (hp : q.processes pid = some proc) {fd : Nat} (hfd : proc.fileDescriptors[fd]? = some none)
    (o : Nat) : (q.set pid (proc.setFd fd (some o))).slots.Perm (o :: q.slots) := by
  obtain ⟨others, h1, h2⟩ := slots_split hi hp
  exact (h2 _).trans (((held_setFd_some hfd).append_right others).trans (h1.symm.cons o))

theorem slots_setFd_none (hi : TableInv q) {pid : Pid} {proc : Process S Nat}
    (hp : q.processes pid = some proc) {fd o : Nat}
    (hfd : proc.fileDescriptors[fd]? = some (some o)) :
    q.slots.Perm (o :: (q.set pid (proc.setFd fd none)).slots) := by
  obtain ⟨others, h1, h2⟩ := slots_split hi hp
  exact h1.trans (((held_setFd_none hfd).append_right others).trans ((h2 _).symm.cons o))

theorem slots_rotate {order : List Pid} (ho : frontToBack q.order = some order) :
    ({ q with order := order } : ProcessQueue S Nat).slots.Perm q.slots :=
  (frontToBack_perm ho).flatMap_right _

theorem slots_push (hi : TableInv q) (newProc : Process S Nat) (next : Pid) :
    (⟨Function.update q.processes q.nextFreePid (some newProc), q.order ++ [q.nextFreePid],
      next⟩ : ProcessQueue S Nat).slots = q.slots ++ newProc.held := by
  rw [slots, List.flatMap_append, slots]
  congr 1
  · refine List.flatMap_congr fun p hp => ?_
    have hne : p ≠ q.nextFreePid := by
      rintro rfl
      exact absurd (hi.below _ hp) (Int.lt_irrefl _)
    simp [slotsOf, Function.update_of_ne hne]
  · simp [slotsOf]

theorem slots_reap {pid z : Pid} {proc child : Process S Nat} {order order' : List Pid}
    (next : Pid) (hn : q.order.Nodup) (hp : q.processes pid = some proc)
    (hz : q.processes z = some child) (hzo : z ∈ q.order) (ho : frontToBack q.order = some order)
    (ho' : order'.Perm (order.erase z)) :
    q.slots.Perm (child.held ++ (⟨Function.update (Function.update q.processes pid
      (some (proc.setWaitingState none))) z none, order', next⟩ : ProcessQueue S Nat).slots) := by
  have hperm := frontToBack_perm ho
  have hzmem : z ∈ order := hperm.mem_iff.mpr hzo
  have hnd : order.Nodup := hperm.nodup_iff.mpr hn
  have hsplit : q.slots.Perm (child.held ++ (order.erase z).flatMap q.slotsOf) := by
    have h1 := ((hperm.symm.trans (List.perm_cons_erase hzmem)).flatMap_right q.slotsOf)
    rwa [List.flatMap_cons, slotsOf_eq hz] at h1
  refine hsplit.trans (List.Perm.append_left _ ?_)
  refine List.Perm.trans ?_ (ho'.symm.flatMap_right _)
  refine List.Perm.of_eq (List.flatMap_congr fun p hpe => ?_)
  have hne : p ≠ z := by
    rintro rfl
    exact absurd hpe (List.Nodup.not_mem_erase hnd)
  by_cases hpp : p = pid
  · subst hpp
    simp [slotsOf, Function.update_of_ne hne, hp, Process.held, Process.setWaitingState]
  · simp [slotsOf, Function.update_of_ne hne, Function.update_of_ne hpp]

end ProcessQueue

theorem Kernel.Kept.of_made {k k' : Kernel S} (hi : k'.Inv)
    (hg : k.files.Grows k'.files k.queue.slots) (hm : k'.files.made = k.files.made) : k.Kept k' where
  inv := hi
  grows := hg
  fresh o hle hlt := by
    rw [hm] at hlt
    exact absurd hlt (Nat.not_lt.mpr hle)

/-- **Every change keeps the counts.** -/
theorem Kernel.Change.kept {k k' : Kernel S} {call : Syscall S} (h : k.Inv)
    (hc : k.Change call k') : k.Kept k' := by
  obtain ⟨hi, ho⟩ := h
  cases hc with
  | openFile hf hfd =>
    have hslots := ProcessQueue.slots_setFd_some hi hf.process hfd k.files.made
    refine ⟨⟨hi.set hf.process rfl, (ho.rcNew .file).perm hslots.symm⟩, ?_, ?_⟩
    · exact ⟨⟨[], by simp [Files.rcNew], by simp⟩, Nat.le_succ _⟩
    · intro o hle hlt
      obtain rfl : o = k.files.made := by
        have : o < k.files.made + 1 := hlt
        omega
      exact hslots.mem_iff.mpr (by simp)
  | pipe hf ha hb =>
    rename_i pid proc a b
    have hi₁ : TableInv (k.queue.set pid (proc.setFd a (some k.files.made))) :=
      hi.set hf.process rfl
    have h1 := ProcessQueue.slots_setFd_some hi hf.process ha k.files.made
    have h2 := ProcessQueue.slots_setFd_some hi₁ (ProcessQueue.set_same _ _ _) hb (k.files.made + 1)
    rw [ProcessQueue.set_set] at h2
    have hslots := h2.trans (h1.cons _)
    have ho₀ : ({ k.files with
        pipes := Function.update k.files.pipes k.files.pipesMade fopGeneratePipe
        pipesMade := k.files.pipesMade + 1 } : Files).Owns k.queue.slots :=
      ⟨ho.counted, ho.below, ho.closed, ho.once⟩
    refine ⟨⟨hi.set hf.process rfl, ((ho₀.rcNew _).rcNew _).perm hslots.symm⟩, ?_, ?_⟩
    · exact ⟨⟨[], by simp [Files.newPipe, Files.rcNew], by simp⟩, Nat.le_add_right _ 2⟩
    · intro o hle hlt
      have hlt' : o < k.files.made + 1 + 1 := hlt
      refine hslots.mem_iff.mpr ?_
      rcases Nat.eq_or_lt_of_le hle with rfl | hlt₁
      · simp
      · obtain rfl : o = k.files.made + 1 := by omega
        simp
  | dupfd hf hheld hfd =>
    rename_i pid proc o fd fildes minNewFd
    have hslots := ProcessQueue.slots_setFd_some hi hf.process hfd o
    have hmem := ProcessQueue.mem_slots_of_held hi hf.process hheld
    refine .of_made ⟨hi.set hf.process rfl, (ho.rcClone hmem).perm hslots.symm⟩ ?_ rfl
    exact ⟨⟨[], by simp [Files.rcClone], by simp⟩, Nat.le_refl _⟩
  | closeFd hf hfd hd =>
    have hslots := ProcessQueue.slots_setFd_none hi hf.process hfd
    obtain ⟨howns, hgrows, hmade⟩ := Files.rcDrop_spec (ho.perm hslots) hd
    exact .of_made ⟨hi.set hf.process rfl, howns⟩ (hgrows.mono (by simp)) hmade
  | write hf hheld hw =>
    obtain ⟨pipes, rfl⟩ := Files.write_cases hw
    obtain ⟨h1, h2⟩ := ho.call (ProcessQueue.mem_slots_of_held hi hf.process hheld) pipes
    exact .of_made ⟨hi, h1⟩ h2 rfl
  | lseek hf hheld hw =>
    obtain rfl := Files.lseek_cases hw
    obtain ⟨h1, h2⟩ := ho.call (ProcessQueue.mem_slots_of_held hi hf.process hheld) k.files.pipes
    exact .of_made ⟨hi, h1⟩ h2 rfl
  | thread hf hid hfd _ =>
    have hslots := ProcessQueue.slots_set_same hi hf.process (congrArg List.reduceOption hfd)
    exact .of_made ⟨hi.set hf.process hid, ho.perm hslots.symm⟩ (Files.Grows.refl _ _) rfl
  | fork hf hnone =>
    rename_i pid proc program
    have hslots := ProcessQueue.slots_push hi (Process.createWithParent program proc pid)
      (k.queue.nextFreePid + 1)
    obtain ⟨howns, hlog, hmade⟩ := Files.cloneSlots_spec ho
      fun o hm => ProcessQueue.mem_slots_of_held hi hf.process hm
    refine .of_made ⟨?_, ?_⟩ ⟨⟨[], by simp [hlog], by simp⟩, by simp [hmade]⟩ hmade
    · obtain ⟨rest, horder⟩ := hf.order
      exact TableInv.insert_next hi.nodup hi.keys hi.below hi.parent
        (hi.below pid (by simp [horder]))
    · rw [hslots]
      exact howns.perm List.perm_append_comm
  | execve hf hd =>
    rename_i pid proc program files
    have hslots : (k.queue.set pid (proc.replace program)).slots.Perm k.queue.slots :=
      ProcessQueue.slots_set_same hi hf.process rfl
    obtain ⟨howns, hlog, hmade⟩ := Files.cloneSlots_spec ho
      fun o hm => ProcessQueue.mem_slots_of_held hi hf.process hm
    obtain ⟨howns', hgrows, hmade'⟩ := Files.dropSlots_spec howns hd
    refine .of_made ⟨hi.set hf.process rfl, howns'.perm hslots.symm⟩ ?_ (hmade'.trans hmade)
    obtain ⟨⟨new, hl, hn⟩, hm⟩ := hgrows
    exact ⟨⟨new, by rw [hl, hlog], fun o hm => absurd (hn o hm) (by simp)⟩, hmade ▸ hm⟩
  | round hrot hpoll hproc =>
    rename_i pid rest proc files proc'
    have hi' := hi.frontToBack hrot.order
    obtain ⟨hid, hfd⟩ : proc'.identity = proc.identity ∧ proc'.held = proc.held := by
      rcases hproc with rfl | rfl <;> exact ⟨rfl, rfl⟩
    have hslots := (ProcessQueue.slots_set_same hi' hrot.process hfd).trans
      (ProcessQueue.slots_rotate hrot.order)
    obtain ⟨howns, hgrows, hmade⟩ := hpoll.owns ho
      fun o hm => ProcessQueue.mem_slots_of_held hi hrot.process hm
    exact .of_made ⟨hi'.set hrot.process hid, howns.perm hslots.symm⟩ hgrows hmade
  | reap hrot hz hppid hzp hzombie hperm hd hinv =>
    have hzo := (hi.keys _).mpr (by rw [hz]; rfl)
    have hslots := ProcessQueue.slots_reap k.queue.nextFreePid hi.nodup hrot.process hz hzo
      hrot.order hperm
    obtain ⟨howns, hgrows, hmade⟩ := Files.dropSlots_spec (ho.perm hslots) hd
    exact .of_made ⟨hinv, howns⟩ (hgrows.mono (by simp)) hmade

theorem exec_kept {k k' : Kernel S} (h : k.Inv) {call : Syscall S} (he : call.exec k = .ok k') :
    k.Kept k' :=
  (exec_change h.table he).kept h

theorem inv_initial (program : LoadedProgram S) :
    (⟨.initial, ProcessQueue.started defaultFd program⟩ : Kernel S).Inv := by
  refine ⟨inv_of_init (init_started defaultFd program), ?_⟩
  have hslots : (ProcessQueue.started defaultFd program : ProcessQueue S Nat).slots = [0, 1, 2] := rfl
  rw [hslots]
  refine ⟨fun o => ?_, ?_, ?_, List.Pairwise.nil⟩
  · match o with
    | 0 | 1 | 2 => rfl
    | o + 3 =>
      have h1 : Files.initial.strong (o + 3) = 0 := by simp [Files.initial]
      rw [h1, eq_comm, List.count_eq_zero]
      simp
  · intro o ho
    simp only [List.mem_cons, List.not_mem_nil, or_false] at ho
    have hmade : Files.initial.made = 3 := rfl
    rw [hmade]
    omega
  · intro o
    have hmade : Files.initial.made = 3 := rfl
    have hlog : Files.initial.log = [] := rfl
    rw [hmade, hlog]
    simp only [List.not_mem_nil, List.mem_cons, or_false, false_iff, not_and, not_not]
    omega

theorem reachable_kernel_inv {k : Kernel S} (h : kernel.Reachable k) : k.Inv := by
  refine h.invariant (P := Kernel.Inv) ?_ ?_
  · rintro k ⟨program, rfl⟩
    exact inv_initial program
  · rintro k call k' hk ⟨-, he⟩
    exact (exec_kept hk he).inv

/-- **The lifetime of an object**: in every reachable state, its `close` has been called if and
only if no descriptor slot refers to it any more, at most once, and as the last call on it;
and a step calls `close` exactly on the objects that it takes the last slot from, and other
functions only on objects that a slot refers to. -/
theorem close_exactly_once (k : Kernel S) (h : kernel.Reachable k) :
    (∀ o, .close o ∈ k.files.log ↔ o < k.files.made ∧ o ∉ k.queue.slots) ∧
    (k.files.log.Pairwise fun a b => ∀ o, a = .close o → b.object ≠ o) ∧
    ∀ (call : Syscall S) (k' : Kernel S), call.Admissible k → call.exec k = .ok k' →
      ∃ new, k'.files.log = k.files.log ++ new ∧
        (∀ o, .close o ∈ new ↔ o ∈ k.queue.slots ∧ o ∉ k'.queue.slots) ∧
        ∀ o, .dispatch o ∈ new → o ∈ k.queue.slots := by
  have hi := reachable_kernel_inv h
  refine ⟨hi.owns.closed, hi.owns.once, ?_⟩
  intro call k' _ he
  obtain ⟨hi', ⟨⟨new, hl, hd⟩, hm⟩, hfresh⟩ := exec_kept hi he
  refine ⟨new, hl, fun o => ?_, hd⟩
  have hc := hi.owns.closed o
  have hc' := hi'.owns.closed o
  rw [hl, List.mem_append] at hc'
  constructor
  · intro hnew
    obtain ⟨hlt, hno⟩ := hc'.mp (Or.inr hnew)
    refine ⟨?_, hno⟩
    by_contra hslot
    by_cases hmade : o < k.files.made
    · have honce := hi'.owns.once
      rw [hl, List.pairwise_append] at honce
      exact honce.2.2 _ (hc.mpr ⟨hmade, hslot⟩) _ hnew o rfl rfl
    · exact hno (hfresh o (Nat.not_lt.mp hmade) hlt)
  · rintro ⟨hslot, hno⟩
    have hlt := hi.owns.below o hslot
    rcases hc'.mpr ⟨Nat.lt_of_lt_of_le hlt hm, hno⟩ with hold | hnew
    · exact absurd hslot (hc.mp hold).2
    · exact hnew

/-- A file that is opened and closed again. -/
theorem close_exactly_once_open_close :
    ∃ k : Kernel Unit, kernel.Reachable k ∧ k.files.log = [.close 3] ∧ 3 ∉ k.queue.slots := by
  have r0 : kernel.Reachable (⟨.initial, ProcessQueue.started defaultFd ⟨0, 0, ()⟩⟩ : Kernel Unit) :=
    .init ⟨_, rfl⟩
  have r1 := r0.step (a := Syscall.openFile) ⟨⟨_, rfl, rfl⟩, rfl⟩
  have r2 := r1.step (a := Syscall.closeFd 3) ⟨⟨_, rfl, rfl⟩, rfl⟩
  refine ⟨_, r2, rfl, ?_⟩
  have hclosed := (close_exactly_once _ r2).1 3
  exact (hclosed.mp (List.mem_singleton_self _)).2

end Stuos.Sched
