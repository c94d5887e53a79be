import Stuos.Sched.Lifetime

/-!
# Pipes of exited processes

A process that has exited stays in the table, with its descriptors, until it is reaped.

* `pipe_ends_released`: as long as no process exits with an end of a pipe in its slots, only
  running processes keep pipes open, and a read reports the end of the file as soon as they
  have closed the other end.
* `zombie_keeps_pipe_open`: otherwise the zombie keeps the end open, and a reader waits.
-/

namespace Stuos.Ipc

open Stuos.Lib

/-! ### The two ends of a pipe -/

/-- Each end that is open points to the other one as long as that is open. -/
def Pipe.Linked (p : Pipe) : Prop :=
  ∀ e d, p.get e = some d →
    d.otherPipeData = if (p.get e.other).isSome then some e.other else none

theorem linked_fopGeneratePipe : fopGeneratePipe.Linked := by
  intro e d h
  cases e <;> (obtain rfl := Option.some.inj h; rfl)

theorem Pipe.get_set_of_ne (p : Pipe) {e e' : PipeEnd} (d : Option PipeSpecialData)
    (h : e' ≠ e) : (p.set e d).get e' = p.get e' := by
  cases e <;> cases e' <;> first | rfl | exact absurd rfl h

theorem PipeEnd.other_ne (e : PipeEnd) : e.other ≠ e := by
  cases e <;> simp [PipeEnd.other]

theorem PipeEnd.eq_or_other (e e' : PipeEnd) : e' = e ∨ e' = e.other := by
  cases e <;> cases e' <;> simp [PipeEnd.other]

theorem Pipe.Linked.set_buffer {p : Pipe} (h : p.Linked) {e : PipeEnd} {d d' : PipeSpecialData}
    (hd : p.get e = some d) (ho : d'.otherPipeData = d.otherPipeData) :
    (p.set e (some d')).Linked ∧
      ∀ e', ((p.set e (some d')).get e').isSome = (p.get e').isSome := by
  have hsome : ∀ e', ((p.set e (some d')).get e').isSome = (p.get e').isSome := by
    intro e'
    by_cases he : e' = e
    · subst he
      simp [hd]
    · rw [Pipe.get_set_of_ne _ _ he]
  refine ⟨?_, hsome⟩
  intro e' x hx
  rw [hsome]
  by_cases he : e' = e
  · subst he
    rw [Pipe.get_set_self, Option.some.injEq] at hx
    subst hx
    rw [ho]
    exact h e' d hd
  · rw [Pipe.get_set_of_ne _ _ he] at hx
    exact h e' x hx

theorem pipeRead_linked {p p' : Pipe} {e : PipeEnd} {num : Nat} {r : FopReadResult × List UInt8}
    (h : p.Linked) (he : pipeRead p e num = .ok (p', r)) :
    p'.Linked ∧ ∀ e', (p'.get e').isSome = (p.get e').isSome := by
  simp only [pipeRead, bind_eq_ok, orHalt_eq_ok] at he
  obtain ⟨d, hd, he⟩ := he
  split at he
  · obtain ⟨rfl, -⟩ := Prod.mk.inj (Except.ok.inj he)
    exact ⟨h, fun _ => rfl⟩
  · split at he
    · obtain ⟨rfl, -⟩ := Prod.mk.inj (Except.ok.inj he)
      exact ⟨h, fun _ => rfl⟩
    · split at he
      · simp at he
      · obtain ⟨rfl, -⟩ := Prod.mk.inj (Except.ok.inj he)
        exact h.set_buffer hd rfl

theorem pipeWrite_linked {p : Pipe} {e : PipeEnd} {bytes : List UInt8} {r : Pipe × Nat}
    (h : p.Linked) (he : pipeWrite p e bytes = .ok r) :
    r.1.Linked ∧ ∀ e', (r.1.get e').isSome = (p.get e').isSome := by
  simp only [pipeWrite, bind_eq_ok, orHalt_eq_ok, Except.ok.injEq] at he
  obtain ⟨d, -, o, -, data, hdata, _, -, _, -, rfl⟩ := he
  exact h.set_buffer hdata rfl

theorem pipeClose_cases {p p' : Pipe} {e : PipeEnd} (h : p.Linked) (he : pipeClose p e = .ok p') :
    ∃ q : Pipe, p' = q.set e none ∧ (q.get e.other).isSome = (p.get e.other).isSome ∧
      ∀ x, q.get e.other = some x → x.otherPipeData = none := by
  simp only [pipeClose, bind_eq_ok, orHalt_eq_ok] at he
  obtain ⟨d, hd, he⟩ := he
  have hlink := h e d hd
  split at he
  · rename_i hnone
    rw [pure_eq_ok, ok_bind, pure_eq_ok, Except.ok.injEq] at he
    refine ⟨p, he.symm, rfl, fun x hx => ?_⟩
    rw [hnone, hx] at hlink
    simp at hlink
  · rename_i o hsome
    rw [hsome] at hlink
    split at hlink
    · obtain rfl := Option.some.inj hlink
      simp only [bind_eq_ok, orHalt_eq_ok, pure_eq_ok, Except.ok.injEq] at he
      obtain ⟨x, hx, _, rfl, rfl⟩ := he
      refine ⟨_, rfl, ?_, fun y hy => ?_⟩
      · rw [Pipe.get_set_self, hx]
        rfl
      · rw [Pipe.get_set_self, Option.some.injEq] at hy
        exact hy ▸ rfl
    · simp at hlink

theorem pipeClose_linked {p p' : Pipe} {e : PipeEnd} (h : p.Linked) (he : pipeClose p e = .ok p') :
    p'.Linked ∧ p'.get e = none ∧ (p'.get e.other).isSome = (p.get e.other).isSome := by
  obtain ⟨q, rfl, hsome, hnull⟩ := pipeClose_cases h he
  refine ⟨?_, Pipe.get_set_self _ _ _, ?_⟩
  · intro e' x hx
    rcases PipeEnd.eq_or_other e e' with rfl | rfl
    · simp at hx
    · rw [Pipe.get_set_of_ne _ _ (PipeEnd.other_ne e)] at hx
      rw [PipeEnd.other_other, Pipe.get_set_self]
      exact hnull x hx
  · rw [Pipe.get_set_of_ne _ _ (PipeEnd.other_ne e)]
    exact hsome

/-- **The end of the file**: a read of an end whose other end is closed. -/
theorem pipeRead_eof {p : Pipe} (h : p.Linked) {e : PipeEnd} (hopen : (p.get e).isSome)
    (hclosed : p.get e.other = none) (num : Nat) :
    pipeRead p e num = .ok (p, { readSomething := true, bytesRead := 0 }, []) := by
  obtain ⟨d, hd⟩ := Option.isSome_iff_exists.mp hopen
  have hlink := h e d hd
  rw [hclosed] at hlink
  simp only [pipeRead, hd, orHalt_some, ok_bind]
  rw [if_pos (Or.inl (by simpa using hlink))]
  rfl

end Stuos.Ipc

namespace Stuos.Sched

open Stuos.Lib Stuos.Ipc

variable {S : Type}

/-! ### Objects and pipes -/

/-- Each end of a pipe has one object, and is open as long as that has not been closed. -/
structure Files.PipesInv (f : Files) : Prop where
  unique : ∀ o o' number e, o < f.made → o' < f.made → f.device o = .pipe number e →
    f.device o' = .pipe number e → o = o'
  below : ∀ o number e, o < f.made → f.device o = .pipe number e → number < f.pipesMade
  linked : ∀ number, number < f.pipesMade → (f.pipes number).Linked
  closed : ∀ o number e, o < f.made → f.device o = .pipe number e →
    ((f.pipes number).get e = none ↔ .close o ∈ f.log)

namespace Files.PipesInv

variable {f f' : Files} {o : Nat}

theorem strong (h : f.PipesInv) (strong : Nat → Nat) :
    ({ f with strong := strong } : Files).PipesInv :=
  ⟨h.unique, h.below, h.linked, h.closed⟩

theorem dispatch (h : f.PipesInv) (o : Nat) : (f.note (.dispatch o)).PipesInv := by
  refine ⟨h.unique, h.below, h.linked, fun o' number e hlt hd => ?_⟩
  have := h.closed o' number e hlt hd
  simpa [note] using this

theorem call (h : f.PipesInv) (o : Nat) {number : Nat} {p : Pipe}
    (hp : (f.pipes number).Linked → p.Linked ∧
      ∀ e, (p.get e).isSome = ((f.pipes number).get e).isSome) :
    ({ f.note (.dispatch o) with pipes := Function.update f.pipes number p } : Files).PipesInv := by
  refine ⟨h.unique, h.below, ?_, ?_⟩
  · intro number' hlt
    by_cases hn : number' = number
    · subst hn
      simp only [Function.update_self]
      exact (hp (h.linked _ hlt)).1
    · simp only [Function.update_of_ne hn]
      exact h.linked _ hlt
  · intro o' number' e hlt hd
    have hc := (h.dispatch o).closed o' number' e hlt hd
    by_cases hn : number' = number
    · subst hn
      have hsome := (hp (h.linked _ (h.below _ _ _ hlt hd))).2 e
      simp only [Function.update_self]
      rw [← Option.not_isSome_iff_eq_none, hsome, Option.not_isSome_iff_eq_none]
      exact hc
    · simp only [Function.update_of_ne hn]
      exact hc

/-- **`close`** of an object that has not been closed. -/
theorem close (h : f.PipesInv) (hlt : o < f.made) (he : f.close o = .ok f') : f'.PipesInv := by
  have hlog : ∀ o' number e, o' < f.made → f.device o' = .pipe number e → o' ≠ o →
      ((f.pipes number).get e = none ↔ .close o' ∈ (f.note (.close o)).log) := by
    intro o' number e hlt' hd hne
    rw [h.closed o' number e hlt' hd]
    simp [note, hne]
  unfold Files.close at he
  split at he
  · rename_i number e hd
    simp only [bind_eq_ok, mapError_eq_ok, Except.ok.injEq] at he
    obtain ⟨p, hp, rfl⟩ := he
    obtain ⟨hl, hnone, hother⟩ := pipeClose_linked (h.linked _ (h.below _ _ _ hlt hd)) hp
    refine ⟨h.unique, h.below, ?_, ?_⟩
    · intro number' hlt'
      by_cases hn : number' = number
      · subst hn
        simpa only [Function.update_self] using hl
      · simp only [Function.update_of_ne hn]
        exact h.linked _ hlt'
    · intro o' number' e' hlt' hd'
      by_cases hoo : o' = o
      · subst hoo
        have hdev : f.device o' = .pipe number' e' := hd'
        rw [hd, Device.pipe.injEq] at hdev
        obtain ⟨rfl, rfl⟩ := hdev
        simp [note, hnone]
      · have hc := hlog o' number' e' hlt' hd' hoo
        by_cases hn : number' = number
        · subst hn
          have hee : e' = e.other := (PipeEnd.eq_or_other e e').resolve_left fun hee =>
            hoo (h.unique _ _ _ _ hlt' hlt (hee ▸ hd') hd)
          subst hee
          simp only [Function.update_self]
          rw [← Option.not_isSome_iff_eq_none, hother, Option.not_isSome_iff_eq_none]
          exact hc
        · simp only [Function.update_of_ne hn]
          exact hc
  · rename_i hnp
    rw [Except.ok.injEq] at he
    subst he
    refine ⟨h.unique, h.below, h.linked, fun o' number e hlt' hd' => ?_⟩
    refine hlog o' number e hlt' hd' ?_
    rintro rfl
    exact hnp number e hd'

theorem rcDrop (h : f.PipesInv) (hlt : o < f.made) (he : f.rcDrop o = .ok f') :
    f'.PipesInv ∧ f'.made = f.made ∧ f'.device = f.device := by
  unfold Files.rcDrop at he
  simp only at he
  split at he
  · have hi := (h.strong (Function.update f.strong o (f.strong o - 1))).close hlt he
    obtain ⟨pipes, rfl⟩ := Files.close_cases he
    exact ⟨hi, rfl, rfl⟩
  · rw [Except.ok.injEq] at he
    subst he
    exact ⟨h.strong _, rfl, rfl⟩

theorem dropSlots {slots : List (Option Nat)} (h : f.PipesInv)
    (hlt : ∀ o ∈ slots.reduceOption, o < f.made) (he : f.dropSlots slots = .ok f') :
    f'.PipesInv ∧ f'.made = f.made ∧ f'.device = f.device := by
  unfold Files.dropSlots at he
  generalize slots.reduceOption = ds at hlt he
  induction ds generalizing f with
  | nil =>
    rw [List.foldlM_nil, pure_eq_ok, Except.ok.injEq] at he
    subst he
    exact ⟨h, rfl, rfl⟩
  | cons d ds ih =>
    rw [List.foldlM_cons, bind_eq_ok] at he
    obtain ⟨f₁, h1, h2⟩ := he
    obtain ⟨hi, hm, hd⟩ := h.rcDrop (hlt d (by simp)) h1
    obtain ⟨hi', hm', hd'⟩ := ih hi (fun o ho => by rw [hm]; exact hlt o (by simp [ho])) h2
    exact ⟨hi', hm'.trans hm, hd'.trans hd⟩

theorem cloneSlots (h : f.PipesInv) (slots : List (Option Nat)) :
    (f.cloneSlots slots).PipesInv ∧ (f.cloneSlots slots).made = f.made ∧
      (f.cloneSlots slots).device = f.device := by
  unfold Files.cloneSlots
  generalize slots.reduceOption = cs
  induction cs generalizing f with
  | nil => exact ⟨h, rfl, rfl⟩
  | cons c cs ih => exact ih (h.strong (Function.update f.strong c (f.strong c + 1)))

theorem rcNew (h : f.PipesInv) {device : Device} (hd : ∀ number e, device ≠ .pipe number e) :
    (f.rcNew device).PipesInv := by
  have hold : ∀ o number e, o < f.made + 1 → (f.rcNew device).device o = .pipe number e →
      o < f.made ∧ f.device o = .pipe number e := by
    intro o number e hlt hdev
    by_cases ho : o = f.made
    · subst ho
      simp only [Files.rcNew, Function.update_self] at hdev
      exact absurd hdev (hd number e)
    · simp only [Files.rcNew, Function.update_of_ne ho] at hdev
      exact ⟨by omega, hdev⟩
  refine ⟨?_, ?_, h.linked, ?_⟩
  · intro o o' number e hlt hlt' hdev hdev'
    obtain ⟨hlt, hdev⟩ := hold o number e hlt hdev
    obtain ⟨hlt', hdev'⟩ := hold o' number e hlt' hdev'
    exact h.unique o o' number e hlt hlt' hdev hdev'
  · intro o number e hlt hdev
    obtain ⟨hlt, hdev⟩ := hold o number e hlt hdev
    exact h.below o number e hlt hdev
  · intro o number e hlt hdev
    obtain ⟨hlt, hdev⟩ := hold o number e hlt hdev
    exact h.closed o number e hlt hdev

theorem newPipe_device (f : Files) {o number : Nat} {e : PipeEnd} (hlt : o < f.made + 2)
    (hdev : f.newPipe.device o = .pipe number e) :
    (o < f.made ∧ f.device o = .pipe number e) ∨
      (number = f.pipesMade ∧ o = f.made + (if e = .a then 0 else 1)) := by
  have hnew : f.newPipe.device = Function.update (Function.update f.device f.made
    (.pipe f.pipesMade .a)) (f.made + 1) (.pipe f.pipesMade .b) := rfl
  rw [hnew] at hdev
  by_cases hb : o = f.made + 1
  · subst hb
    rw [Function.update_self, Device.pipe.injEq] at hdev
    obtain ⟨rfl, rfl⟩ := hdev
    exact Or.inr ⟨rfl, rfl⟩
  · rw [Function.update_of_ne hb] at hdev
    by_cases ha : o = f.made
    · subst ha
      rw [Function.update_self, Device.pipe.injEq] at hdev
      obtain ⟨rfl, rfl⟩ := hdev
      exact Or.inr ⟨rfl, rfl⟩
    · rw [Function.update_of_ne ha] at hdev
      exact Or.inl ⟨by omega, hdev⟩

theorem newPipe (h : f.PipesInv) (hlog : ∀ o, .close o ∈ f.log → o < f.made) :
    f.newPipe.PipesInv := by
  have hpipes : f.newPipe.pipes = Function.update f.pipes f.pipesMade fopGeneratePipe := rfl
  have hne : ∀ o number e, o < f.made → f.device o = .pipe number e → number ≠ f.pipesMade :=
    fun o number e hlt hdev => Nat.ne_of_lt (h.below o number e hlt hdev)
  refine ⟨?_, ?_, ?_, ?_⟩
  · intro o o' number e hlt hlt' hdev hdev'
    rcases newPipe_device f hlt hdev with ⟨hlt, hdev⟩ | ⟨hn, ho⟩ <;>
      rcases newPipe_device f hlt' hdev' with ⟨hlt', hdev'⟩ | ⟨hn', ho'⟩
    · exact h.unique o o' number e hlt hlt' hdev hdev'
    · exact absurd hn' (hne o number e hlt hdev)
    · exact absurd hn (hne o' number e hlt' hdev')
    · rw [ho, ho']
  · intro o number e hlt hdev
    rcases newPipe_device f hlt hdev with ⟨hlt, hdev⟩ | ⟨rfl, -⟩
    · exact Nat.lt_succ_of_lt (h.below o number e hlt hdev)
    · exact Nat.lt_succ_self _
  · intro number hlt
    rw [hpipes]
    by_cases hn : number = f.pipesMade
    · subst hn
      rw [Function.update_self]
      exact linked_fopGeneratePipe
    · rw [Function.update_of_ne hn]
      have hlt' : number < f.pipesMade + 1 := hlt
      exact h.linked number (by omega)
  · intro o number e hlt hdev
    have hsame : f.newPipe.log = f.log := rfl
    rw [hpipes, hsame]
    rcases newPipe_device f hlt hdev with ⟨hlt, hdev⟩ | ⟨rfl, rfl⟩
    · rw [Function.update_of_ne (hne o number e hlt hdev)]
      exact h.closed o number e hlt hdev
    · rw [Function.update_self]
      refine iff_of_false ?_ fun hc => ?_
      · cases e <;> simp [fopGeneratePipe, Pipe.get]
      · exact absurd (hlog _ hc) (by omega)

theorem read {num : Nat} {answer result : FopReadResult} (h : f.PipesInv)
    (he : f.read o num answer = .ok (result, f')) : f'.PipesInv := by
  unfold Files.read at he
  simp only at he
  split at he
  · simp at he
  · simp only [bind_eq_ok, mapError_eq_ok, Except.ok.injEq, Prod.mk.injEq] at he
    obtain ⟨⟨p, r⟩, hr, -, rfl⟩ := he
    exact h.call o fun hl => pipeRead_linked hl hr
  · rw [Except.ok.injEq, Prod.mk.injEq] at he
    obtain ⟨-, rfl⟩ := he
    exact h.dispatch o

theorem write {bytes : List UInt8} (h : f.PipesInv) (he : f.write o bytes = .ok f') :
    f'.PipesInv := by
  unfold Files.write at he
  simp only at he
  split at he
  · simp at he
  · simp only [bind_eq_ok, mapError_eq_ok, Except.ok.injEq] at he
    obtain ⟨r, hr, rfl⟩ := he
    exact h.call o fun hl => pipeWrite_linked hl hr
  · rw [Except.ok.injEq] at he
    subst he
    exact h.dispatch o

end Files.PipesInv

/-! ### Zombies -/

/-- Some descriptor of the process is an end of a pipe. -/
def Files.HoldsPipe (f : Files) (proc : Process S Nat) : Prop :=
  ∃ o ∈ proc.held, ∃ number e, f.device o = .pipe number e

/-- No process exits with an end of a pipe in its slots. -/
def ExitsWithoutPipes (k : Kernel S) (call : Syscall S) : Prop :=
  ∀ exitCode, call = .exit exitCode → ∀ pid proc, k.queue.Front pid proc →
    ¬ k.files.HoldsPipe proc

/-- The ends of pipes are those that the objects in the slots refer to, and no zombie has
one. -/
structure Kernel.EndsInv (k : Kernel S) : Prop where
  kernel : k.Inv
  pipes : k.files.PipesInv
  zombies : ∀ pid proc, k.queue.processes pid = some proc → proc.Zombie → ¬ k.files.HoldsPipe proc

variable {k k' : Kernel S}

theorem Kernel.EndsInv.zombies_step (h : k.EndsInv)
    (hdev : ∀ o, o < k.files.made → k'.files.device o = k.files.device o)
    (hproc : ∀ pid proc', k'.queue.processes pid = some proc' → proc'.Zombie →
      ∃ proc, k.queue.processes pid = some proc ∧ proc'.held = proc.held ∧
        ¬ k.files.HoldsPipe proc) :
    ∀ pid proc', k'.queue.processes pid = some proc' → proc'.Zombie →
      ¬ k'.files.HoldsPipe proc' := by
  intro pid proc' hp hz ⟨o, ho, number, e, hd⟩
  obtain ⟨proc, hp₀, hheld, hno⟩ := hproc pid proc' hp hz
  rw [hheld] at ho
  have hlt := h.kernel.owns.below o (ProcessQueue.mem_slots_of_held h.kernel.table hp₀ ho)
  exact hno ⟨o, ho, number, e, hdev o hlt ▸ hd⟩

theorem Kernel.EndsInv.set (h : k.EndsInv) {q : ProcessQueue S Nat} {pid : Pid}
    {proc proc' : Process S Nat} (hq : q.processes = k.queue.processes)
    (hp : k.queue.processes pid = some proc)
    (hz : proc'.Zombie → proc'.held = proc.held ∧ ¬ k.files.HoldsPipe proc) :
    ∀ p x, (q.set pid proc').processes p = some x → x.Zombie →
      ∃ y, k.queue.processes p = some y ∧ x.held = y.held ∧ ¬ k.files.HoldsPipe y := by
  intro p x hx hxz
  by_cases hpp : p = pid
  · subst hpp
    rw [ProcessQueue.set_same, Option.some.injEq] at hx
    subst hx
    exact ⟨proc, hp, (hz hxz).1, (hz hxz).2⟩
  · rw [ProcessQueue.set_other _ _ hpp, hq] at hx
    exact ⟨x, hx, rfl, h.zombies p x hx hxz⟩

theorem Kernel.Inv.held_below (h : k.Inv) {pid : Pid} {proc : Process S Nat}
    (hp : k.queue.processes pid = some proc) : ∀ o ∈ proc.held, o < k.files.made :=
  fun o ho => h.owns.below o (ProcessQueue.mem_slots_of_held h.table hp ho)

/-- **The pipes after a change**; the objects keep their devices. -/
theorem Kernel.Change.pipes {call : Syscall S} (h : k.Inv) (hpipes : k.files.PipesInv)
    (hc : k.Change call k') :
    k'.files.PipesInv ∧ ∀ o, o < k.files.made → k'.files.device o = k.files.device o := by
  cases hc with
  | openFile hf hfd =>
    refine ⟨hpipes.rcNew (by simp), ?_⟩
    intro o ho
    simp only [Files.rcNew, Function.update_of_ne (Nat.ne_of_lt ho)]
  | pipe hf ha hb =>
    refine ⟨hpipes.newPipe fun o ho => ((h.owns.closed o).mp ho).1, ?_⟩
    intro o ho
    have h1 : o ≠ k.files.made := by omega
    have h2 : o ≠ k.files.made + 1 := by omega
    simp only [Files.newPipe, Files.rcNew, Function.update_of_ne h1, Function.update_of_ne h2]
  | dupfd hf hheld hfd => exact ⟨hpipes.strong _, fun _ _ => rfl⟩
  | closeFd hf hfd hd =>
    have hlt := h.held_below hf.process _ (mem_held_of_slot hfd)
    obtain ⟨hi, -, hdev⟩ := hpipes.rcDrop hlt hd
    exact ⟨hi, fun o _ => congrFun hdev o⟩
  | write hf hheld hw =>
    have hi := hpipes.write hw
    obtain ⟨pipes, rfl⟩ := Files.write_cases hw
    exact ⟨hi, fun _ _ => rfl⟩
  | lseek hf hheld hw =>
    obtain rfl := Files.lseek_cases hw
    exact ⟨hpipes.dispatch _, fun _ _ => rfl⟩
  | thread hf hid hfd hzombie => exact ⟨hpipes, fun _ _ => rfl⟩
  | fork hf hnone =>
    rename_i pid proc program
    obtain ⟨hi, hm, hdev⟩ := hpipes.cloneSlots proc.fileDescriptors
    exact ⟨hi, fun o _ => congrFun hdev o⟩
  | execve hf hd =>
    rename_i pid proc program files
    obtain ⟨hi, hm, hdev⟩ := hpipes.cloneSlots proc.fileDescriptors
    obtain ⟨hi', -, hdev'⟩ := hi.dropSlots (by rw [hm]; exact h.held_below hf.process) hd
    exact ⟨hi', fun o _ => congrFun (hdev'.trans hdev) o⟩
  | round hrot hpoll hproc =>
    cases hpoll with
    | not => exact ⟨hpipes, fun _ _ => rfl⟩
    | read hw ho hr =>
      refine ⟨hpipes.read hr, ?_⟩
      obtain ⟨pipes, rfl⟩ := Files.read_cases hr
      exact fun _ _ => rfl
  | reap hrot hz hppid hzp hzombie hperm hd hinv =>
    obtain ⟨hi, -, hdev⟩ := hpipes.dropSlots (h.held_below hz) hd
    exact ⟨hi, fun o _ => congrFun hdev o⟩

/-- **The zombies after a change** in which no process exits with an end of a pipe. -/
theorem Kernel.EndsInv.zombies_change (h : k.EndsInv) {call : Syscall S}
    (hadm : call.Admissible k) (hok : ExitsWithoutPipes k call) (hc : k.Change call k') :
    ∀ pid proc', k'.queue.processes pid = some proc' → proc'.Zombie →
      ∃ proc, k.queue.processes pid = some proc ∧ proc'.held = proc.held ∧
        ¬ k.files.HoldsPipe proc := by
  -- a process that calls is not a zombie
  have hfront : ∀ {pid proc}, (∃ curr, k.queue.current = .ok curr ∧
      curr.threads.waitingState = none) → k.queue.Front pid proc → ¬ proc.Zombie := by
    rintro pid proc ⟨curr, hcurr, hw⟩ hf ⟨exitCode, hz⟩
    obtain ⟨pid', hf'⟩ := current_cases hcurr
    obtain ⟨-, rfl⟩ := hf.unique hf'
    rw [hw] at hz
    cases hz
  cases hc with
  | openFile hf hfd => exact h.set rfl hf.process fun hz => (hfront hadm hf hz).elim
  | pipe hf ha hb => exact h.set rfl hf.process fun hz => (hfront hadm hf hz).elim
  | dupfd hf hheld hfd => exact h.set rfl hf.process fun hz => (hfront hadm hf hz).elim
  | closeFd hf hfd hd => exact h.set rfl hf.process fun hz => (hfront hadm hf hz).elim
  | write hf hheld hw => exact fun pid proc hp hz => ⟨proc, hp, rfl, h.zombies pid proc hp hz⟩
  | lseek hf hheld hw => exact fun pid proc hp hz => ⟨proc, hp, rfl, h.zombies pid proc hp hz⟩
  | thread hf hid hfd hzombie =>
    refine h.set rfl hf.process fun hz => ?_
    refine ⟨congrArg List.reduceOption hfd, ?_⟩
    rcases hzombie hz with ⟨exitCode, rfl⟩ | hz'
    · exact hok exitCode rfl _ _ hf
    · exact h.zombies _ _ hf.process hz'
  | fork hf hnone =>
    intro p x hx hxz
    by_cases hp : p = k.queue.nextFreePid
    · subst hp
      simp only [Function.update_self, Option.some.injEq] at hx
      subst hx
      obtain ⟨exitCode, hz⟩ := hxz
      simp [Process.createWithParent, Thread.new] at hz
    · simp only [Function.update_of_ne hp] at hx
      exact ⟨x, hx, rfl, h.zombies p x hx hxz⟩
  | execve hf hd =>
    refine h.set rfl hf.process ?_
    rintro ⟨exitCode, hz⟩
    simp [Process.replace, Thread.new] at hz
  | round hrot hpoll hproc =>
    refine h.set rfl hrot.process fun hz => ?_
    rcases hproc with rfl | rfl
    · exact ⟨rfl, h.zombies _ _ hrot.process hz⟩
    · obtain ⟨exitCode, hz⟩ := hz
      simp [Process.setWaitingState] at hz
  | reap hrot hz hppid hzp hzombie hperm hd hinv =>
    rename_i pid rest proc z child order files
    intro p x hx hxz
    by_cases hpz : p = z
    · subst hpz
      simp at hx
    · simp only [Function.update_of_ne hpz] at hx
      have hwoken : (proc.setWaitingState none).Zombie →
          (proc.setWaitingState none).held = proc.held ∧ ¬ k.files.HoldsPipe proc := by
        rintro ⟨exitCode, hz⟩
        simp [Process.setWaitingState] at hz
      exact h.set (q := k.queue) rfl hrot.process hwoken p x hx hxz

/-- **One step** in which no process exits with an end of a pipe. -/
theorem Kernel.EndsInv.step (h : k.EndsInv) {call : Syscall S} (hadm : call.Admissible k)
    (hok : ExitsWithoutPipes k call) (he : call.exec k = .ok k') : k'.EndsInv := by
  have hc := exec_change h.kernel.table he
  obtain ⟨hpipes, hdev⟩ := hc.pipes h.kernel h.pipes
  exact ⟨(exec_kept h.kernel he).inv, hpipes,
    h.zombies_step hdev (h.zombies_change hadm hok hc)⟩

theorem endsInv_initial (program : LoadedProgram S) :
    (⟨.initial, ProcessQueue.started defaultFd program⟩ : Kernel S).EndsInv := by
  have hdev : ∀ o number e, Files.initial.device o ≠ .pipe number e := by
    intro o number e
    by_cases ho : o = 0 <;> simp [Files.initial, ho]
  refine ⟨inv_initial program, ⟨?_, ?_, ?_, ?_⟩, ?_⟩
  · exact fun o _ number e _ _ hd _ => absurd hd (hdev o number e)
  · exact fun o number e _ hd => absurd hd (hdev o number e)
  · exact fun number hlt => absurd hlt (Nat.not_lt_zero _)
  · exact fun o number e _ hd => absurd hd (hdev o number e)
  · rintro pid proc - - ⟨o, -, number, e, hd⟩
    exact hdev o number e hd

/-- **Only running processes keep pipes open**, and a read of one end reports the end of the
file once none of them has the other end any more, in every state of a run in which no
process exits with an end of a pipe in its slots. -/
theorem pipe_ends_released (k k' : Kernel S) (calls : List (Syscall S)) (h0 : kernel.init k)
    (hrun : kernel.Run ExitsWithoutPipes k calls k') :
    (∀ o number e, k'.files.device o = .pipe number e → ∀ pid proc,
      k'.queue.processes pid = some proc → o ∈ proc.held → ¬ proc.Zombie) ∧
    ∀ o o' number e, o ∈ k'.queue.slots → k'.files.device o = .pipe number e →
      o' < k'.files.made → k'.files.device o' = .pipe number e.other →
      (∀ pid proc, k'.queue.processes pid = some proc → o' ∈ proc.held → proc.Zombie) →
      ∀ num, pipeRead (k'.files.pipes number) e num =
        .ok (k'.files.pipes number, { readSomething := true, bytesRead := 0 }, []) := by
  have hinv : k'.EndsInv := by
    refine hrun.invariant (P := fun _ k => k.EndsInv) ?_ ?_
    · rintro - k call k' hk hok ⟨hadm, he⟩
      exact hk.step hadm hok he
    · obtain ⟨program, rfl⟩ := h0
      exact endsInv_initial program
  have hrunning : ∀ o number e, k'.files.device o = .pipe number e → ∀ pid proc,
      k'.queue.processes pid = some proc → o ∈ proc.held → ¬ proc.Zombie :=
    fun o number e hd pid proc hp ho hz => hinv.zombies pid proc hp hz ⟨o, ho, number, e, hd⟩
  refine ⟨hrunning, fun o o' number e ho hd hlt hd' hzombies num => ?_⟩
  have hgone : o' ∉ k'.queue.slots := by
    intro hslot
    obtain ⟨pid, proc, hp, hheld⟩ := (ProcessQueue.mem_slots hinv.kernel.table).mp hslot
    exact hrunning o' number e.other hd' pid proc hp hheld (hzombies pid proc hp hheld)
  have hmade := hinv.kernel.owns.below o ho
  have hclosed := (hinv.pipes.closed o' number e.other hlt hd').mpr
    ((hinv.kernel.owns.closed o').mpr ⟨hlt, hgone⟩)
  have hopen : ((k'.files.pipes number).get e).isSome := by
    rw [← Option.ne_none_iff_isSome, ne_eq, hinv.pipes.closed o number e hmade hd]
    exact hinv.kernel.owns.not_closed ho
  exact pipeRead_eof (hinv.pipes.linked _ (hinv.pipes.below _ _ _ hmade hd)) hopen hclosed num

/-- A process makes a pipe and closes one end. -/
theorem pipe_ends_released_close :
    ∃ k : Kernel Unit, kernel.Reachable k ∧ pipeRead (k.files.pipes 0) .a 1 =
      .ok (k.files.pipes 0, { readSomething := true, bytesRead := 0 }, []) := by
  have hi : kernel.init (⟨.initial, ProcessQueue.started defaultFd ⟨0, 0, ()⟩⟩ : Kernel Unit) :=
    ⟨_, rfl⟩
  have step : ∀ {k₀ k k' : Kernel Unit} {calls} (call : Syscall Unit),
      kernel.Run ExitsWithoutPipes k₀ calls k → (∀ exitCode, call ≠ .exit exitCode) →
      call.Admissible k → call.exec k = .ok k' →
      kernel.Run ExitsWithoutPipes k₀ (calls ++ [call]) k' :=
    fun call hrun hne hadm he => hrun.snoc (fun exitCode hc => absurd hc (hne exitCode)) ⟨hadm, he⟩
  have r0 : kernel.Run ExitsWithoutPipes
      (⟨.initial, ProcessQueue.started defaultFd ⟨0, 0, ()⟩⟩ : Kernel Unit) [] _ := .nil _
  have r1 := step .pipe r0 (by simp) ⟨_, rfl, rfl⟩ rfl
  have r2 := step (.closeFd 4) r1 (by simp) ⟨_, rfl, rfl⟩ rfl
  refine ⟨_, r2.reachable (.init hi), ?_⟩
  refine (pipe_ends_released _ _ _ hi r2).2 3 4 0 .a (by decide) rfl (by decide) rfl ?_ 1
  intro pid proc hp ho
  refine absurd ((ProcessQueue.mem_slots (reachable_kernel_inv
    (r2.reachable (.init hi))).table).mpr ⟨pid, proc, hp, ho⟩) (by decide)

/-- A parent makes a pipe and forks, the child exits with both ends in its slots, and the
parent closes its copy of one: only the zombie has that end, but a read of the other one
waits. -/
theorem zombie_keeps_pipe_open :
    ∃ k : Kernel Unit, kernel.Reachable k ∧
      k.files.device 3 = .pipe 0 .a ∧ k.files.device 4 = .pipe 0 .b ∧
      (∃ proc, k.queue.processes 1 = some proc ∧ 3 ∈ proc.held) ∧
      (∃ proc, k.queue.processes 2 = some proc ∧ 4 ∈ proc.held ∧ proc.Zombie) ∧
      (∀ pid proc, k.queue.processes pid = some proc → 4 ∈ proc.held → proc.Zombie) ∧
      pipeRead (k.files.pipes 0) .a 1 =
        .ok (k.files.pipes 0, { readSomething := false, bytesRead := 0 }, []) := by
  have step : ∀ {k k' : Kernel Unit} (call : Syscall Unit), kernel.Reachable k →
      call.Admissible k → call.exec k = .ok k' → kernel.Reachable k' :=
    fun call h hadm he => h.step (a := call) ⟨hadm, he⟩
  have enumerates : ∀ {k : Kernel Unit}, kernel.Reachable k → Enumerates k.queue k.queue.order :=
    fun h => ⟨(reachable_kernel_inv h).table.nodup, (reachable_kernel_inv h).table.keys⟩
  have r0 : kernel.Reachable (⟨.initial, ProcessQueue.started defaultFd ⟨0, 0, ()⟩⟩ : Kernel Unit) :=
    .init ⟨_, rfl⟩
  have r1 := step .pipe r0 ⟨_, rfl, rfl⟩ rfl
  have r2 := step (.fork ⟨0, 0, ()⟩) r1 ⟨_, rfl, rfl⟩ rfl
  have r3 := step (.round ⟨false, 0⟩ [1, 2]) r2 (enumerates r2) rfl
  have r4 := step (.exit 0) r3 ⟨_, rfl, rfl⟩ rfl
  have r5 := step (.round ⟨false, 0⟩ [2, 1]) r4 (enumerates r4) rfl
  have r6 := step (.closeFd 4) r5 ⟨_, rfl, rfl⟩ rfl
  refine ⟨_, r6, rfl, rfl, ⟨_, rfl, by decide⟩, ⟨_, rfl, by decide, _, rfl⟩, ?_, rfl⟩
  intro pid proc hp ho
  have hmem : pid ∈ ([1, 2] : List Pid) :=
    ((reachable_kernel_inv r6).table.keys pid).mpr (by rw [hp]; rfl)
  simp only [List.mem_cons, List.not_mem_nil, or_false] at hmem
  rcases hmem with rfl | rfl
  · obtain rfl := Option.some.inj hp
    exact absurd ho (by decide)
  · obtain rfl := Option.some.inj hp
    exact ⟨_, rfl⟩

end Stuos.Sched
