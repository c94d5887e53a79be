import Stuos.Os.Progress
import Stuos.Os.Requests

/-!
# `RLIMIT_DATA`

`current_value` counts the pages that a process has from `REQUEST_PAGE`, and `fork` copies both.
`execve` throws the pages away and keeps the count.

* `rlimit_data_accounted`: as long as no process that has requested pages calls `execve`, the
  count is right, and `REQUEST_PAGE` is granted exactly within the limit.
-/

namespace Stuos.Os

open Stuos.Lib Stuos.Memory Stuos.Sched

variable {S F : Type}

namespace System

variable {s s' : System S F} {pid : Pid} {proc : Process S F}

/-- No process replaces its program while it has requested pages, and the requested pages are in
the lower half. -/
def KeepsPages (s : System S F) (event : Event S F) : Prop :=
  LowerRequest event ∧
    ∀ image, event = .execve image → ∀ pid proc, s.queue.Front pid proc → s.requested pid = []

theorem kept_usage : Kept fun _ _ u pages => u = pageSize * pages.length where
  same h _ := h
  grant h _ _ _ _ := by
    rw [h, List.length_cons, Nat.mul_succ]
  fork h _ := by
    rw [h, List.length_map]

theorem Inv.requested_le {pages : List (Nat × Nat)} (h : s.Inv)
    (hp : s.queue.processes pid = some proc) (hm : Mapped s.machine proc.pageTableRoot pages) :
    pages.length ≤ s.machine.pages := by
  have hroot := h.root_mem hp
  have hnodup : (pages.map Prod.snd).Nodup := by
    refine List.Nodup.map_on ?_ (List.Nodup.of_map _ hm.nodup)
    intro page hpage page' hpage' he
    have hlow := fun page hpage => lower_pathOf (hm.lower page hpage)
    obtain ⟨-, hpath⟩ := h.accounted.separate _ _ _ _ _ ⟨hroot, hlow page hpage⟩
      ⟨hroot, hlow page' hpage'⟩ (hm.reach page hpage) (he ▸ hm.reach page' hpage')
    exact List.inj_on_of_nodup_map hm.nodup hpage hpage' hpath
  have hsub : pages.map Prod.snd ⊆ List.range' s.machine.base s.machine.pages := by
    intro f hf
    obtain ⟨page, hpage, rfl⟩ := List.mem_map.mp hf
    exact List.mem_range'_1.mpr (h.accounted.owned _ hroot _ _
      (lower_pathOf (hm.lower page hpage)) (hm.reach page hpage))
  have hlen := (List.subperm_of_subset hnodup hsub).length_le
  rwa [List.length_map, List.length_range'] at hlen

theorem run_usage {s₀ : System S F} {events : List (Event S F)}
    (hrun : system.Run KeepsPages s₀ events s) (hinit : Init s₀) :
    s.Inv ∧ s.Each fun _ _ u pages => u = pageSize * pages.length := by
  refine hrun.invariant (P := fun _ s => s.Inv ∧
    s.Each fun _ _ u pages => u = pageSize * pages.length) ?_ ⟨hinit.inv, ?_⟩
  · rintro - s event s' ⟨h, hP⟩ ⟨hlow, hexec⟩ ⟨ha, he⟩
    have hc := exec_change h ha hlow he
    refine ⟨hc.inv h, hc.processes kept_usage h hP ?_⟩
    intro image hev pid proc hf _ _
    have hu := hP pid proc hf.process
    rw [hexec image hev pid proc hf] at hu
    exact hu
  · obtain ⟨defaultFd, -, -⟩ := hinit
    intro pid proc hp
    simp only [ProcessQueue.started, Function.update_apply] at hp
    split at hp
    · obtain rfl := Option.some.inj hp
      rfl
    · simp at hp

/-- **`RLIMIT_DATA` is accounted for** in every run in which `execve` is only called by processes
without requested pages: the use of the limit is the size of the requested pages, which are all
mapped, at different addresses; `REQUEST_PAGE` returns 0 exactly if one page more is within the
limit; above the limit it always returns, and within the limit it does so if the page can be
mapped. -/
theorem rlimit_data_accounted (s₀ s : System S F) (events : List (Event S F))
    (hinit : Init s₀) (hrun : system.Run KeepsPages s₀ events s) :
    (∀ pid proc, s.queue.processes pid = some proc →
      proc.memoryLimit.currentValue = pageSize * (s.requested pid).length ∧
      Mapped s.machine proc.pageTableRoot (s.requested pid)) ∧
    ∀ pid proc virt, s.running = true → s.queue.Front pid proc → (pml4Index virt).val < 256 →
      (∀ r s', s.syscallRequestPage virt = .ok (r, s') →
        (r = 0 ↔ pageSize * ((s.requested pid).length + 1) ≤ proc.memoryLimit.limit.rlimCur)) ∧
      (proc.memoryLimit.limit.rlimCur < pageSize * ((s.requested pid).length + 1) →
        s.syscallRequestPage virt = .ok (enomem, s)) ∧
      (pageSize * ((s.requested pid).length + 1) ≤ proc.memoryLimit.limit.rlimCur →
        pageOffset virt = 0 → reach s.machine proc.pageTableRoot (pathOf virt) = none →
        (missing s.machine proc.pageTableRoot (pathOf virt)).length ≤
          (freePages s.machine).length →
        ∃ s', s.syscallRequestPage virt = .ok (0, s')) := by
  obtain ⟨h, husage⟩ := run_usage hrun hinit
  obtain ⟨-, hmapped⟩ := run_mapped (fun _ _ hk => hk.1) hrun hinit
  refine ⟨fun pid proc hp => ⟨husage pid proc hp, hmapped pid proc hp⟩, ?_⟩
  intro pid proc virt hr hf hlow
  have hu : proc.memoryLimit.currentValue = pageSize * (s.requested pid).length :=
    husage pid proc hf.process
  have hnext : proc.memoryLimit.currentValue + pageSize =
      pageSize * ((s.requested pid).length + 1) := by
    rw [hu, Nat.mul_succ]
  have hover : proc.memoryLimit.currentValue + pageSize < 2 ^ 64 := by
    have hle := h.requested_le hf.process (hmapped pid proc hf.process)
    have haddr := h.accounted.addressable
    rw [hnext, pageSize]
    omega
  rw [← hnext]
  refine ⟨?_, ?_, ?_⟩
  · intro r s' he
    obtain ⟨-, pid', proc', hf', hiff⟩ := requestPage_cases h hr hlow he
    obtain ⟨rfl, rfl⟩ := hf.unique hf'
    exact hiff
  · exact fun hlimit => requestPage_denied hf hover hlimit
  · exact fun hlimit halign hun hfree => requestPage_ok virt h hr hf hlow hover hlimit halign hun hfree

theorem heap_page_requested : ∃ s₀ s : System Unit Unit, Init s₀ ∧
    system.Run KeepsPages s₀ [.round (fun _ _ _ => none) [1], .requestPage 0x401000] s ∧
    s.running = true ∧ (s.requested 1).length = 1 ∧ 411 ≤ (freePages s.machine).length ∧
    ∃ proc, s.queue.Front 1 proc ∧ proc.memoryLimit = ⟨4096, LimitData.default.limit⟩ := by
  obtain ⟨s₀, s, hinit, hstep, hr, -, hreq, -, -, ⟨proc, hf, hlimit, -, hheap⟩, hfree, -⟩ :=
    started_program
  have hrun : system.Run KeepsPages s₀ [.round (fun _ _ _ => none) [1]] s :=
    .snoc (.nil s₀) ⟨trivial, by simp⟩ hstep
  have h := run_inv (fun _ _ h => h.1) hrun hinit
  have hle : (missing s.machine proc.pageTableRoot (pathOf 0x401000)).length ≤ 5 :=
    List.length_filter_le _ _
  obtain ⟨s', he⟩ := requestPage_ok 0x401000 h hr hf (by decide)
    (by rw [hlimit]; decide) (by rw [hlimit]; decide) (by decide) hheap (by omega)
  have hok : KeepsPages s (.requestPage 0x401000) :=
    ⟨show (pml4Index 0x401000).val < 256 by decide, by simp⟩
  have hstep' : system.step s (.requestPage 0x401000) s' :=
    ⟨hr, map_eq_ok.mpr ⟨(0, s'), he, rfl⟩⟩
  have hrun' := hrun.snoc hok hstep'
  obtain ⟨hc, -⟩ := requestPage_cases h hr (by decide) he
  cases hc with
  | denied hf' habove =>
    obtain ⟨rfl, rfl⟩ := hf.unique hf'
    rw [hlimit] at habove
    exact absurd habove (by decide)
  | granted hf' hwithin hlow hnone hacc x hreach =>
    obtain ⟨rfl, rfl⟩ := hf.unique hf'
    have hfew := x.freePages_le h.accounted hacc (h.root_mem hf.process)
    have hlen : (pathOf 0x401000).length = 4 := rfl
    refine ⟨s₀, _, hinit, hrun', hr, ?_, ?_, _, ⟨hf.order, ProcessQueue.set_same ..⟩, ?_⟩
    · simp [hreq]
    · rw [hlen] at hfew
      dsimp only
      omega
    · rw [hlimit]
      rfl
  | left hev hf' hsame => exact hev.elim

/-- With one page requested, the count is one page and the next request is within the limit. -/
theorem rlimit_data_accounted_heap : ∃ (s₀ s : System Unit Unit) (proc : Process Unit Unit),
    Init s₀ ∧
    system.Run KeepsPages s₀ [.round (fun _ _ _ => none) [1], .requestPage 0x401000] s ∧
    s.queue.Front 1 proc ∧ proc.memoryLimit.currentValue = pageSize * (s.requested 1).length ∧
    (s.requested 1).length = 1 ∧
    ∀ r s', s.syscallRequestPage 0x402000 = .ok (r, s') → r = 0 := by
  obtain ⟨s₀, s, hinit, hrun, hr, hlen, -, proc, hf, hlimit⟩ := heap_page_requested
  obtain ⟨hcount, hreq⟩ := rlimit_data_accounted s₀ s _ hinit hrun
  refine ⟨s₀, s, proc, hinit, hrun, hf, (hcount 1 proc hf.process).1, hlen, fun r s' he => ?_⟩
  refine ((hreq 1 proc 0x402000 hr hf (by decide)).1 r s' he).mpr ?_
  rw [hlen, hlimit]
  decide

/-- **The count is wrong** after the first process has requested a page and replaced its program:
no page is requested, and the limit is still charged for one. -/
theorem rlimit_data_drift : ∃ (s : System Unit Unit) (proc : Process Unit Unit),
    system.Reachable s ∧ s.queue.processes 1 = some proc ∧ s.requested 1 = [] ∧
    reach s.machine proc.pageTableRoot (pathOf 0x401000) = none ∧
    proc.memoryLimit.currentValue = pageSize ∧
    proc.memoryLimit.currentValue ≠ pageSize * (s.requested 1).length := by
  obtain ⟨s₀, s, hinit, hrun, hr, -, hfree, proc, hf, hlimit⟩ := heap_page_requested
  have hpages : program.pages.length = 19 := rfl
  obtain ⟨s', proc', he, hp, hsame, hnone, hun⟩ :=
    execve_ok (run_inv (fun _ _ h => h.1) hrun hinit) hf good_program (by rw [hpages]; omega)
  have hreach : system.Reachable s' :=
    (hrun.reachable (.init hinit)).step (a := .execve program) ⟨hr, he⟩
  have hvalue : proc'.memoryLimit.currentValue = pageSize := by
    rw [hsame, hlimit]
    rfl
  refine ⟨s', proc', hreach, hp, hnone, hun 0x401000 (by decide) (by decide), hvalue, ?_⟩
  rw [hvalue, hnone]
  decide

end System

end Stuos.Os
