import Stuos.Sched.RoundRobin

/-!
# No starvation

Taking zombies out of the queue changes the order of the processes, but it never moves one
back: a process waits at most as many rounds as there are processes before it.

* `Within.step`: a round brings a process that waits one place forward, or polls it.
* `no_starvation`: so it is polled in time, or it has been taken out itself.
-/

namespace Stuos.Sched

open Stuos.Lib
open Stuos.Ipc (FopReadResult)

variable {S F : Type} {defaultFd : List (Option F)} {q q' : ProcessQueue S F} {y : Pid}

/-- The rounds of a run. -/
def rounds (l : List (Op S F × Option Pid)) : Nat := l.countP fun a => a.2.isSome

/-- `y` stands behind the front, with at most `n` processes before it. -/
def Within (y : Pid) (n : Nat) (q : ProcessQueue S F) : Prop :=
  ∃ j, 0 < j ∧ j ≤ n ∧ q.order[j]? = some y

/-- **A round** polls the process that is next, and brings every other one forward, unless it
takes it out. -/
theorem Within.round {n : Nat} (h : Within y (n + 1) q) (hi : TableInv q)
    {readNonblocking : F → Nat → Nat → Option FopReadResult} {iteration : List Pid}
    {r : ProcessQueue.Round S} (hr : q.runNextTaskRound readNonblocking iteration = .ok (r, q')) :
    r.polled = y ∨ y ∉ q'.order ∨ Within y n q' := by
  obtain ⟨j, hpos, hj, hy⟩ := h
  obtain ⟨rest, proc, hrot, -, heff⟩ := ProcessQueue.round_cases hr
  obtain ⟨root, w, result, stores⟩ := r
  obtain ⟨f, t, hq, hrt⟩ := frontToBack_eq_some hrot.order
  -- the place of `y` in the rotated queue
  have hplace : (w :: rest)[j - 1]? = some y := by
    obtain ⟨k, rfl⟩ : ∃ k, j = k + 1 := ⟨j - 1, by omega⟩
    rw [hq, List.getElem?_cons_succ] at hy
    rw [hrt, Nat.add_sub_cancel, List.getElem?_append_left (List.getElem?_eq_some_iff.mp hy).1, hy]
  have hsame : ∀ {order : List Pid} {i : Nat}, order.head? = some w → order[i]? = some y →
      i ≤ j - 1 → w = y ∨ ∃ j, 0 < j ∧ j ≤ n ∧ order[j]? = some y := by
    intro order i hhead hget hle
    by_cases hi0 : i = 0
    · subst hi0
      rw [← List.head?_eq_getElem?, hhead, Option.some.injEq] at hget
      exact Or.inl hget
    · exact Or.inr ⟨i, by omega, by omega, hget⟩
  cases heff with
  | nothing => exact (hsame rfl hplace (Nat.le_refl _)).imp_right Or.inr
  | start => exact (hsame rfl hplace (Nat.le_refl _)).imp_right Or.inr
  | read => exact (hsame rfl hplace (Nat.le_refl _)).imp_right Or.inr
  | @reap _ _ _ z child _ index order hw hz hppid ht hout hindex hsw =>
    have hn : (w :: rest).Nodup := (frontToBack_perm hrot.order).nodup_iff.mpr hi.nodup
    obtain ⟨hlt, hget, -⟩ := List.idxOf?_eq_some_iff.mp hindex
    have hgetz : (w :: rest)[index]? = some z := List.getElem?_eq_some_iff.mpr ⟨hlt, hget⟩
    by_cases hyz : y = z
    · subst hyz
      refine Or.inr (Or.inl fun hmem => ?_)
      exact ((mem_swapRemoveBack hn hgetz hsw y).mp hmem).2 rfl
    · have hne : j - 1 ≠ index := by
        intro he
        rw [he, hgetz, Option.some.injEq] at hplace
        exact hyz hplace.symm
      have hzw : z ≠ w := by
        rintro rfl
        exact absurd (hi.parent _ _ hz) (by rw [hppid]; exact Int.lt_irrefl _)
      obtain ⟨i, hle, hyi⟩ := getElem?_swapRemoveBack hsw hplace hne
      obtain ⟨t', rfl⟩ := swapRemoveBack_front hzw hindex hsw
      exact (hsame rfl hyi hle).imp_right Or.inr

/-- **One step**: what is not a round leaves the processes where they are. -/
theorem Within.step {n : Nat} {a : Op S F × Option Pid} (h : Within y (n + 1) q) (hi : TableInv q)
    (hs : (polling defaultFd).step q a q') :
    (a.2 = none ∧ Within y (n + 1) q') ∨
      (a.2.isSome ∧ (a.2 = some y ∨ y ∉ q'.order ∨ Within y n q')) := by
  rcases polling_cases hi.nonempty hs with ⟨readNonblocking, iteration, r, rfl, hr⟩ |
    ⟨hnone, new, ho, -⟩
  · refine Or.inr ⟨rfl, ?_⟩
    rcases h.round hi hr with hp | hgone | hin
    · exact Or.inl (congrArg some hp)
    · exact Or.inr (Or.inl hgone)
    · exact Or.inr (Or.inr hin)
  · obtain ⟨j, hpos, hj, hy⟩ := h
    refine Or.inl ⟨hnone, j, hpos, hj, ?_⟩
    rw [ho, List.getElem?_append_left (List.getElem?_eq_some_iff.mp hy).1, hy]

theorem gone_step {a : Op S F × Option Pid} (hgone : y ∉ q.order) (hlt : y < q.nextFreePid)
    (hi : TableInv q) (hs : (polling defaultFd).step q a q') :
    y ∉ q'.order ∧ y < q'.nextFreePid := by
  rcases polling_cases hi.nonempty hs with ⟨readNonblocking, iteration, r, rfl, hr⟩ |
    ⟨-, new, ho, hnew, hle⟩
  · refine ⟨?_, by rw [round_nextFreePid hr]; exact hlt⟩
    obtain ⟨rest, proc, hrot, -, heff⟩ := ProcessQueue.round_cases hr
    obtain ⟨root, w, result, stores⟩ := r
    have hrotated : y ∉ w :: rest := fun hmem =>
      hgone ((frontToBack_perm hrot.order).mem_iff.mp hmem)
    cases heff with
    | nothing => exact hrotated
    | start => exact hrotated
    | read => exact hrotated
    | reap hw hz hppid ht hout hindex hsw =>
      exact fun hmem => hrotated (List.mem_of_mem_eraseIdx ((swapRemoveBack_perm hsw).mem_iff.mp hmem))
  · refine ⟨fun hmem => ?_, Int.lt_of_lt_of_le hlt hle⟩
    rw [ho, List.mem_append] at hmem
    rcases hmem with hmem | hmem
    · exact hgone hmem
    · exact absurd hlt (by rw [hnew y hmem]; exact Int.lt_irrefl _)

/-- **No starvation**: a process with `n` others before it is polled in the next `n` rounds at
the latest, whatever is forked, woken or reaped meanwhile; or it is a zombie and has been
reaped. -/
theorem no_starvation (defaultFd : List (Option F)) (q q' : ProcessQueue S F)
    (l : List (Op S F × Option Pid)) (y : Pid) (n : Nat) (h : (scheduler defaultFd).Reachable q)
    (hy : q.order[n]? = some y) (hn : 0 < n)
    (hrun : (polling defaultFd).Run (fun _ _ => True) q l q') (hcount : n ≤ rounds l) :
    (∃ a ∈ l, a.2 = some y) ∨ y ∉ q'.order := by
  have hi := reachable_inv h
  have hmem : y < q.nextFreePid := hi.below y (List.mem_of_getElem? hy)
  -- the places before `y` and the rounds that are over
  have hinv : TableInv q' ∧ y < q'.nextFreePid ∧ ((∃ a ∈ l, a.2 = some y) ∨ y ∉ q'.order ∨
      ∃ k, k + rounds l = n ∧ Within y k q') := by
    refine hrun.invariant (P := fun l s => TableInv s ∧ y < s.nextFreePid ∧
      ((∃ a ∈ l, a.2 = some y) ∨ y ∉ s.order ∨ ∃ k, k + rounds l = n ∧ Within y k s)) ?_
      ⟨hi, hmem, Or.inr (Or.inr ⟨n, rfl, n, hn, Nat.le_refl n, hy⟩)⟩
    rintro l s a s' ⟨hi, hlt, hp⟩ - hs
    have hi' := exec_inv defaultFd hi a.1
    rw [polling_scheduler hs] at hi'
    have hlt' : y < s'.nextFreePid := by
      rcases polling_cases hi.nonempty hs with ⟨_, _, r, -, hr⟩ | ⟨-, _, -, -, hle⟩
      · rwa [round_nextFreePid hr]
      · exact Int.lt_of_lt_of_le hlt hle
    refine ⟨hi', hlt', ?_⟩
    rcases hp with ⟨b, hb, hby⟩ | hgone | ⟨k, hk, hw⟩
    · exact Or.inl ⟨b, by simp [hb], hby⟩
    · exact Or.inr (Or.inl (gone_step hgone hlt hi hs).1)
    · obtain ⟨k, rfl⟩ : ∃ i, k = i + 1 := by
        obtain ⟨j, hpos, hj, -⟩ := hw
        exact ⟨k - 1, by omega⟩
      have hcons : rounds (l ++ [a]) = rounds l + if a.2.isSome then 1 else 0 := by
        simp [rounds, List.countP_append, List.countP_cons]
      rcases hw.step hi hs with ⟨hnone, hin⟩ | ⟨hsome, hpolled | hgone | hin⟩
      · refine Or.inr (Or.inr ⟨k + 1, ?_, hin⟩)
        rw [hcons, hnone]
        simpa using hk
      · exact Or.inl ⟨a, by simp, hpolled⟩
      · exact Or.inr (Or.inl hgone)
      · refine Or.inr (Or.inr ⟨k, ?_, hin⟩)
        rw [hcons, if_pos hsome]
        omega
  obtain ⟨-, -, hp | hgone | ⟨k, hk, j, hpos, hj, -⟩⟩ := hinv
  · exact Or.inl hp
  · exact Or.inr hgone
  · omega

/-- Of two processes the second one is polled in the first round. -/
theorem no_starvation_second : ∃ (q q' : ProcessQueue Unit Unit) (l : List (Op Unit Unit × Option Pid)),
    (scheduler []).Reachable q ∧ q.order = [1, 2] ∧
    (polling []).Run (fun _ _ => True) q l q' ∧ rounds l = 1 ∧
    ((∃ a ∈ l, a.2 = some 2) ∨ 2 ∉ q'.order) := by
  have r0 : (scheduler (S := Unit) (F := Unit) []).Reachable _ := .init (init_started [] ⟨0, 0, ()⟩)
  have r1 := reachable_exec (.push ⟨0, 0, ()⟩) r0 trivial rfl
  obtain ⟨q, hq⟩ : ∃ q : ProcessQueue Unit Unit, (scheduler []).Reachable q ∧ q.order = [1, 2] ∧
      ∃ r q', q.runNextTaskRound (fun _ _ _ => none) q.order = .ok (r, q') :=
    ⟨_, r1, rfl, _, _, rfl⟩
  obtain ⟨hreach, ho, r, q', hr⟩ := hq
  have hs : (polling []).step q (.round (fun _ _ _ => none) q.order, some r.polled) q' :=
    ⟨enumerates_order hreach, r, hr, rfl⟩
  have hrun : (polling []).Run (fun _ _ => True) q _ q' := (Lts.Run.nil q).snoc trivial hs
  exact ⟨q, q', _, hreach, ho, hrun, rfl,
    no_starvation [] q q' _ 2 1 hreach (by rw [ho]; rfl) (by decide) hrun (Nat.le_refl 1)⟩

end Stuos.Sched
