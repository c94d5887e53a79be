import Stuos.Sched.Steps

/-!
# Round robin

Whether the loop of `run_next_task` polls the processes in turn.  A round moves the front of
the queue to the back and polls the new front, which alone would be round robin; but a zombie
is taken out with `swap_remove_back`, which moves the back of the queue, the process that was
polled last, to its place.

* `round_robin_of_near_back`: as long as every zombie that is taken out is at the back or next
  to it, between two polls of a process every other one is polled.
* `swap_remove_back_skips`: otherwise a process may be polled twice while another one waits.
-/

namespace Stuos.Sched

open Stuos.Lib
open Stuos.Ipc (FopReadResult)

variable {S F : Type}

/-- The scheduler with the pid that a round polls in the label. -/
def polling (defaultFd : List (Option F)) : Lts (ProcessQueue S F) (Op S F × Option Pid) where
  init := (scheduler defaultFd).init
  step q a q' := a.1.Admissible q ∧
    match a.1 with
    | .round readNonblocking iteration => ∃ r,
        q.runNextTaskRound readNonblocking iteration = .ok (r, q') ∧ a.2 = some r.polled
    | op => op.exec defaultFd q = .ok q' ∧ a.2 = none

/-- If the process that a round polls waits for a child, then the zombies it may take are at the
back of the queue or next to it. -/
def NearBack (q : ProcessQueue S F) : Op S F → Prop
  | .round _ _ => ∀ w rest proc childType status outputPid, q.Rotated w rest proc →
      proc.threads.waitingState = some (.waitingChild childType status 0 outputPid) →
      ∀ z child exitCode, q.processes z = some child → child.identity.ppid = w →
        proc.Taken childType z child exitCode →
        ∃ front, w :: rest = front ++ [z] ∨ ∃ back, w :: rest = front ++ [z, back]
  | _ => True

/-! ### The order of the queue -/

/-- Taking out an element that is at the back or next to it leaves the others in order. -/
theorem swapRemoveBack_near_back {l l' front : List Pid} {z : Pid} {index : Nat} (hn : l.Nodup)
    (hl : l = front ++ [z] ∨ ∃ back, l = front ++ [z, back]) (hi : l.idxOf? z = some index)
    (h : swapRemoveBack l index = some l') : l' = l.filter (· ≠ z) := by
  have hz : z ∉ front := by
    intro hmem
    rcases hl with rfl | ⟨back, rfl⟩ <;>
      exact (List.nodup_append.mp hn).2.2 z hmem z (by simp) rfl
  have hindex : index = front.length := by
    have hmem : front.idxOf? z = none := List.idxOf?_eq_none_iff.mpr hz
    obtain ⟨hlt, hget, -⟩ := List.idxOf?_eq_some_iff.mp hi
    have hfront : l[front.length]? = some z := by
      rcases hl with rfl | ⟨back, rfl⟩ <;> simp
    exact (List.getElem?_inj hlt hn).mp
      ((List.getElem?_eq_some_iff.mpr ⟨hlt, hget⟩).trans hfront.symm)
  have hfilter : front.filter (· ≠ z) = front := by
    refine List.filter_eq_self.mpr fun a ha => ?_
    simp only [ne_eq, decide_eq_true_eq]
    rintro rfl
    exact hz ha
  subst hindex
  rcases hl with rfl | ⟨back, rfl⟩
  · simp only [swapRemoveBack, List.getLast?_concat, List.length_append, List.length_singleton,
      Nat.lt_succ_self, if_true, Option.some.injEq] at h
    rw [← h, List.filter_append, hfilter]
    simp
  · have hback : back ≠ z := by
      rintro rfl
      have := (List.nodup_append.mp hn).2.1
      simp at this
    have hlast : (front ++ [z, back]).getLast? = some back := by simp
    simp only [swapRemoveBack, hlast, List.length_append, List.length_cons, List.length_nil] at h
    rw [if_pos (by omega), Option.some.injEq] at h
    rw [← h, List.filter_append, hfilter]
    simp [hback]

theorem round_order {q q' : ProcessQueue S F} (hi : TableInv q)
    {readNonblocking : F → Nat → Nat → Option FopReadResult} {iteration : List Pid}
    {r : ProcessQueue.Round S}
    (hc : NearBack q (.round readNonblocking iteration))
    (hr : q.runNextTaskRound readNonblocking iteration = .ok (r, q')) :
    ∃ rest, frontToBack q.order = some (r.polled :: rest) ∧
      (q'.order = r.polled :: rest ∨
        ∃ z, z ≠ r.polled ∧ q'.order = (r.polled :: rest).filter (· ≠ z)) := by
  obtain ⟨rest, proc, hrot, -, heff⟩ := ProcessQueue.round_cases hr
  obtain ⟨root, w, result, stores⟩ := r
  refine ⟨rest, hrot.order, ?_⟩
  cases heff with
  | nothing => exact Or.inl rfl
  | start => exact Or.inl rfl
  | read => exact Or.inl rfl
  | reap hw hz hppid ht hout hindex hsw =>
    rename_i ct status outputPid z child e index order
    obtain ⟨front, hl⟩ := hc w rest proc ct status outputPid hrot hw z child e hz hppid ht
    have hn : (w :: rest).Nodup := (frontToBack_perm hrot.order).nodup_iff.mpr hi.nodup
    refine Or.inr ⟨z, ?_, swapRemoveBack_near_back hn hl hindex hsw⟩
    rintro rfl
    exact absurd (hi.parent _ _ hz) (by rw [hppid]; exact Int.lt_irrefl _)

theorem swapRemoveBack_front {w z : Pid} {rest order : List Pid} {index : Nat} (hz : z ≠ w)
    (hi : (w :: rest).idxOf? z = some index)
    (h : swapRemoveBack (w :: rest) index = some order) : ∃ t, order = w :: t := by
  obtain ⟨hlt, hget, -⟩ := List.idxOf?_eq_some_iff.mp hi
  obtain ⟨k, rfl⟩ : ∃ k, index = k + 1 := by
    cases index with
    | zero => exact absurd hget.symm hz
    | succ k => exact ⟨k, rfl⟩
  have hne : rest ≠ [] := by
    rintro rfl
    simp at hlt
  unfold swapRemoveBack at h
  split at h
  · simp at h
  · rename_i back _
    rw [if_pos hlt, Option.some.injEq, List.set_cons_succ,
      List.dropLast_cons_of_ne_nil (by simpa using hne)] at h
    exact ⟨_, h.symm⟩

theorem round_front {q q' : ProcessQueue S F} (hi : TableInv q)
    {readNonblocking : F → Nat → Nat → Option FopReadResult} {iteration : List Pid}
    {r : ProcessQueue.Round S} (hr : q.runNextTaskRound readNonblocking iteration = .ok (r, q')) :
    frontToBack q.order ≠ none ∧ ∃ t, q'.order = r.polled :: t := by
  obtain ⟨rest, proc, hrot, -, heff⟩ := ProcessQueue.round_cases hr
  obtain ⟨root, w, result, stores⟩ := r
  refine ⟨by simp [hrot.order], ?_⟩
  cases heff with
  | nothing => exact ⟨rest, rfl⟩
  | start => exact ⟨rest, rfl⟩
  | read => exact ⟨rest, rfl⟩
  | reap hw hz hppid ht hout hindex hsw =>
    refine swapRemoveBack_front ?_ hindex hsw
    rintro rfl
    exact absurd (hi.parent _ _ hz) (by rw [hppid]; exact Int.lt_irrefl _)

/-! ### The turn of the other process -/

section

variable {x y : Pid}

/-- Since the last poll of `x`, with none of `y`: `x` is still at the front, or `y` stands before
`x`; or one of the two has gone. -/
inductive Waits (x y : Pid) (q : ProcessQueue S F) : Prop
  | front {rest : List Pid} : q.order = x :: rest → y ∈ rest → Waits x y q
  | before : [y, x].Sublist q.order → q.order.head? ≠ some y → Waits x y q
  | gone : x ∉ q.order → x < q.nextFreePid → Waits x y q
  | left : y ∉ q.order → Waits x y q

theorem Waits.of_filter {q : ProcessQueue S F} {w z : Pid} {rest : List Pid}
    (hs : [y, x].Sublist (w :: rest)) (hwy : w ≠ y) (hx : x < q.nextFreePid)
    (ho : q.order = (w :: rest).filter (· ≠ z)) (hzw : z ≠ w) : Waits x y q := by
  by_cases hzx : z = x
  · refine .gone ?_ hx
    simp [ho, hzx]
  · by_cases hzy : z = y
    · refine .left ?_
      simp [ho, hzy]
    · refine .before ?_ ?_
      · rw [ho]
        have := hs.filter (· ≠ z)
        simpa [Ne.symm hzx, Ne.symm hzy] using this
      · rw [ho, List.filter_cons_of_pos (by simpa using hzw.symm)]
        simpa using hwy

theorem polling_cases {defaultFd : List (Option F)} {q q' : ProcessQueue S F}
    {a : Op S F × Option Pid} (hne : q.order ≠ []) (hs : (polling defaultFd).step q a q') :
    (∃ readNonblocking iteration r, a = (.round readNonblocking iteration, some r.polled) ∧
      q.runNextTaskRound readNonblocking iteration = .ok (r, q')) ∨
    a.2 = none ∧ ∃ new, q'.order = q.order ++ new ∧ (∀ p ∈ new, p = q.nextFreePid) ∧
      q.nextFreePid ≤ q'.nextFreePid := by
  obtain ⟨op, polled⟩ := a
  obtain ⟨-, hs⟩ := hs
  have hother : ∀ {op : Op S F}, (∀ readNonblocking iteration,
      op ≠ .round readNonblocking iteration) → op.exec defaultFd q = .ok q' →
      ∃ new, q'.order = q.order ++ new ∧ (∀ p ∈ new, p = q.nextFreePid) ∧
        q.nextFreePid ≤ q'.nextFreePid := by
    intro op hop he
    rcases exec_cases hne he with ⟨program, parentPid, parent, -, hf, -, rfl⟩ |
      ⟨pid, proc, proc', hf, rfl, hid⟩ | ⟨readNonblocking, iteration, r, rfl, hr⟩
    · exact ⟨[q.nextFreePid], rfl, by simp, Int.le_add_one (Int.le_refl _)⟩
    · exact ⟨[], by simp, by simp, Int.le_refl _⟩
    · exact absurd rfl (hop _ _)
  cases op with
  | round readNonblocking iteration =>
    obtain ⟨r, hr, rfl⟩ := hs
    exact Or.inl ⟨readNonblocking, iteration, r, rfl, hr⟩
  | push program => exact Or.inr ⟨hs.2, hother (by simp) hs.1⟩
  | setCurrentAsZombie exitCode => exact Or.inr ⟨hs.2, hother (by simp) hs.1⟩
  | replace program => exact Or.inr ⟨hs.2, hother (by simp) hs.1⟩
  | wait pid status options outputPid state => exact Or.inr ⟨hs.2, hother (by simp) hs.1⟩
  | readFd fd buffer numBytes read state => exact Or.inr ⟨hs.2, hother (by simp) hs.1⟩
  | interrupted state => exact Or.inr ⟨hs.2, hother (by simp) hs.1⟩

theorem polling_scheduler {defaultFd : List (Option F)} {q q' : ProcessQueue S F}
    {a : Op S F × Option Pid} (hs : (polling defaultFd).step q a q') :
    a.1.exec defaultFd q = .ok q' := by
  obtain ⟨op, polled⟩ := a
  obtain ⟨-, hs⟩ := hs
  cases op with
  | round readNonblocking iteration =>
    obtain ⟨r, hr, -⟩ := hs
    exact map_eq_ok.mpr ⟨(r, q'), hr, rfl⟩
  | push program => exact hs.1
  | setCurrentAsZombie exitCode => exact hs.1
  | replace program => exact hs.1
  | wait pid status options outputPid state => exact hs.1
  | readFd fd buffer numBytes read state => exact hs.1
  | interrupted state => exact hs.1

theorem round_nextFreePid {q q' : ProcessQueue S F}
    {readNonblocking : F → Nat → Nat → Option FopReadResult} {iteration : List Pid}
    {r : ProcessQueue.Round S} (hr : q.runNextTaskRound readNonblocking iteration = .ok (r, q')) :
    q'.nextFreePid = q.nextFreePid := by
  obtain ⟨rest, proc, hrot, -, heff⟩ := ProcessQueue.round_cases hr
  obtain ⟨root, w, result, stores⟩ := r
  cases heff <;> rfl

/-- **One step**: `y` is polled, or it still waits before `x`. -/
theorem Waits.step {defaultFd : List (Option F)} {q q' : ProcessQueue S F}
    {a : Op S F × Option Pid} (hi : TableInv q) (hx : x < q.nextFreePid)
    (hw : Waits x y q) (hy : y ∈ q.order) (hc : NearBack q a.1)
    (hs : (polling defaultFd).step q a q') : a.2 = some y ∨ Waits x y q' := by
  rcases polling_cases hi.nonempty hs with ⟨readNonblocking, iteration, r, rfl, hr⟩ |
    ⟨-, new, ho, hnew, hle⟩
  · obtain ⟨rest, hrot, horder⟩ := round_order hi hc hr
    obtain ⟨f, t, hq, hrt⟩ := frontToBack_eq_some hrot
    by_cases hpy : r.polled = y
    · exact Or.inl (by rw [hpy])
    have hx' : x < q'.nextFreePid := by rwa [round_nextFreePid hr]
    right
    -- in the rotated queue `y` stands before `x`, unless `x` has gone
    have key : x ∉ q.order ∨ [y, x].Sublist (r.polled :: rest) := by
      cases hw with
      | front ho hmem =>
        rw [ho, List.cons.injEq] at hq
        obtain ⟨rfl, rfl⟩ := hq
        rw [hrt]
        exact Or.inr ((List.singleton_sublist.mpr hmem).append (List.Sublist.refl [x]))
      | before hsub hhead =>
        rw [hq] at hsub hhead
        rcases List.sublist_cons_iff.mp hsub with ht | ⟨l, he, -⟩
        · rw [hrt]
          exact Or.inr (ht.trans (List.sublist_append_left _ _))
        · rw [List.cons.injEq] at he
          exact absurd (by simp [he.1]) hhead
      | gone hgone _ => exact Or.inl hgone
      | left hleft => exact absurd hy hleft
    rcases key with hgone | hsub
    · refine .gone ?_ hx'
      intro hmem
      refine hgone ((frontToBack_perm hrot).mem_iff.mp ?_)
      rcases horder with ho | ⟨z, -, ho⟩
      · exact ho ▸ hmem
      · rw [ho] at hmem
        exact List.mem_of_mem_filter hmem
    · rcases horder with ho | ⟨z, hz, ho⟩
      · refine .before (ho ▸ hsub) ?_
        rw [ho, List.head?_cons, ne_eq, Option.some.injEq]
        exact hpy
      · exact .of_filter hsub hpy hx' ho hz
  · right
    cases hw with
    | front hq hmem =>
      exact .front (by rw [ho, hq, List.cons_append]) (List.mem_append_left _ hmem)
    | before hsub hhead =>
      obtain ⟨f, t, hq⟩ := List.exists_cons_of_ne_nil hi.nonempty
      refine .before ?_ ?_
      · rw [ho]
        exact hsub.trans (List.sublist_append_left _ _)
      · rw [ho, hq]
        rwa [hq] at hhead
    | gone hgone hlt =>
      refine .gone ?_ (Int.lt_of_lt_of_le hlt hle)
      intro hmem
      rw [ho, List.mem_append] at hmem
      rcases hmem with hmem | hmem
      · exact hgone hmem
      · exact absurd hlt (by rw [hnew x hmem]; exact Int.lt_irrefl _)
    | left hleft => exact absurd hy hleft

/-- Along a run without a poll of `y`, `y` stays before `x`. -/
theorem Waits.run {defaultFd : List (Option F)} {q q' : ProcessQueue S F}
    {l : List (Op S F × Option Pid)} (hi : TableInv q) (hx : x < q.nextFreePid)
    (hw : Waits x y q)
    (hrun : (polling defaultFd).Run (fun s a => y ∈ s.order ∧ NearBack s a.1) q l q') :
    (∃ a ∈ l, a.2 = some y) ∨ (TableInv q' ∧ Waits x y q') := by
  have hinv : ((∃ a ∈ l, a.2 = some y) ∨ Waits x y q') ∧ TableInv q' ∧ x < q'.nextFreePid := by
    refine hrun.invariant (P := fun l s => ((∃ a ∈ l, a.2 = some y) ∨ Waits x y s) ∧
      TableInv s ∧ x < s.nextFreePid) ?_ ⟨Or.inr hw, hi, hx⟩
    rintro l s a s' ⟨hp, hi, hx⟩ ⟨hy, hc⟩ hs
    have hi' := exec_inv defaultFd hi a.1
    rw [polling_scheduler hs] at hi'
    have hx' : x < s'.nextFreePid := by
      rcases polling_cases hi.nonempty hs with ⟨readNonblocking, iteration, r, -, hr⟩ |
        ⟨-, new, -, -, hle⟩
      · rwa [round_nextFreePid hr]
      · exact Int.lt_of_lt_of_le hx hle
    refine ⟨?_, hi', hx'⟩
    rcases hp with ⟨b, hb, hby⟩ | hw
    · exact Or.inl ⟨b, by simp [hb], hby⟩
    · rcases hw.step hi hx hy hc hs with ha | hw'
      · exact Or.inl ⟨a, by simp, ha⟩
      · exact Or.inr hw'
  exact hinv.1.imp id fun hw => ⟨hinv.2.1, hw⟩

theorem polls_front {defaultFd : List (Option F)} {q q' : ProcessQueue S F}
    {a : Op S F × Option Pid} (hi : TableInv q) (hs : (polling defaultFd).step q a q')
    (hax : a.2 = some x) : TableInv q' ∧ ∃ t, q'.order = x :: t := by
  have hi' := exec_inv defaultFd hi a.1
  rw [polling_scheduler hs] at hi'
  refine ⟨hi', ?_⟩
  rcases polling_cases hi.nonempty hs with ⟨readNonblocking, iteration, r, rfl, hr⟩ | ⟨hn, -⟩
  · obtain rfl := Option.some.inj hax
    exact (round_front hi hr).2
  · rw [hn] at hax
    simp at hax

/-- While `y` waits before `x`, `x` cannot be polled. -/
theorem Waits.not_polled {defaultFd : List (Option F)} {q q' : ProcessQueue S F}
    {b : Op S F × Option Pid} (hw : Waits x y q) (hi : TableInv q) (hyx : y ≠ x)
    (hs : (polling defaultFd).step q b q') (hbx : b.2 = some x) : y ∉ q.order := by
  rcases polling_cases hi.nonempty hs with ⟨readNonblocking, iteration, r, rfl, hr⟩ | ⟨hn, -⟩
  · obtain rfl := Option.some.inj hbx
    obtain ⟨rest, proc, hrot, -, -⟩ := ProcessQueue.round_cases hr
    obtain ⟨f, t, hq, hrt⟩ := frontToBack_eq_some hrot.order
    have hnd := hi.nodup
    have hperm := frontToBack_perm hrot.order
    cases hw with
    | front ho hmem =>
      rename_i t₀
      rw [ho, List.cons.injEq] at hq
      obtain ⟨rfl, rfl⟩ := hq
      rw [ho] at hnd
      cases t₀ with
      | nil => simp at hmem
      | cons c t' =>
        rw [List.cons_append, List.cons.injEq] at hrt
        exact absurd (by simp [hrt.1]) (List.nodup_cons.mp hnd).1
    | before hsub hhead =>
      rw [hq] at hsub hhead hnd
      rcases List.sublist_cons_iff.mp hsub with ht | ⟨l, he, -⟩
      · cases t with
        | nil => simp at ht
        | cons c t' =>
          rw [List.cons_append, List.cons.injEq] at hrt
          obtain ⟨hc, -⟩ := hrt
          subst hc
          rcases List.sublist_cons_iff.mp ht with ht' | ⟨l, he, -⟩
          · have hmem := ht'.subset (List.mem_cons_of_mem _ (List.mem_singleton_self _))
            exact absurd hmem (List.nodup_cons.mp (List.nodup_cons.mp hnd).2).1
          · rw [List.cons.injEq] at he
            exact absurd he.1 hyx
      · rw [List.cons.injEq] at he
        exact absurd (by simp [he.1]) hhead
    | gone hgone _ => exact absurd (hperm.mem_iff.mp (by simp)) hgone
    | left hleft => exact hleft
  · rw [hn] at hbx
    simp at hbx

end

theorem scheduler_step {q q' : ProcessQueue Unit Unit} (op : Op Unit Unit)
    (h : (scheduler []).Reachable q) (ha : op.Admissible q) (he : op.exec [] q = .ok q') :
    (scheduler []).Reachable q' :=
  h.step (a := op) ⟨ha, he⟩

theorem polling_round {q q' : ProcessQueue Unit Unit} {r : ProcessQueue.Round Unit}
    (iteration : List Pid) (h : (scheduler []).Reachable q)
    (ho : q.order = iteration)
    (he : q.runNextTaskRound (fun _ _ _ => none) iteration = .ok (r, q')) :
    (polling []).step q (.round (fun _ _ _ => none) iteration, some r.polled) q' :=
  ⟨ho ▸ enumerates_order h, _, he, rfl⟩

/-- **Round robin**, along runs whose steps `ok` admits: between two polls of `x`, every other
process that stays in the queue is polled. -/
def RoundRobin (defaultFd : List (Option F)) (ok : ProcessQueue S F → Op S F → Prop) : Prop :=
  ∀ q₀ q₁ q₂ q₃ a b l x y, (scheduler defaultFd).Reachable q₀ →
    (polling defaultFd).step q₀ a q₁ → a.2 = some x →
    (polling defaultFd).Run (fun s c => y ∈ s.order ∧ ok s c.1) q₁ l q₂ →
    (polling defaultFd).step q₂ b q₃ → b.2 = some x →
    y ≠ x → y ∈ q₁.order → y ∈ q₂.order → ∃ c ∈ l, c.2 = some y

/-- **The loop is round robin** as long as every zombie that may be taken out is at the back of
the queue or next to it. -/
theorem round_robin_of_near_back (defaultFd : List (Option F)) :
    RoundRobin (S := S) defaultFd NearBack := by
  intro q₀ q₁ q₂ q₃ a b l x y h₀ ha hax hrun hb hbx hyx hy₁ hy₂
  obtain ⟨hi₁, t, hfront⟩ := polls_front (reachable_inv h₀) ha hax
  have hw : Waits x y q₁ := by
    refine .front hfront ?_
    rw [hfront, List.mem_cons] at hy₁
    exact hy₁.resolve_left hyx
  rcases hw.run hi₁ (hi₁.below x (by simp [hfront])) hrun with h | ⟨hi₂, hw₂⟩
  · exact h
  · exact absurd hy₂ (hw₂.not_polled hi₂ hyx hb hbx)

/-- Process 1 reaps 2, the last but one of the queue, between two polls of 3. -/
theorem round_robin_of_near_back_reap : ∃ q₁ q₂ q₃ : ProcessQueue Unit Unit, ∃ a l,
    (polling []).Run (fun s c => 1 ∈ s.order ∧ NearBack s c.1) q₁ l q₂ ∧
    q₁.order = [3, 1, 2] ∧ q₂.order = [1, 3] ∧ (polling []).step q₂ (a, some 3) q₃ ∧
    ∃ c ∈ l, c.2 = some 1 := by
  have r0 : (scheduler (S := Unit) (F := Unit) []).Reachable _ := .init (init_started [] ⟨0, 0, ()⟩)
  have r1 := scheduler_step (.push ⟨0, 0, ()⟩) r0 trivial rfl
  have r2 := scheduler_step (.push ⟨0, 0, ()⟩) r1 trivial rfl
  have r3 := scheduler_step (.wait (-1) 0 0 8 ()) r2 trivial rfl
  have r4 := scheduler_step (.round (fun _ _ _ => none) [1, 2, 3]) r3 (enumerates_order r3) rfl
  have r5 := scheduler_step (.setCurrentAsZombie 7) r4 trivial rfl
  have r6 := scheduler_step (.round (fun _ _ _ => none) [2, 3, 1]) r5 (enumerates_order r5) rfl
  have r7 := scheduler_step (.round (fun _ _ _ => none) [3, 1, 2]) r6 (enumerates_order r6) rfl
  have p1 := polling_round [2, 3, 1] r5 rfl rfl
  have p2 := polling_round [3, 1, 2] r6 rfl rfl
  have p3 := polling_round [1, 3] r7 rfl rfl
  refine ⟨_, _, _, _, _, (Lts.Run.nil _).snoc ⟨by decide, ?near⟩ p2, rfl, rfl, p3,
    round_robin_of_near_back [] _ _ _ _ _ _ _ 3 1 r5 p1 rfl
      ((Lts.Run.nil _).snoc ⟨by decide, ?near⟩ p2) p3 rfl (by decide) (by decide) (by decide)⟩
  intro w rest proc _ _ _ hrot _ z child exitCode hz hppid ht
  obtain ⟨rfl, rfl⟩ := List.cons.inj (Option.some.inj hrot.order)
  have hmem : z ∈ [3, 1, 2] :=
    ((reachable_inv r6).keys z).mpr (Option.isSome_iff_exists.mpr ⟨child, hz⟩)
  have hzombie := ht.zombie
  simp only [List.mem_cons, List.not_mem_nil, or_false] at hmem
  rcases hmem with rfl | rfl | rfl
  · have hrunning : child.threads.waitingState = none := by
      obtain rfl := Option.some.inj hz
      rfl
    rw [hrunning] at hzombie
    simp at hzombie
  · have hparent := (reachable_inv r6).parent 1 child hz
    exact absurd hppid (Int.ne_of_lt hparent)
  · exact ⟨[1], Or.inr ⟨3, rfl⟩⟩

/-- **The loop is not round robin**: of the processes 1 to 4, process 1 reaps 2 after 4 was
polled; 4 takes the place of 2 in the queue and is polled again before 3. -/
theorem swap_remove_back_skips :
    ¬ RoundRobin (S := Unit) (F := Unit) [] fun _ _ => True := by
  intro hrr
  have r0 : (scheduler (S := Unit) (F := Unit) []).Reachable _ := .init (init_started [] ⟨0, 0, ()⟩)
  have r1 := scheduler_step (.push ⟨0, 0, ()⟩) r0 trivial rfl
  have r2 := scheduler_step (.push ⟨0, 0, ()⟩) r1 trivial rfl
  have r3 := scheduler_step (.push ⟨0, 0, ()⟩) r2 trivial rfl
  have r4 := scheduler_step (.wait (-1) 0 0 8 ()) r3 trivial rfl
  have r5 := scheduler_step (.round (fun _ _ _ => none) [1, 2, 3, 4]) r4 (enumerates_order r4) rfl
  have r6 := scheduler_step (.setCurrentAsZombie 7) r5 trivial rfl
  have r7 := scheduler_step (.round (fun _ _ _ => none) [2, 3, 4, 1]) r6 (enumerates_order r6) rfl
  have r8 := scheduler_step (.round (fun _ _ _ => none) [3, 4, 1, 2]) r7 (enumerates_order r7) rfl
  have r9 := scheduler_step (.round (fun _ _ _ => none) [4, 1, 2, 3]) r8 (enumerates_order r8) rfl
  have p1 := polling_round [3, 4, 1, 2] r7 rfl rfl
  have p2 := polling_round [4, 1, 2, 3] r8 rfl rfl
  have p3 := polling_round [1, 4, 3] r9 rfl rfl
  obtain ⟨c, hc, h3⟩ := hrr _ _ _ _ _ _ _ 4 3 r7 p1 rfl
    ((Lts.Run.nil _).snoc ⟨by decide, trivial⟩ p2) p3 rfl (by decide) (by decide) (by decide)
  rw [List.nil_append, List.mem_singleton] at hc
  subst hc
  exact absurd h3 (by decide)

end Stuos.Sched
