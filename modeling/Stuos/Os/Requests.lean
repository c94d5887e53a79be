import Stuos.Os.Steps

/-!
# The pages that processes have requested

* `Change.processes`: a property of one process, its requested pages and the lower half of its
  address space is kept by every step, if it is kept by the four things that can happen to a
  process: nothing, a page that is granted, being copied by `fork`, and `execve`.
* `run_mapped`: in every run the requested pages of a process are mapped in its own address
  space, at different addresses.
-/

namespace Stuos.Os

open Stuos.Lib Stuos.Memory Stuos.Sched

variable {S F : Type}

namespace System

variable {s s' : System S F}

/-- What can be said about a process: its root, its use of the limit and its requested pages. -/
abbrev ProcessProp := Machine → Nat → Nat → List (Nat × Nat) → Prop

/-- Every process has the property. -/
def Each (P : ProcessProp) (s : System S F) : Prop :=
  ∀ pid proc, s.queue.processes pid = some proc →
    P s.machine proc.pageTableRoot proc.memoryLimit.currentValue (s.requested pid)

/-- A property that a step keeps. -/
structure Kept (P : ProcessProp) : Prop where
  same : ∀ {m m' r u pages}, P m r u pages → (∀ p, Lower p → reach m' r p = reach m r p) →
    P m' r u pages
  grant : ∀ {m m' r u pages virt f}, P m r u pages → (pml4Index virt).val < 256 →
    reach m r (pathOf virt) = none →
    (∀ p g, Lower p → reach m r p = some g → reach m' r p = some g) →
    reach m' r (pathOf virt) = some f → P m' r (u + pageSize) ((virt, f) :: pages)
  fork : ∀ {m m' r new u pages}, P m r u pages →
    (∀ p f, Lower p → p.length = 4 → reach m r p = some f → ∃ g, reach m' new p = some g) →
    P m' new u (pages.map fun page => (page.1, (reach m' new (pathOf page.1)).getD 0))

theorem Inv.root_ne (h : s.Inv) {pid pid' : Pid} {proc proc' : Process S F}
    (hp : s.queue.processes pid = some proc) (hp' : s.queue.processes pid' = some proc')
    (hne : pid ≠ pid') : proc.pageTableRoot ≠ proc'.pageTableRoot := fun he =>
  hne (root_inj h.table h.accounted.nodup hp hp' he)

/-- **What every step does to every process.** -/
theorem Change.processes {P : ProcessProp} {event : Event S F} (hk : Kept P) (h : s.Inv)
    (hc : Change s event s') (hP : s.Each P)
    (hexec : ∀ image, event = .execve image → ∀ pid proc, s.queue.Front pid proc →
      ∀ m new, P m new proc.memoryLimit.currentValue []) : s'.Each P := by
  intro p x hx
  cases hc with
  | denied hf habove => exact hP p x hx
  | granted hf hwithin hlow hnone hacc ext hreach =>
    rcases lookup_set hx with ⟨rfl, rfl⟩ | ⟨hne, hx⟩
    · dsimp only
      rw [Function.update_self]
      have hold := hP _ _ hf.process
      exact hk.grant hold hlow hnone ext.kept hreach
    · dsimp only
      rw [Function.update_of_ne hne]
      exact hk.same (hP p x hx) (ext.others _ (h.root_mem hx) (h.root_ne hx hf.process hne))
  | limited hf =>
    rcases lookup_set hx with ⟨rfl, rfl⟩ | ⟨hne, hx⟩
    · have hold := hP _ _ hf.process
      exact hold
    · exact hP p x hx
  | forked hf hnone hfree hcl =>
    dsimp only at hx ⊢
    by_cases hp : p = s.queue.nextFreePid
    · subst hp
      rw [Function.update_self] at hx ⊢
      obtain rfl := Option.some.inj hx
      have hold := hP _ _ hf.process
      refine hk.fork hold fun q f hq hlen hf' => ?_
      obtain ⟨g, hg, -⟩ := hcl.copied (q, f) (mem_frameList.mpr ⟨hq, hf'⟩) hlen
      exact ⟨g, hg⟩
    · rw [Function.update_of_ne hp] at hx ⊢
      exact hk.same (hP p x hx) (hcl.others _ (h.root_mem hx))
  | replaced hf hl hd =>
    rcases lookup_set hx with ⟨rfl, rfl⟩ | ⟨hne, hx⟩
    · dsimp only
      rw [Function.update_self]
      exact hexec _ rfl _ _ hf _ _
    · dsimp only
      rw [Function.update_of_ne hne]
      refine hk.same (hP p x hx) fun q hq => ?_
      rw [hd.others _ (List.mem_cons_of_mem _ (h.root_mem hx)) (h.root_ne hx hf.process hne) q hq,
        hl.others _ (h.root_mem hx) q hq]
  | left hev hf hsame =>
    rcases lookup_set hx with ⟨rfl, rfl⟩ | ⟨hne, hx⟩
    · rw [hsame.root, hsame.usage]
      exact hP _ _ hf.process
    · exact hP p x hx
  | turned hrot hsame =>
    rcases lookup_set hx with ⟨rfl, rfl⟩ | ⟨hne, hx⟩
    · rw [hsame.root, hsame.usage]
      exact hk.same (hP _ _ hrot.process) fun _ _ => rfl
    · exact hk.same (hP p x hx) fun _ _ => rfl
  | reaped hrun hrot hsame hz hne ho hd =>
    rename_i readNonblocking iteration pid rest proc proc' z child order m
    dsimp only at hx ⊢
    have hpz : p ≠ z := by
      rintro rfl
      simp at hx
    rw [Function.update_of_ne hpz] at hx ⊢
    rcases lookup_set hx with ⟨rfl, rfl⟩ | ⟨hpp, hx⟩
    · rw [hsame.root, hsame.usage]
      exact hk.same (hP _ _ hrot.process)
        (hd.others _ (h.root_mem hrot.process) (h.root_ne hrot.process hz hpz))
    · exact hk.same (hP p x hx) (hd.others _ (h.root_mem hx) (h.root_ne hx hz hpz))
  | worked hw => exact hk.same (hP p x hx) (hw.reach _ (h.root_mem hx))

/-! ### Requested pages are mapped -/

/-- The pages are mapped at different addresses of the lower half. -/
structure Mapped (m : Machine) (r : Nat) (pages : List (Nat × Nat)) : Prop where
  lower : ∀ page ∈ pages, (pml4Index page.1).val < 256
  reach : ∀ page ∈ pages, reach m r (pathOf page.1) = some page.2
  nodup : (pages.map fun page => pathOf page.1).Nodup

theorem kept_mapped : Kept fun m r _ pages => Mapped m r pages where
  same h hreach :=
    ⟨h.lower, fun page hpage => (hreach _ (lower_pathOf (h.lower page hpage))).trans
      (h.reach page hpage), h.nodup⟩
  grant := by
    intro m m' r u pages virt f h hlow hnone hkept hf
    refine ⟨?_, ?_, ?_⟩
    · intro page hpage
      rcases List.mem_cons.mp hpage with rfl | hpage
      · exact hlow
      · exact h.lower page hpage
    · intro page hpage
      rcases List.mem_cons.mp hpage with rfl | hpage
      · exact hf
      · exact hkept _ _ (lower_pathOf (h.lower page hpage)) (h.reach page hpage)
    · rw [List.map_cons, List.nodup_cons]
      refine ⟨?_, h.nodup⟩
      rintro hmem
      obtain ⟨page, hpage, he⟩ := List.mem_map.mp hmem
      have hold := h.reach page hpage
      rw [he, hnone] at hold
      simp at hold
  fork := by
    intro m m' r new u pages h hcopied
    refine ⟨?_, ?_, ?_⟩
    · intro page' hpage'
      obtain ⟨page, hpage, rfl⟩ := List.mem_map.mp hpage'
      exact h.lower page hpage
    · intro page' hpage'
      obtain ⟨page, hpage, rfl⟩ := List.mem_map.mp hpage'
      obtain ⟨g, hg⟩ := hcopied _ _ (lower_pathOf (h.lower page hpage)) rfl (h.reach page hpage)
      rw [hg, Option.getD_some]
    · rw [List.map_map]
      exact h.nodup

/-- **The requested pages** of every process are mapped in its own address space. -/
theorem run_mapped {ok : System S F → Event S F → Prop}
    (hok : ∀ s event, ok s event → LowerRequest event) {s₀ : System S F}
    {events : List (Event S F)} (hrun : system.Run ok s₀ events s) (hinit : Init s₀) :
    s.Inv ∧ s.Each fun m r _ pages => Mapped m r pages := by
  refine hrun.invariant (P := fun _ s => s.Inv ∧ s.Each fun m r _ pages => Mapped m r pages) ?_
    ⟨hinit.inv, ?_⟩
  · rintro - s event s' ⟨h, hP⟩ hk ⟨ha, he⟩
    have hc := exec_change h ha (hok s event hk) he
    exact ⟨hc.inv h, hc.processes kept_mapped h hP fun _ _ _ _ _ _ _ => ⟨by simp, by simp, by simp⟩⟩
  · obtain ⟨defaultFd, -, -⟩ := hinit
    exact fun _ _ _ => ⟨by simp, by simp, by simp⟩

end System

end Stuos.Os
