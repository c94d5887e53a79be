import Stuos.Memory.Mapping

/-!
# Clean page tables

A new address space gets a copy of the page table of the boot, and its lower half is to be empty.
The loop that checks this does not use its counter.

* `generate_ok`: what has been checked when `generate_clean_virtual_addressing` returns.
* `walk_of_clean`: a walk over an empty lower half calls back for the root alone.
* `generate_clean_iff`: **the new table is clean exactly if the entries from the second on were**.
-/

namespace Stuos.Memory

open Stuos.Lib

variable {m m' : Machine} {root : Nat}

/-- No entry of the lower half is present. -/
def CleanLowerHalf (m : Machine) (root : Nat) : Prop :=
  ∀ i : Fin 512, i.val < 256 → (m.frames root i).present = false

/-- **The new table is a copy**, and its first entry has been looked at. -/
theorem generate_ok (h : generateCleanVirtualAddressing m = .ok (root, m')) :
    m'.frames root = m.frames m.originalKernelPageTable ∧
      (m.frames m.originalKernelPageTable 0).present = false := by
  rw [generateCleanVirtualAddressing, bind_eq_ok] at h
  obtain ⟨⟨f, m1⟩, hmalloc, h⟩ := h
  obtain ⟨hframes, horig⟩ : m1.frames = m.frames ∧
      m1.originalKernelPageTable = m.originalKernelPageTable := by
    rcases malloc4kPhys_cases m with ⟨g, -, -, he⟩ | ⟨he, -⟩
    · rw [he, Except.ok.injEq, Prod.mk.injEq] at hmalloc
      obtain ⟨-, rfl⟩ := hmalloc
      exact ⟨rfl, rfl⟩
    · rw [he] at hmalloc
      cases hmalloc
  dsimp only at h
  rw [bind_eq_ok] at h
  obtain ⟨_, hloop, hok⟩ := h
  rw [Except.ok.injEq, Prod.mk.injEq] at hok
  obtain ⟨rfl, rfl⟩ := hok
  have hzero := ensure_eq_ok.mp hloop 0 (by decide)
  rw [Machine.entry, setFrame_same, hframes, horig] at hzero
  exact ⟨by rw [setFrame_same, hframes, horig], hzero⟩

/-- **A walk over an empty lower half** calls back for the root alone. -/
theorem walk_of_clean (h : CleanLowerHalf m root) (cb : Callbacks) :
    walkVirtualTree cb m root = cb.table m root := by
  have hskip : lowerIndices.foldlM (fun m n =>
      if (m.entry ⟨root, n⟩).present then do
        let m ← walkChildren cb 2 ⟨root, n⟩ (n.val * 2 ^ 39) m
        cb.table m (m.entry ⟨root, n⟩).addr.toNat
      else .ok m) m = .ok m := by
    apply foldlM_eq_self
    intro n hn
    have hlower : n.val < 256 := by simpa [lowerIndices] using hn
    rw [Machine.entry, if_neg (by rw [h n hlower]; exact Bool.false_ne_true)]
  rw [walkVirtualTree, hskip, ok_bind]

/-- **When a new address space is clean.** -/
theorem generate_clean_iff (h : generateCleanVirtualAddressing m = .ok (root, m')) :
    (CleanLowerHalf m' root ∧ ∀ cb, walkVirtualTree cb m' root = cb.table m' root) ↔
      ∀ i : Fin 512, 0 < i.val → i.val < 256 →
        (m.frames m.originalKernelPageTable i).present = false := by
  obtain ⟨hcopy, hzero⟩ := generate_ok h
  constructor
  · rintro ⟨hclean, -⟩ i - hi
    rw [← hcopy]
    exact hclean i hi
  · intro hrest
    have hclean : CleanLowerHalf m' root := by
      intro i hi
      rw [hcopy]
      by_cases hi0 : i = 0
      · rw [hi0]
        exact hzero
      · exact hrest i (Nat.pos_of_ne_zero fun h0 => hi0 (Fin.ext h0)) hi
    exact ⟨hclean, walk_of_clean hclean⟩

/-- The page table of the boot has a stray entry. -/
def strayEntry : Machine where
  frames := fun _ i => if i.val = 5 then .ofWord 1 else .ofWord 0
  slabFlags := fun _ => false
  base := 16
  pages := 16
  cr3 := 0
  originalKernelPageTable := 0
  freeLog := []

/-- Without it. -/
theorem generate_clean_iff_noEntry :
    ∃ m', generateCleanVirtualAddressing { strayEntry with frames := fun _ _ => .ofWord 0 } =
        .ok (16, m') ∧
      CleanLowerHalf m' 16 ∧ ∀ cb, walkVirtualTree cb m' 16 = cb.table m' 16 := by
  have hok := @generate_eq { strayEntry with frames := fun _ _ => .ofWord 0 } 16 _ rfl rfl
  exact ⟨_, hok, (generate_clean_iff hok).mpr fun _ _ _ => rfl⟩

theorem generate_strayEntry :
    ∃ m', generateCleanVirtualAddressing strayEntry = .ok (16, m') ∧ ¬ CleanLowerHalf m' 16 := by
  refine ⟨_, generate_eq rfl rfl, fun hclean => ?_⟩
  have hfive := hclean 5 (by decide)
  rw [setFrame_same] at hfive
  cases hfive

end Stuos.Memory
