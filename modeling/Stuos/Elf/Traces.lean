import Stuos.Elf.Loader
import Stuos.Elf.Segments

/-!
# The record and the machine

The loop over the program headers stands in `Segments` with a record of its stores, for any header,
and in `Loader` on the machine.  Where the machine gets through, the record does as well, with the
same regions, as soon as there are enough pages (`loadSegments_agrees`).
-/

namespace Stuos.Elf

open Stuos.Lib Stuos.Memory

variable {exe : Exe} {header : ElfFile} {h : ElfProgramHeader} {l l' : Loader} {t : Tracker}
  {s e : Nat}

/-- The pages that a program header needs. -/
def ElfProgramHeader.pagesNeeded (h : ElfProgramHeader) : Nat :=
  if h.kind = .ignored then 0 else (pageRange h.pageAllocStart h.pageAllocEnd).length

theorem allocateVirtualRange_agrees {canExecute : Bool}
    (hok : l.allocateVirtualRange s e canExecute = .ok l') (ht : t.regions = l.regions)
    (hram : (pageRange s e).length ≤ t.ram) :
    (allocateVirtualRange t s e).2 = .ok ⟨l'.regions, t.ram - (pageRange s e).length⟩ := by
  simp only [Loader.allocateVirtualRange, bind_eq_ok, ensure_eq_ok, Except.ok.injEq] at hok
  obtain ⟨_, halign, regions, hsplit, m, -, rfl⟩ := hok
  have haligned : ¬ (s % pageSize ≠ 0 ∨ e % pageSize ≠ 0) := by
    rintro (hne | hne)
    · exact hne halign.1
    · exact hne halign.2
  rw [allocateVirtualRange, if_neg haligned, ht, hsplit]
  dsimp only
  rw [if_pos hram]

theorem loadSegment_agrees (hok : l.loadSegment exe h = .ok l') (ht : t.regions = l.regions)
    (hram : (pageRange h.pageAllocStart h.pageAllocEnd).length ≤ t.ram) :
    (loadSegment exe t h).2 =
      .ok ⟨l'.regions, t.ram - (pageRange h.pageAllocStart h.pageAllocEnd).length⟩ := by
  simp only [Loader.loadSegment, bind_eq_ok, ensure_eq_ok, Except.ok.injEq] at hok
  obtain ⟨l₁, hal, m₁, -, _, hret, m₂, -, rfl⟩ := hok
  have hagree := allocateVirtualRange_agrees hal ht hram
  simp only [loadSegment, hagree, if_pos hret]

/-- **One turn** of the loop. -/
theorem Run.step_agrees {run : Run} (hok : l.step exe header h = .ok l')
    (hrun : run.tracker = .ok t) (ht : t.regions = l.regions) (hram : h.pagesNeeded ≤ t.ram) :
    (run.step exe header h).tracker = .ok ⟨l'.regions, t.ram - h.pagesNeeded⟩ := by
  unfold ElfProgramHeader.pagesNeeded at hram ⊢
  cases hk : h.kind with
  | programHeaders =>
    simp only [Loader.step, hk, bind_eq_ok, ensure_eq_ok] at hok
    obtain ⟨_, hd, hok⟩ := hok
    rw [hk, if_neg (by decide)] at hram
    rw [if_neg (by decide), Run.step_load hrun (Or.inr hk) fun _ => hd]
    exact loadSegment_agrees hok ht hram
  | load =>
    simp only [Loader.step, hk] at hok
    rw [hk, if_neg (by decide)] at hram
    rw [if_neg (by decide), Run.step_load hrun (Or.inl hk) fun hk' => by simp [hk] at hk']
    exact loadSegment_agrees hok ht hram
  | ignored =>
    simp only [Loader.step, hk, Except.ok.injEq] at hok
    subst hok
    have hstep : run.step exe header h = run := by simp only [Run.step, hrun, hk]
    rw [hstep, if_pos rfl, Nat.sub_zero, ← ht]
    exact hrun
  | interpreter => simp [Loader.step, hk] at hok
  | unknown => simp [Loader.step, hk] at hok

/-- **The loop on the machine is the loop of the record**, as soon as there are enough pages. -/
theorem loadSegments_agrees {headers : List ElfProgramHeader} {run : Run}
    (hok : headers.foldlM (Loader.step exe header) l = .ok l') (hrun : run.tracker = .ok t)
    (ht : t.regions = l.regions) (hram : (headers.map ElfProgramHeader.pagesNeeded).sum ≤ t.ram) :
    ∃ t', (headers.foldl (Run.step exe header) run).tracker = .ok t' ∧
      t'.regions = l'.regions := by
  induction headers generalizing l run t with
  | nil =>
    obtain rfl := Except.ok.inj hok
    exact ⟨t, hrun, ht⟩
  | cons h headers ih =>
    rw [List.map_cons, List.sum_cons] at hram
    rw [List.foldlM_cons, bind_eq_ok] at hok
    obtain ⟨l₁, h1, h2⟩ := hok
    have hstep := Run.step_agrees h1 hrun ht (by omega)
    exact ih h2 hstep rfl (by dsimp only; omega)

/-- **A program that the machine loads** has a record, with the same regions at its end. -/
theorem loadSegments_of_loader {headers : List ElfProgramHeader} {m : Machine}
    (hok : headers.foldlM (Loader.step exe header) ⟨m, initialRegions⟩ = .ok l') :
    ∃ ram t, (loadSegments exe header ram headers).tracker = .ok t ∧ t.regions = l'.regions := by
  obtain ⟨t, hrun, hregions⟩ :
      ∃ t, (loadSegments exe header (headers.map ElfProgramHeader.pagesNeeded).sum
        headers).tracker = .ok t ∧ t.regions = l'.regions :=
    loadSegments_agrees hok rfl rfl (le_refl _)
  exact ⟨_, t, hrun, hregions⟩

end Stuos.Elf
