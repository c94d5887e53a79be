import Mathlib.Order.Bounds.Basic
import Stuos.Elf.Tracker

/-!
# Gaps between ranges

When the list of regions has room for a range, in terms of the ranges that are allocated.  A range
that is not empty has to be clear of all of them; an empty one may also lie where one of them starts,
but not where it ends, since the search meets the allocated region first.

* `splitRegion_isOk_iff`: the ranges that `allocate_virtual_range` accepts.
* `find_gap`: `find_contiguous_virtual_range` finds the first gap.
-/

namespace Stuos.Elf

open Stuos.Lib Stuos.Memory

/-- `[s, e)` is accepted when the range `r` is allocated. -/
def Clear (r : Nat × Nat) (s e : Nat) : Prop := e ≤ r.1 ∨ r.2 ≤ s ∧ r.2 < e

instance (r : Nat × Nat) (s e : Nat) : Decidable (Clear r s e) :=
  inferInstanceAs (Decidable (_ ∨ _))

/-- There is a gap of `n` bytes from `a` on. -/
def Gap (ranges : Set (Nat × Nat)) (n a : Nat) : Prop :=
  pageSize ≤ a ∧ a + n ≤ 0x00007FFFFFFFFFFF ∧ ∀ r ∈ ranges, Clear r a (a + n)

/-- There are gaps for blocks of these sizes, each put into the first one that is large enough. -/
def Room (ranges : Set (Nat × Nat)) : List Nat → Prop
  | [] => True
  | n :: sizes => ∃ a, IsLeast {a | Gap ranges n a} a ∧ Room (insert (a, a + n) ranges) sizes

/-- The allocated ranges of a list of regions. -/
def rangesOf (regions : List VirtualMemoryRegion) : Set (Nat × Nat) :=
  {r | r ∈ allocatedRanges regions}

variable {hi lo s e n a : Nat} {regions regions' rest : List VirtualMemoryRegion}

theorem Room.of_isLeast {ranges : Set (Nat × Nat)} {sizes : List Nat}
    (h : Room ranges (n :: sizes)) (ha : IsLeast {a | Gap ranges n a} a) :
    Room (insert (a, a + n) ranges) sizes := by
  obtain ⟨a', ha', hroom⟩ := h
  obtain rfl := ha.unique ha'
  exact hroom

theorem not_room {ranges : Set (Nat × Nat)} {sizes : List Nat} (h : ∀ a, ¬ Gap ranges n a) :
    ¬ Room ranges (n :: sizes) := by
  rintro ⟨a, ha, -⟩
  exact h a ha.1

@[simp] theorem allocatedRanges_pair (rest : List VirtualMemoryRegion) :
    allocatedRanges (⟨true, lo, s⟩ :: ⟨false, s, e⟩ :: rest) = (s, e) :: allocatedRanges rest := rfl

@[simp] theorem allocatedRanges_free (hi : Nat) : allocatedRanges [⟨true, lo, hi⟩] = [] := rfl

theorem rangesOf_initialRegions : rangesOf initialRegions = ∅ := by
  ext r
  simp [rangesOf, initialRegions]

theorem rangesOf_split (hok : splitRegion regions s e = .ok regions') :
    rangesOf regions' = insert (s, e) (rangesOf regions) := by
  ext r
  exact (splitRegion_allocatedRanges hok).mem_iff.trans List.mem_cons

theorem Laid.range_bounds (h : Laid hi lo regions) {r : Nat × Nat}
    (hr : r ∈ allocatedRanges regions) : lo ≤ r.1 ∧ r.1 ≤ r.2 ∧ r.2 ≤ hi := by
  induction h with
  | last _ _ => simp at hr
  | @cons lo s e rest _ h1 h2 hrest ih =>
    have hle := hrest.le
    rw [allocatedRanges_pair, List.mem_cons] at hr
    rcases hr with rfl | hr
    · exact ⟨h1, h2, hle⟩
    · have := ih hr
      omega

theorem Laid.allocated_lt (h : Laid hi lo regions) (ha : Allocated regions a) :
    a < hi / pageSize * pageSize := by
  induction h with
  | last _ _ => simp at ha
  | @cons lo s e rest _ h1 h2 hrest ih =>
    rw [allocated_free, allocated_taken] at ha
    rcases ha with ha | ha
    · have hle := hrest.le
      obtain ⟨k, hk⟩ := hrest.dvd
      unfold pageSize at hk ⊢
      omega
    · exact ih ha

/-- **The ranges that are accepted.** -/
theorem splitRegion_isOk_iff (h : Laid hi lo regions) (hse : s ≤ e) :
    (∃ regions', splitRegion regions s e = .ok regions') ↔
      lo ≤ s ∧ e ≤ hi ∧ ∀ r ∈ allocatedRanges regions, Clear r s e := by
  induction h with
  | @last lo _ hle =>
    by_cases hin : lo ≤ s ∧ e ≤ hi
    · rw [splitRegion, if_pos hin]
      exact iff_of_true ⟨_, rfl⟩ ⟨hin.1, hin.2, by simp⟩
    · rw [splitRegion, if_neg hin]
      refine iff_of_false ?_ fun hall => hin ⟨hall.1, hall.2.1⟩
      rintro ⟨regions', hok⟩
      cases hok
  | @cons lo s₀ e₀ rest hd h1 h2 hrest ih =>
    have hle := hrest.le
    rw [allocatedRanges_pair, List.forall_mem_cons]
    by_cases hfirst : lo ≤ s ∧ e ≤ s₀
    · -- in front of all ranges
      rw [splitRegion, if_pos hfirst]
      refine iff_of_true ⟨_, rfl⟩ ⟨hfirst.1, by omega, Or.inl hfirst.2, fun r hr => Or.inl ?_⟩
      have := (hrest.range_bounds hr).1
      omega
    · rw [splitRegion_pair hrest hfirst]
      by_cases hsecond : s₀ ≤ s ∧ e ≤ e₀
      · rw [if_pos hsecond]
        refine iff_of_false ?_ ?_
        · rintro ⟨regions', hok⟩
          cases hok
        · rintro ⟨hlo, -, hclear | hclear, -⟩ <;> omega
      · rw [if_neg hsecond]
        have hmap : (∃ regions', (splitRegion rest s e).map (fun regions =>
            (⟨true, lo, s₀⟩ :: ⟨false, s₀, e₀⟩ :: regions : List VirtualMemoryRegion)) =
              .ok regions') ↔ ∃ regions', splitRegion rest s e = .ok regions' := by
          constructor
          · rintro ⟨_, hok⟩
            obtain ⟨regions', hok, -⟩ := map_eq_ok.mp hok
            exact ⟨regions', hok⟩
          · rintro ⟨regions', hok⟩
            exact ⟨_, map_eq_ok.mpr ⟨regions', hok, rfl⟩⟩
        rw [hmap, ih]
        constructor
        · rintro ⟨hlo, hhi, hall⟩
          exact ⟨by omega, hhi, Or.inr ⟨hlo, by omega⟩, hall⟩
        · rintro ⟨hlo, hhi, hclear, hall⟩
          refine ⟨?_, hhi, hall⟩
          rcases hclear with hclear | hclear
          · exact absurd ⟨hlo, hclear⟩ hfirst
          · exact hclear.1

theorem freeRange_of_split (hok : splitRegion regions s e = .ok regions') :
    FreeRange regions s e := by
  induction regions generalizing regions' with
  | nil => cases hok
  | cons curr rest ih =>
    rw [splitRegion.eq_def] at hok
    dsimp only at hok
    split at hok
    · rename_i hin
      simp only [bind_eq_ok, ensure_eq_ok] at hok
      obtain ⟨_, hfree, -⟩ := hok
      exact ⟨curr, List.mem_cons_self, hfree, hin⟩
    · cases rest with
      | nil => cases hok
      | cons next rest =>
        simp only [bind_eq_ok] at hok
        obtain ⟨_, -, regions₁, hok, -⟩ := hok
        obtain ⟨r, hr, hrange⟩ := ih hok
        exact ⟨r, List.mem_cons_of_mem _ hr, hrange⟩

theorem splitRegion_error {halt : Halt} (hne : regions ≠ [])
    (herr : splitRegion regions s e = .error halt) : halt = .hcf := by
  induction regions with
  | nil => exact absurd rfl hne
  | cons curr rest ih =>
    rw [splitRegion.eq_def] at herr
    dsimp only at herr
    split at herr
    · rw [bind_eq_error] at herr
      rcases herr with herr | ⟨_, -, herr⟩
      · exact (ensure_eq_error.mp herr).2.symm
      · cases herr
    · cases rest with
      | nil => exact (Except.error.inj herr).symm
      | cons next rest =>
        simp only [bind_eq_error] at herr
        rcases herr with herr | ⟨_, -, herr | ⟨_, -, herr⟩⟩
        · exact (ensure_eq_error.mp herr).2.symm
        · exact ih (by simp) herr
        · cases herr

/-- **The search finds the first gap**, or none. -/
theorem find_gap (h : Laid 0x00007FFFFFFFFFFF pageSize regions) (hn : 0 < n) :
    ∃ a, findContiguousVirtualRange regions n = .ok (a, regions) ∧
      (IsLeast {a | Gap (rangesOf regions) n a} a ∨
        (a = 0 ∧ ∀ x, ¬ Gap (rangesOf regions) n x)) := by
  have hgap : ∀ x, Gap (rangesOf regions) n x ↔ FreeRange regions x (x + n) := fun x => by
    have hiff := splitRegion_isOk_iff h (Nat.le_add_right x n)
    constructor
    · intro hx
      obtain ⟨regions', hok⟩ := hiff.mpr hx
      exact freeRange_of_split hok
    · intro hx
      exact hiff.mp (splitRegion_total h (by omega) hx)
  obtain ⟨a, hok, hspec⟩ := findContiguousVirtualRange_spec h n
  refine ⟨a, hok, ?_⟩
  rcases hspec with ⟨r, hr, hfree, rfl, hroom, hfirst⟩ | ⟨h0, hnone⟩
  · refine Or.inl ⟨(hgap _).mpr ⟨r, hr, hfree, le_refl _, hroom⟩, fun x hx => ?_⟩
    obtain ⟨r', hr', hfree', hstart, hend⟩ := (hgap x).mp hx
    exact (hfirst r' hr' hfree' (by omega)).trans hstart
  · refine Or.inr ⟨h0, fun x hx => ?_⟩
    obtain ⟨r, hr, hfree, hstart, hend⟩ := (hgap x).mp hx
    have := hnone r hr hfree
    omega

end Stuos.Elf
