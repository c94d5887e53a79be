import Mathlib.Data.List.Induction

/-!
# Writing over the front of a list

Items written over the front of a list, and lists written over it one after another, all at the same
place.

* `getElem?_foldl_overwrite`: the item at a place is that of the last list that reaches it.
* `flatten_prefix_iff`: the result starts with the lists one behind the other only if at most one of
  them has items, or if the items happen to be there.
-/

namespace Stuos.Lib

variable {α : Type}

/-- The list with the items of `b` over its front. -/
def overwrite (r b : List α) : List α := b ++ r.drop b.length

/-- The last list that is longer than `j`, or `r` if there is none. -/
def lastLonger (r : List α) (bs : List (List α)) (j : Nat) : List α :=
  (bs.reverse.find? fun b => j < b.length).getD r

/-- At most one of the lists has items. -/
def AtMostOne (bs : List (List α)) : Prop := (bs.filter fun b => !b.isEmpty).length ≤ 1

instance (bs : List (List α)) : Decidable (AtMostOne bs) := inferInstanceAs (Decidable (_ ≤ _))

theorem length_overwrite (r b : List α) : (overwrite r b).length = max r.length b.length := by
  rw [overwrite, List.length_append, List.length_drop]
  omega

theorem getElem?_overwrite (r b : List α) (j : Nat) :
    (overwrite r b)[j]? = if j < b.length then b[j]? else r[j]? := by
  rw [overwrite, List.getElem?_append, List.getElem?_drop]
  split
  · rfl
  · rw [Nat.add_sub_cancel' (by omega)]

/-- **The item at a place** is that of the last list that reaches it. -/
theorem getElem?_foldl_overwrite (r : List α) (bs : List (List α)) (j : Nat) :
    (bs.foldl overwrite r)[j]? = (lastLonger r bs j)[j]? := by
  induction bs using List.reverseRecOn with
  | nil => rfl
  | append_singleton bs b ih =>
    rw [List.foldl_append, List.foldl_cons, List.foldl_nil, getElem?_overwrite, lastLonger,
      List.reverse_append, List.reverse_singleton, List.singleton_append, List.find?_cons]
    by_cases hj : j < b.length
    · simp [hj]
    · rw [if_neg hj, ih]
      simp [hj, lastLonger]

theorem foldl_overwrite_filter (r : List α) (bs : List (List α)) :
    (bs.filter fun b => !b.isEmpty).foldl overwrite r = bs.foldl overwrite r := by
  induction bs generalizing r with
  | nil => rfl
  | cons b bs ih =>
    cases b with
    | nil => exact ih r
    | cons a b => exact ih _

theorem length_le_foldl_overwrite {r : List α} {bs : List (List α)} {b : List α} (hb : b ∈ bs) :
    b.length ≤ (bs.foldl overwrite r).length := by
  induction bs using List.reverseRecOn with
  | nil => exact absurd hb List.not_mem_nil
  | append_singleton bs c ih =>
    rw [List.foldl_append, List.foldl_cons, List.foldl_nil, length_overwrite]
    rw [List.mem_append, List.mem_singleton] at hb
    rcases hb with hb | rfl
    · exact Nat.le_trans (ih hb) (Nat.le_max_left _ _)
    · exact Nat.le_max_right _ _

theorem length_le_flatten {bs : List (List α)} {b : List α} (hb : b ∈ bs) :
    b.length ≤ bs.flatten.length := by
  obtain ⟨front, back, rfl⟩ := List.append_of_mem hb
  rw [List.flatten_append, List.flatten_cons, List.length_append, List.length_append]
  omega

theorem length_lt_flatten {bs : List (List α)} (h : ¬ AtMostOne bs) :
    ∀ b ∈ bs, b.length < bs.flatten.length := by
  intro b hb
  obtain ⟨front, back, rfl⟩ := List.append_of_mem hb
  by_contra hge
  rw [List.flatten_append, List.flatten_cons, List.length_append, List.length_append] at hge
  have hnil : ∀ l : List (List α), l.flatten.length = 0 → (l.filter fun b => !b.isEmpty) = [] := by
    intro l hl
    rw [List.filter_eq_nil_iff]
    intro x hx
    have hx0 := List.flatten_eq_nil_iff.mp (List.length_eq_zero_iff.mp hl) x hx
    simp [hx0]
  refine h ?_
  rw [AtMostOne, List.filter_append, List.filter_cons, hnil front (by omega), hnil back (by omega)]
  split <;> simp

/-- **When the result starts with the lists one behind the other.** -/
theorem flatten_prefix_iff (r : List α) (bs : List (List α)) :
    bs.flatten <+: bs.foldl overwrite r ↔ AtMostOne bs ∨ bs.flatten.length ≤ r.length ∧
      ∀ j < bs.flatten.length, bs.flatten[j]? = (lastLonger r bs j)[j]? := by
  have hitems : bs.flatten <+: bs.foldl overwrite r ↔
      ∀ j < bs.flatten.length, bs.flatten[j]? = (lastLonger r bs j)[j]? := by
    rw [List.prefix_iff_getElem?]
    refine forall_congr' fun j => forall_congr' fun hj => ?_
    rw [getElem?_foldl_overwrite, List.getElem?_eq_getElem hj, eq_comm]
  constructor
  · intro h
    by_cases hone : AtMostOne bs
    · exact .inl hone
    · refine .inr ⟨?_, hitems.mp h⟩
      have hshort := length_lt_flatten hone
      -- no list reaches the last place
      by_contra hlt
      have hlast := hitems.mp h (bs.flatten.length - 1) (by omega)
      have hnone : bs.reverse.find? (fun b => bs.flatten.length - 1 < b.length) = none := by
        rw [List.find?_eq_none]
        intro b hb
        have hbs := hshort b (List.mem_reverse.mp hb)
        rw [decide_eq_true_eq]
        omega
      rw [lastLonger, hnone, Option.getD_none, List.getElem?_eq_getElem (by omega),
        List.getElem?_eq_none (by omega)] at hlast
      cases hlast
  · rintro (hone | ⟨-, h⟩)
    · rw [← foldl_overwrite_filter, ← List.flatten_filter_not_isEmpty]
      unfold AtMostOne at hone
      generalize bs.filter (fun b => !b.isEmpty) = full at hone ⊢
      cases full with
      | nil => exact List.nil_prefix
      | cons b full =>
        obtain rfl : full = [] := by simpa using hone
        simp [overwrite]
    · exact hitems.mpr h

end Stuos.Lib
