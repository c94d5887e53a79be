import Mathlib.Algebra.Order.Ring.Int
import Mathlib.Order.Basic
import Mathlib.Data.List.Induction

/-!
# The last element with the largest key

`maxByKey key l` goes through `l` once and keeps the element with the largest key
so far; among equal keys the later one wins, as `Iterator::max_by_key` documents.

* `maxByKey_eq_some_iff`: the result is the element whose key is at least every key
  before it and above every key after it.
* `maxByKey_concat_eq_some`: the last element loses only to a strictly larger key.
-/

namespace Stuos.Lib

variable {α κ : Type*} [LinearOrder κ]

/-- The element with the largest key, the last one among equals. -/
def maxByKey (key : α → κ) : List α → Option α
  | [] => none
  | a :: l => some (l.foldl (fun best y => if key y < key best then best else y) a)

@[simp] theorem maxByKey_nil (key : α → κ) : maxByKey key [] = none := rfl

theorem maxByKey_eq_none {key : α → κ} {l : List α} : maxByKey key l = none ↔ l = [] := by
  cases l <;> simp [maxByKey]

theorem maxByKey_concat (key : α → κ) (l : List α) (a : α) :
    maxByKey key (l ++ [a]) =
      match maxByKey key l with
      | none => some a
      | some b => some (if key a < key b then b else a) := by
  cases l with
  | nil => rfl
  | cons b l => simp [maxByKey, List.foldl_append]

/-- **What `maxByKey` selects**: no key before it is larger, every key after it is
smaller. -/
theorem maxByKey_eq_some_iff (key : α → κ) (l : List α) (m : α) :
    maxByKey key l = some m ↔
      ∃ l₁ l₂, l = l₁ ++ m :: l₂ ∧ (∀ x ∈ l₁, key x ≤ key m) ∧ ∀ x ∈ l₂, key x < key m := by
  induction l using List.reverseRecOn generalizing m with
  | nil => simp
  | append_singleton l a ih =>
    rw [maxByKey_concat]
    constructor
    · intro h
      cases hb : maxByKey key l with
      | none =>
        rw [hb] at h
        obtain rfl : l = [] := maxByKey_eq_none.mp hb
        obtain rfl : a = m := by simpa using h
        exact ⟨[], [], by simp, by simp, by simp⟩
      | some b =>
        rw [hb] at h
        obtain ⟨l₁, l₂, hl, h₁, h₂⟩ := (ih b).mp hb
        simp only [Option.some.injEq] at h
        by_cases hab : key a < key b
        · rw [if_pos hab] at h
          subst h
          refine ⟨l₁, l₂ ++ [a], by simp [hl], h₁, ?_⟩
          intro x hx
          rcases List.mem_append.mp hx with hx | hx
          · exact h₂ x hx
          · rw [List.mem_singleton] at hx
            exact hx ▸ hab
        · rw [if_neg hab] at h
          subst h
          refine ⟨l, [], by simp, ?_, by simp⟩
          intro x hx
          have hba : key b ≤ key a := not_lt.mp hab
          rw [hl, List.mem_append, List.mem_cons] at hx
          rcases hx with hx | rfl | hx
          · exact (h₁ x hx).trans hba
          · exact hba
          · exact (h₂ x hx).le.trans hba
    · rintro ⟨l₁, l₂, hl, h₁, h₂⟩
      rcases List.eq_nil_or_concat l₂ with rfl | ⟨l₂', x, rfl⟩
      · obtain ⟨rfl, rfl⟩ : l = l₁ ∧ a = m := by
          have := List.append_inj' hl rfl
          simpa using this
        cases hb : maxByKey key l with
        | none => rfl
        | some b =>
          obtain ⟨k₁, k₂, hk, -, -⟩ := (ih b).mp hb
          have hle : key b ≤ key a := h₁ b (by simp [hk])
          simp [not_lt.mpr hle]
      · have hl' : l ++ [a] = (l₁ ++ m :: l₂') ++ [x] := by simpa using hl
        obtain ⟨hl₁, hx⟩ := List.append_inj' hl' rfl
        obtain rfl : a = x := by simpa using hx
        have hm : maxByKey key l = some m :=
          (ih m).mpr ⟨l₁, l₂', hl₁, h₁, fun y hy => h₂ y (by simp [hy])⟩
        simp [hm, h₂ a (by simp)]

theorem mem_of_maxByKey {key : α → κ} {l : List α} {m : α} (h : maxByKey key l = some m) :
    m ∈ l := by
  obtain ⟨l₁, l₂, rfl, -, -⟩ := (maxByKey_eq_some_iff key l m).mp h
  simp

/-- The last element is selected unless some key is strictly larger. -/
theorem maxByKey_concat_eq_some {key : α → κ} {l : List α} {a m : α}
    (h : maxByKey key (l ++ [a]) = some m) : m = a ∨ key a < key m := by
  rw [maxByKey_concat] at h
  cases hb : maxByKey key l with
  | none =>
    rw [hb] at h
    exact Or.inl (by simpa using h.symm)
  | some b =>
    rw [hb] at h
    simp only [Option.some.injEq] at h
    by_cases hab : key a < key b
    · rw [if_pos hab] at h
      exact Or.inr (h ▸ hab)
    · rw [if_neg hab] at h
      exact Or.inl h.symm

theorem key_le_of_maxByKey {key : α → κ} {l : List α} {m : α} (h : maxByKey key l = some m)
    {x : α} (hx : x ∈ l) : key x ≤ key m := by
  obtain ⟨l₁, l₂, rfl, h₁, h₂⟩ := (maxByKey_eq_some_iff key l m).mp h
  rw [List.mem_append, List.mem_cons] at hx
  rcases hx with hx | rfl | hx
  · exact h₁ x hx
  · exact le_rfl
  · exact (h₂ x hx).le

theorem maxByKey_of_forall_lt {key : α → κ} {l : List α} {m : α} (hm : m ∈ l)
    (h : ∀ x ∈ l, x ≠ m → key x < key m) : maxByKey key l = some m := by
  rcases hb : maxByKey key l with - | b
  · rw [maxByKey_eq_none.mp hb] at hm
    simp at hm
  · by_contra hne
    have hbm : b ≠ m := fun e => hne (by rw [e])
    exact absurd (h b (mem_of_maxByKey hb) hbm) (not_lt.mpr (key_le_of_maxByKey hb hm))

end Stuos.Lib
