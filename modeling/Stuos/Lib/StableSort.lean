import Mathlib.Data.List.Basic
import Mathlib.Data.List.Perm.Basic
import Mathlib.Order.Basic

/-!
# Stable sorting

`StableSort le s l l'` says that `l'` is `l`, sorted stably: the same elements in an order that
`le` agrees with, and those that `le` does not tell apart in the order they had.  `le` need be a
total preorder on the elements `s` only (`PreorderOn`).

`StableSort.insert` is the step of an insertion sort: the next element goes behind the last one
that is not greater.
-/

namespace Stuos.Lib

variable {α : Type*}

/-- `le` is a total preorder on `s`. -/
structure PreorderOn (le : α → α → Prop) (s : List α) : Prop where
  total : ∀ a ∈ s, ∀ b ∈ s, le a b ∨ le b a
  trans : ∀ a ∈ s, ∀ b ∈ s, ∀ c ∈ s, le a b → le b c → le a c

/-- `le` does not tell `a` and `b` apart. -/
def Alike (le : α → α → Prop) (a b : α) : Prop := le a b ∧ le b a

instance (le : α → α → Prop) [DecidableRel le] (a b : α) : Decidable (Alike le a b) :=
  inferInstanceAs (Decidable (_ ∧ _))

variable {le : α → α → Prop} [DecidableRel le]

/-- `l'` is `l`, sorted stably. -/
structure StableSort (le : α → α → Prop) [DecidableRel le] (s l l' : List α) : Prop where
  perm : l'.Perm l
  sorted : l'.Pairwise le
  stable : ∀ a ∈ s, l'.filter (Alike le a ·) = l.filter (Alike le a ·)

theorem stableSort_singleton (s : List α) (a : α) : StableSort le s [a] [a] :=
  ⟨List.Perm.refl _, List.pairwise_singleton _ _, fun _ _ => rfl⟩

variable {s l front back : List α} {x : α}

/-- **One more element**, put behind the last that is not greater. -/
theorem StableSort.insert (hs : PreorderOn le s) (hl : ∀ a ∈ l, a ∈ s) (hx : x ∈ s)
    (h : StableSort le s l (front ++ back)) (hback : ∀ a ∈ back, ¬ le a x)
    (hfront : ∀ a ∈ front.getLast?, le a x) : StableSort le s (l ++ [x]) (front ++ x :: back) := by
  have hmem (a) (ha : a ∈ front ++ back) : a ∈ s := hl a (h.perm.mem_iff.mp ha)
  obtain ⟨hf, hb, hfb⟩ := List.pairwise_append.mp h.sorted
  -- the front is below its last element
  have hall : ∀ a ∈ front, le a x := by
    rcases List.eq_nil_or_concat front with rfl | ⟨front, last, rfl⟩
    · simp
    · rw [List.concat_eq_append] at *
      have hlast : le last x := hfront last (by rw [List.getLast?_concat]; rfl)
      intro a ha
      rcases List.mem_append.mp ha with ha' | ha'
      · have hle : le a last := (List.pairwise_append.mp hf).2.2 a ha' last (by simp)
        exact hs.trans a (hmem a (List.mem_append_left _ ha)) last (hmem last (by simp)) x hx hle
          hlast
      · exact List.mem_singleton.mp ha' ▸ hlast
  have hgt : ∀ a ∈ back, le x a := fun a ha =>
    (hs.total a (hmem a (List.mem_append_right _ ha)) x hx).resolve_left (hback a ha)
  refine ⟨?_, ?_, ?_⟩
  · have hmiddle : (front ++ x :: back).Perm (x :: l) := List.perm_middle.trans (h.perm.cons x)
    exact hmiddle.trans (List.perm_append_singleton x l).symm
  · rw [List.pairwise_append, List.pairwise_cons]
    refine ⟨hf, ⟨hgt, hb⟩, ?_⟩
    intro a ha b hb'
    rcases List.mem_cons.mp hb' with rfl | hb'
    · exact hall a ha
    · exact hfb a ha b hb'
  · intro a ha
    have hstable := h.stable a ha
    rw [List.filter_append] at hstable
    rw [List.filter_append, List.filter_append, ← hstable, List.filter_cons, List.filter_cons,
      List.filter_nil]
    by_cases halike : Alike le a x
    · -- what is greater is not like the new element
      have hnone : back.filter (Alike le a ·) = [] := by
        rw [List.filter_eq_nil_iff]
        intro b hb hab
        have hba : le b a := (of_decide_eq_true hab).2
        exact hback b hb
          (hs.trans b (hmem b (List.mem_append_right _ hb)) a ha x hx hba halike.1)
      rw [hnone]
      simp [halike]
    · simp [halike]

end Stuos.Lib
