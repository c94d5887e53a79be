import Mathlib.Algebra.Order.Ring.Int
import Mathlib.Data.List.Perm.Basic

/-!
# Double-ended queues

The two operations of `VecDeque` that move elements, on lists.

* `swapRemoveBack_perm`: removing by swapping with the back removes that one element
  and reorders the others.
-/

namespace Stuos.Lib

variable {α : Type*}

/-- `pop_front` followed by `push_back` of the element. -/
def frontToBack : List α → Option (List α)
  | [] => none
  | a :: l => some (l ++ [a])

/-- `swap_remove_back`: the back takes the place of the element at the index. -/
def swapRemoveBack (l : List α) (index : Nat) : Option (List α) :=
  match l.getLast? with
  | none => none
  | some back => if index < l.length then some (l.set index back).dropLast else none

theorem frontToBack_eq_some {l l' : List α} (h : frontToBack l = some l') :
    ∃ a t, l = a :: t ∧ l' = t ++ [a] := by
  cases l with
  | nil => simp [frontToBack] at h
  | cons a t => exact ⟨a, t, rfl, by simpa [frontToBack] using h.symm⟩

theorem frontToBack_perm {l l' : List α} (h : frontToBack l = some l') : l'.Perm l := by
  obtain ⟨a, t, rfl, rfl⟩ := frontToBack_eq_some h
  exact List.perm_append_singleton a t

theorem swapRemoveBack_isSome {l : List α} {index : Nat} (h : index < l.length) :
    ∃ l', swapRemoveBack l index = some l' := by
  rcases List.eq_nil_or_concat' l with rfl | ⟨t, back, rfl⟩
  · simp at h
  · refine ⟨((t ++ [back]).set index back).dropLast, ?_⟩
    rw [swapRemoveBack, List.getLast?_concat]
    exact if_pos h

/-- **Removing by swapping with the back** removes the element at the index. -/
theorem swapRemoveBack_perm {l l' : List α} {index : Nat}
    (h : swapRemoveBack l index = some l') : l'.Perm (l.eraseIdx index) := by
  rcases List.eq_nil_or_concat' l with rfl | ⟨t, back, rfl⟩
  · simp [swapRemoveBack] at h
  · simp only [swapRemoveBack, List.getLast?_concat] at h
    split at h
    · rename_i hi
      rw [List.length_append, List.length_singleton] at hi
      simp only [Option.some.injEq] at h
      subst h
      by_cases hlt : index < t.length
      · rw [List.set_append_left _ _ hlt, List.dropLast_concat, List.eraseIdx_append_of_lt_length hlt]
        exact (List.set_perm_cons_eraseIdx hlt back).trans (List.perm_append_singleton _ _).symm
      · obtain rfl : index = t.length := by omega
        simp [List.eraseIdx_append_of_length_le]
    · simp at h

theorem mem_swapRemoveBack {l l' : List α} {index : Nat} {a : α} (hn : l.Nodup)
    (ha : l[index]? = some a) (h : swapRemoveBack l index = some l') (x : α) :
    x ∈ l' ↔ x ∈ l ∧ x ≠ a := by
  rw [(swapRemoveBack_perm h).mem_iff, List.mem_eraseIdx_iff_getElem?]
  constructor
  · rintro ⟨i, hi, hx⟩
    refine ⟨List.mem_of_getElem? hx, ?_⟩
    rintro rfl
    have hil : i < l.length := by
      rw [List.getElem?_eq_some_iff] at hx
      exact hx.1
    exact hi ((List.getElem?_inj hil hn).mp (hx.trans ha.symm))
  · rintro ⟨hx, hne⟩
    obtain ⟨i, hi⟩ := List.mem_iff_getElem?.mp hx
    refine ⟨i, ?_, hi⟩
    rintro rfl
    exact hne (Option.some.inj (hi.symm.trans ha))

theorem getElem?_swapRemoveBack {l l' : List α} {index i : Nat} {a : α}
    (h : swapRemoveBack l index = some l') (hi : l[i]? = some a) (hne : i ≠ index) :
    ∃ j ≤ i, l'[j]? = some a := by
  rcases List.eq_nil_or_concat' l with rfl | ⟨t, back, rfl⟩
  · simp at hi
  · simp only [swapRemoveBack, List.getLast?_concat] at h
    split at h
    · rename_i hindex
      rw [List.length_append, List.length_singleton] at hindex
      obtain rfl := Option.some.inj h
      obtain ⟨hlt, hget⟩ := List.getElem?_eq_some_iff.mp hi
      rw [List.length_append, List.length_singleton] at hlt
      by_cases hback : i = t.length
      · -- the back takes the free place
        subst hback
        refine ⟨index, by omega, ?_⟩
        have hidx : index < t.length := by omega
        have ha : back = a := by simpa using hget
        rw [List.set_append_left _ _ hidx, List.dropLast_concat, List.getElem?_set_self hidx, ha]
      · refine ⟨i, Nat.le_refl i, ?_⟩
        have hlt' : i < t.length := by omega
        have ht : t[i]? = some a := by
          rw [List.getElem?_append_left hlt'] at hi
          exact hi
        by_cases hidx : index < t.length
        · rw [List.set_append_left _ _ hidx, List.dropLast_concat,
            List.getElem?_set_ne (Ne.symm hne), ht]
        · obtain rfl : index = t.length := by omega
          simpa using ht
    · simp at h

end Stuos.Lib
