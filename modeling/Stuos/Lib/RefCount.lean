import Mathlib.Algebra.Order.Ring.Int
import Mathlib.Data.List.Count
import Mathlib.Data.List.Perm.Basic
import Mathlib.Logic.Function.Basic

/-!
# Reference counts

`Counted strong refs` says that `strong` counts, for every object, how often it occurs among
the references `refs`.  Cloning a reference adds one, dropping one takes it away, and the
count reaches zero exactly when no reference is left.
-/

namespace Stuos.Lib

variable {α : Type*} [DecidableEq α]

/-- The counts are the numbers of references. -/
def Counted (strong : α → Nat) (refs : List α) : Prop := ∀ a, strong a = refs.count a

namespace Counted

variable {strong : α → Nat} {refs refs' : List α} {a : α}

theorem perm (h : Counted strong refs) (hp : refs.Perm refs') : Counted strong refs' :=
  fun b => (h b).trans (hp.count_eq b)

/-- **Cloning a reference.** -/
theorem clone (h : Counted strong refs) (a : α) :
    Counted (Function.update strong a (strong a + 1)) (a :: refs) := by
  intro b
  by_cases hb : b = a
  · subst hb
    rw [Function.update_self, List.count_cons_self, h b]
  · rw [Function.update_of_ne hb, List.count_cons_of_ne (Ne.symm hb), h b]

/-- **Dropping a reference.** -/
theorem drop (h : Counted strong (a :: refs)) :
    Counted (Function.update strong a (strong a - 1)) refs := by
  intro b
  by_cases hb : b = a
  · subst hb
    rw [Function.update_self, h b, List.count_cons_self, Nat.add_sub_cancel]
  · rw [Function.update_of_ne hb, h b, List.count_cons_of_ne (Ne.symm hb)]

theorem last_iff (h : Counted strong (a :: refs)) : strong a - 1 = 0 ↔ a ∉ refs := by
  rw [h a, List.count_cons_self, Nat.add_sub_cancel, List.count_eq_zero]

theorem new (h : Counted strong refs) (ha : a ∉ refs) :
    Counted (Function.update strong a 1) (a :: refs) := by
  have h0 : strong a = 0 := (h a).trans (List.count_eq_zero.mpr ha)
  have := h.clone a
  rwa [h0] at this

end Counted

end Stuos.Lib
