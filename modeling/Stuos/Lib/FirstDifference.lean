import Mathlib.Data.List.Infix

/-!
# Where two lists first differ

What is common to two lists, what holds of the first items that are not, and which sign an integer
must have to say how the lists are ordered.

All three go over to the rests behind equal first items, and are settled at different ones.
-/

namespace Stuos.Lib

variable {α : Type*} {R : α → α → Prop} {p q : List α} {x y : α} {k : Nat} {d : Int}

/-- `R` holds of the first items that differ. -/
def AtFirstDifference (R : α → α → Prop) (p q : List α) : Prop :=
  ∀ common x y, common ++ [x] <+: p → common ++ [y] <+: q → x ≠ y → R x y

/-- Fewer than `k` items are common. -/
def CommonBelow (k : Nat) (p q : List α) : Prop :=
  ∀ common, common <+: p → common <+: q → common.length < k

/-- `d` is negative, zero or positive as `p` is before, equal to or behind `q`. -/
def SignOf [LT α] (d : Int) (p q : α) : Prop := (d < 0 ↔ p < q) ∧ (0 < d ↔ q < p)

/-! ### The first items that differ -/

theorem atFirstDifference_self (R : α → α → Prop) (p : List α) : AtFirstDifference R p p := by
  intro common x y hx hy hne
  have heq := List.prefix_of_prefix_length_le hx hy (by simp)
  rw [List.prefix_append_right_inj] at heq
  exact absurd (List.cons_prefix_cons.mp heq).1 hne

theorem atFirstDifference_cons_self :
    AtFirstDifference R (x :: p) (x :: q) ↔ AtFirstDifference R p q := by
  constructor
  · intro h common a b ha hb hne
    apply h (x :: common) a b _ _ hne
    · exact List.cons_prefix_cons.mpr ⟨rfl, ha⟩
    · exact List.cons_prefix_cons.mpr ⟨rfl, hb⟩
  · intro h common a b ha hb hne
    cases common with
    | nil =>
      have hax := (List.cons_prefix_cons.mp ha).1
      have hbx := (List.cons_prefix_cons.mp hb).1
      exact absurd (hax.trans hbx.symm) hne
    | cons c common =>
      exact h common a b (List.cons_prefix_cons.mp ha).2 (List.cons_prefix_cons.mp hb).2 hne

theorem atFirstDifference_cons_of_ne (hne : x ≠ y) :
    AtFirstDifference R (x :: p) (y :: q) ↔ R x y := by
  constructor
  · intro h
    apply h [] x y _ _ hne
    · exact List.cons_prefix_cons.mpr ⟨rfl, List.nil_prefix⟩
    · exact List.cons_prefix_cons.mpr ⟨rfl, List.nil_prefix⟩
  · intro h common a b ha hb hab
    cases common with
    | nil =>
      rw [(List.cons_prefix_cons.mp ha).1, (List.cons_prefix_cons.mp hb).1]
      exact h
    | cons c common =>
      have hcx := (List.cons_prefix_cons.mp ha).1
      have hcy := (List.cons_prefix_cons.mp hb).1
      exact absurd (hcx.symm.trans hcy) hne

/-! ### How much is common -/

theorem commonBelow_cons_self : CommonBelow (k + 1) (x :: p) (x :: q) ↔ CommonBelow k p q := by
  constructor
  · intro h common hp hq
    have hlt := h (x :: common) (List.cons_prefix_cons.mpr ⟨rfl, hp⟩)
      (List.cons_prefix_cons.mpr ⟨rfl, hq⟩)
    rw [List.length_cons] at hlt
    omega
  · intro h common hp hq
    cases common with
    | nil => exact Nat.succ_pos k
    | cons c common =>
      have hlt := h common (List.cons_prefix_cons.mp hp).2 (List.cons_prefix_cons.mp hq).2
      rw [List.length_cons]
      omega

theorem not_commonBelow_zero (p q : List α) : ¬ CommonBelow 0 p q :=
  fun h => absurd (h [] List.nil_prefix List.nil_prefix) (Nat.not_lt_zero _)

theorem commonBelow_cons_of_ne (hne : x ≠ y) : CommonBelow (k + 1) (x :: p) (y :: q) := by
  intro common hp hq
  cases common with
  | nil => exact Nat.succ_pos k
  | cons c common =>
    have hcx := (List.cons_prefix_cons.mp hp).1
    have hcy := (List.cons_prefix_cons.mp hq).1
    exact absurd (hcx.symm.trans hcy) hne

theorem commonBelow_nil : CommonBelow (k + 1) ([] : List α) [] := by
  intro common hp _
  rw [List.prefix_nil.mp hp]
  exact Nat.succ_pos k

theorem commonBelow_of_append {r t : List α} (h : CommonBelow k (p ++ r) (q ++ t)) :
    CommonBelow k p q :=
  fun common hp hq => h common (hp.trans (List.prefix_append p r)) (hq.trans (List.prefix_append q t))

/-! ### The order -/

theorem signOf_cons_of_ne [LT α] (hne : x ≠ y) : SignOf d (x :: p) (y :: q) ↔ SignOf d x y := by
  simp only [SignOf, List.cons_lt_cons_iff, hne, Ne.symm hne, false_and, or_false]

section

variable [LT α] [Std.Asymm (· < · : α → α → Prop)]

theorem signOf_self {p : α} : SignOf d p p ↔ d = 0 := by
  simp only [SignOf, Std.Irrefl.irrefl p, iff_false]
  omega

theorem signOf_of_lt {p q : α} (h : p < q) : SignOf d p q ↔ d < 0 := by
  simp only [SignOf, h, iff_true, Std.Asymm.asymm p q h, iff_false]
  omega

theorem signOf_of_gt {p q : α} (h : q < p) : SignOf d p q ↔ 0 < d := by
  simp only [SignOf, h, iff_true, Std.Asymm.asymm q p h, iff_false]
  omega

theorem signOf_cons_self : SignOf d (x :: p) (x :: q) ↔ SignOf d p q := by
  simp only [SignOf, List.cons_lt_cons_self]

end

end Stuos.Lib
