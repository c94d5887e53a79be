import Mathlib.Data.List.Induction
import Mathlib.Data.Nat.Digits.Defs
import Mathlib.Tactic.Common

/-!
# Numbers read digit by digit

`value b ds` is the number with the digits `ds` in base `b`, the first digit the most significant.
`push M b` takes one more digit, but gives up on numbers above `M`: `foldl_push` says that reading
a number so gives up exactly if the number itself is above `M`.
-/

namespace Stuos.Lib.Digits

variable {M b d v : Nat} {ds : List Nat}

/-- The number with the digits `ds`. -/
def value (b : Nat) (ds : List Nat) : Nat := Nat.ofDigits b ds.reverse

/-- One more digit, unless the number gets above `M`. -/
def push (M b : Nat) (v? : Option Nat) (d : Nat) : Option Nat :=
  v?.bind fun v => if v > (M - d) / b then none else some (v * b + d)

@[simp] theorem value_nil (b : Nat) : value b [] = 0 := rfl

theorem value_concat (b : Nat) (ds : List Nat) (d : Nat) :
    value b (ds ++ [d]) = value b ds * b + d := by
  rw [value, List.reverse_append, List.reverse_singleton, List.singleton_append, Nat.ofDigits_cons,
    Nat.add_comm, Nat.mul_comm]
  rfl

/-- **The division test** says whether the number stays below the bound. -/
theorem gt_div_iff (hb : 0 < b) (hd : d ≤ M) : v > (M - d) / b ↔ M < v * b + d := by
  rw [gt_iff_lt, Nat.div_lt_iff_lt_mul hb]
  omega

theorem push_some (hb : 0 < b) (hd : d ≤ M) :
    push M b (some v) d = if v * b + d ≤ M then some (v * b + d) else none := by
  rw [push, Option.bind_some]
  by_cases h : v * b + d ≤ M
  · rw [if_pos h, if_neg (fun hgt => absurd ((gt_div_iff hb hd).mp hgt) (by omega))]
  · rw [if_neg h, if_pos ((gt_div_iff hb hd).mpr (by omega))]

/-- **A number is given up exactly if it is above the bound**, however many digits follow. -/
theorem foldl_push (hb : 0 < b) (hds : ∀ d ∈ ds, d ≤ M) :
    ds.foldl (push M b) (some 0) = if value b ds ≤ M then some (value b ds) else none := by
  induction ds using List.reverseRecOn with
  | nil => simp
  | append_singleton ds d ih =>
    rw [List.foldl_append, List.foldl_cons, List.foldl_nil, value_concat,
      ih fun d' hd' => hds d' (by simp [hd'])]
    by_cases h : value b ds ≤ M
    · rw [if_pos h, push_some hb (hds d (by simp))]
    · -- the digits so far are above the bound, and one more digit keeps the number there
      have hle : value b ds ≤ value b ds * b := Nat.le_mul_of_pos_right _ hb
      rw [if_neg h, if_neg (by omega)]
      rfl

end Stuos.Lib.Digits
