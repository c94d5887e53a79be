import Mathlib.Algebra.Order.Ring.Int
import Mathlib.Data.List.Basic
import Mathlib.Logic.Function.Basic

/-!
# Rings whose slots carry the parity of the lap

A ring of `n` slots is written round and round.  Each slot carries a bit that says in
which lap it was written: `true` in the first one, and the other value in the next.  A
reader who knows how many items it has read can tell from the bit alone whether the slot
in front of it has been written since.

* `Laps`: the slots hold the last `n` items, marked with their laps.
* `Laps.write`: writing the next item keeps this.
* `Laps.read`: an item that has not been written over is found with the bit of its lap.
* `Laps.bit_next`: the slot of the item to come carries the other bit.
-/

namespace Stuos.Lib

/-- The bit of the lap in which item `k` is written. -/
def lapBit (n k : Nat) : Bool := k / n % 2 == 0

section

variable {n k : Nat}

theorem div_succ_of_eq (h : k % n + 1 = n) : (k + 1) / n = k / n + 1 ∧ (k + 1) % n = 0 := by
  have hpos : 0 < n := by omega
  have heq : k + 1 = n * (k / n + 1) := by
    have := Nat.div_add_mod k n
    rw [Nat.mul_add]
    omega
  rw [heq]
  exact ⟨Nat.mul_div_cancel_left _ hpos, Nat.mul_mod_right _ _⟩

theorem div_succ_of_lt (h : k % n + 1 < n) :
    (k + 1) / n = k / n ∧ (k + 1) % n = k % n + 1 := by
  have hpos : 0 < n := by omega
  have heq : k + 1 = k % n + 1 + n * (k / n) := by
    have := Nat.mod_add_div k n
    omega
  constructor
  · rw [heq, Nat.add_mul_div_left _ _ hpos, Nat.div_eq_of_lt h]
    omega
  · rw [heq, Nat.add_mul_mod_self_left, Nat.mod_eq_of_lt h]

theorem succ_mod (hpos : 0 < n) (k : Nat) :
    (k + 1) % n = if k % n + 1 = n then 0 else k % n + 1 := by
  have hlt := Nat.mod_lt k hpos
  split
  · exact (div_succ_of_eq ‹_›).2
  · exact (div_succ_of_lt (by omega)).2

theorem lapBit_succ (hpos : 0 < n) (k : Nat) :
    lapBit n (k + 1) = if k % n + 1 = n then !lapBit n k else lapBit n k := by
  have hlt := Nat.mod_lt k hpos
  unfold lapBit
  split
  · rw [(div_succ_of_eq ‹_›).1]
    have hparity := Nat.mod_two_eq_zero_or_one (k / n)
    rcases hparity with h | h
    · have h1 : (k / n + 1) % 2 = 1 := by omega
      rw [h, h1]
      rfl
    · have h1 : (k / n + 1) % 2 = 0 := by omega
      rw [h, h1]
      rfl
  · rw [(div_succ_of_lt (by omega)).1]

@[simp] theorem lapBit_zero (n : Nat) : lapBit n 0 = true := by
  simp [lapBit]

theorem lapBit_add (hpos : 0 < n) (k : Nat) : lapBit n (k + n) = !lapBit n k := by
  unfold lapBit
  rw [Nat.add_div_right _ hpos]
  rcases Nat.mod_two_eq_zero_or_one (k / n) with h | h
  · have h1 : (k / n).succ % 2 = 1 := by omega
    rw [h, h1]
    rfl
  · have h1 : (k / n).succ % 2 = 0 := by omega
    rw [h, h1]
    rfl

end

/-! ### The ring -/

variable {α β : Type*} {n : Nat} {mark : α → Bool → β} {bit : β → Bool} {slots : Nat → β}
  {items : List α}

/-- The slots after `items` have been written: the last `n` of them with the bits of their
laps, and clear bits in the slots not yet written. -/
structure Laps (n : Nat) (mark : α → Bool → β) (bit : β → Bool) (slots : Nat → β)
    (items : List α) : Prop where
  recent : ∀ k a, items[k]? = some a → items.length ≤ k + n →
    slots (k % n) = mark a (lapBit n k)
  untouched : ∀ j, items.length ≤ j → j < n → bit (slots j) = false

/-- **An item that has not been written over** is read with the bit of its lap. -/
theorem Laps.read (h : Laps n mark bit slots items) {k : Nat} {a : α} (ha : items[k]? = some a)
    (hk : items.length ≤ k + n) : slots (k % n) = mark a (lapBit n k) :=
  h.recent k a ha hk

theorem Laps.congr {slots' : Nat → β} (h : Laps n mark bit slots items) (hpos : 0 < n)
    (heq : ∀ j < n, slots' j = slots j) : Laps n mark bit slots' items where
  recent k a ha hk := by
    rw [heq _ (Nat.mod_lt k hpos)]
    exact h.recent k a ha hk
  untouched j hj hjn := by
    rw [heq j hjn]
    exact h.untouched j hj hjn

/-- **The slot of the item to come** carries the bit of the lap before. -/
theorem Laps.bit_next (h : Laps n mark bit slots items) (hpos : 0 < n)
    (hbit : ∀ a b, bit (mark a b) = b) :
    bit (slots (items.length % n)) = !lapBit n items.length := by
  by_cases hfirst : items.length < n
  · rw [Nat.mod_eq_of_lt hfirst, h.untouched _ (le_refl _) hfirst, lapBit,
      Nat.div_eq_of_lt hfirst]
    rfl
  · obtain ⟨k, hk⟩ := Nat.exists_eq_add_of_le (show n ≤ items.length by omega)
    have hlt : k < items.length := by omega
    have hread := h.read (List.getElem?_eq_getElem hlt) (by omega)
    have hlen : items.length = k + n := by omega
    rw [hlen, Nat.add_mod_right, hread, hbit, lapBit_add hpos, Bool.not_not]

/-- **Writing the next item.** -/
theorem Laps.write (h : Laps n mark bit slots items) (a : α) :
    Laps n mark bit
      (Function.update slots (items.length % n) (mark a (lapBit n items.length)))
      (items ++ [a]) where
  recent k b hb hk := by
    rw [List.length_append, List.length_singleton] at hk
    by_cases hlast : k = items.length
    · subst hlast
      rw [List.getElem?_append_right (le_refl _), Nat.sub_self] at hb
      simp only [List.getElem?_cons_zero, Option.some.injEq] at hb
      rw [Function.update_self, hb]
    · have hlt : k < items.length := by
        have := (List.getElem?_eq_some_iff.mp hb).1
        rw [List.length_append, List.length_singleton] at this
        omega
      rw [List.getElem?_append_left hlt] at hb
      -- a more recent item is in another slot
      have hne : k % n ≠ items.length % n := by
        intro he
        have h1 := Nat.div_add_mod k n
        have h2 := Nat.div_add_mod items.length n
        have h3 : k / n < items.length / n := by
          by_contra hle
          have := Nat.mul_le_mul_left n (Nat.le_of_not_lt hle)
          omega
        have h4 := Nat.mul_le_mul_left n (Nat.succ_le_of_lt h3)
        rw [Nat.mul_succ] at h4
        omega
      rw [Function.update_of_ne hne]
      exact h.recent k b hb (by omega)
  untouched j hj hjn := by
    rw [List.length_append, List.length_singleton] at hj
    have hne : j ≠ items.length % n := by
      rw [Nat.mod_eq_of_lt (by omega)]
      omega
    rw [Function.update_of_ne hne]
    exact h.untouched j (by omega) hjn

end Stuos.Lib
