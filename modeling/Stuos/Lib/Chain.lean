import Mathlib.Data.List.Nodup
import Stuos.Lib.Bytes

/-!
# Linked lists in a table, and the bytes of a list of blocks

A table `next` gives every cell the cell after it, or none.  `Linked next l` says
that `l` is the list one walks from its head to the end.  `joined b block l` is the
byte memory that the blocks `l`, of `b` bytes each, form one after the other.

* `Linked.unique`, `Linked.nodup`: a list is determined by its head and therefore
  repeats no cell.
* `Linked.congr`: only the entries of its own cells matter.
* `joined_append`: blocks added at the end do not move the bytes in front.
* `joined_cons_read`, `joined_cons_write`: a read or a write that starts in the first
  block, as a part in that block and a part in the others.
-/

namespace Stuos.Lib

section Linked

variable {α : Type*} {next next' : α → Option α} {c : α} {l l' : List α}

/-- Each cell names the one after it, and the last one names none. -/
def Linked (next : α → Option α) : List α → Prop
  | [] => True
  | c :: rest => next c = rest.head? ∧ Linked next rest

@[simp] theorem linked_nil : Linked next [] := trivial

@[simp] theorem linked_cons : Linked next (c :: l) ↔ next c = l.head? ∧ Linked next l := Iff.rfl

theorem Linked.congr (h : Linked next l) (heq : ∀ c ∈ l, next' c = next c) : Linked next' l := by
  induction l with
  | nil => trivial
  | cons c l ih =>
    refine ⟨?_, ih h.2 (fun d hd => heq d (by simp [hd]))⟩
    rw [heq c (by simp), h.1]

theorem Linked.of_append (h : Linked next (l ++ l')) : Linked next l' := by
  induction l with
  | nil => exact h
  | cons c l ih => exact ih h.2

/-- **A list is determined by its head.** -/
theorem Linked.unique (h : Linked next l) (h' : Linked next l') (hd : l.head? = l'.head?) :
    l = l' := by
  induction l generalizing l' with
  | nil =>
    cases l' with
    | nil => rfl
    | cons d l' => simp at hd
  | cons c l ih =>
    cases l' with
    | nil => simp at hd
    | cons d l' =>
      simp only [List.head?_cons, Option.some.injEq] at hd
      subst hd
      rw [ih h.2 h'.2 (h.1.symm.trans h'.1)]

/-- **A list that ends repeats no cell.** -/
theorem Linked.nodup (h : Linked next l) : l.Nodup := by
  induction l with
  | nil => exact List.nodup_nil
  | cons c l ih =>
    refine List.nodup_cons.mpr ⟨?_, ih h.2⟩
    intro hmem
    -- a second occurrence would start a shorter list with the same head
    obtain ⟨l₁, l₂, rfl⟩ := List.append_of_mem hmem
    have hsub : Linked next (c :: l₂) := h.2.of_append
    have heq := h.unique hsub rfl
    have hlen := congrArg List.length heq
    simp only [List.length_cons, List.length_append] at hlen
    omega

theorem Linked.next_getLast (h : Linked next l) (hne : l ≠ []) : next (l.getLast hne) = none := by
  induction l with
  | nil => exact absurd rfl hne
  | cons c l ih =>
    cases l with
    | nil => exact h.1
    | cons d l =>
      rw [List.getLast_cons (by simp)]
      exact ih h.2 (by simp)

end Linked

/-! ### Blocks one after the other -/

section joined

variable {α : Type*} {b : Nat} {block block' : α → Mem} {c : α} {l l' : List α}

/-- The blocks `l`, of `b` bytes each, as one memory. -/
def joined (b : Nat) (block : α → Mem) : List α → Mem
  | [], _ => 0
  | c :: rest, i => if i < b then block c i else joined b block rest (i - b)

theorem joined_cons_of_lt {i : Nat} (h : i < b) : joined b block (c :: l) i = block c i := by
  rw [joined, if_pos h]

theorem joined_cons_of_ge {i : Nat} (h : b ≤ i) :
    joined b block (c :: l) i = joined b block l (i - b) := by
  rw [joined, if_neg (by omega)]

theorem joined_congr (h : ∀ c ∈ l, ∀ i, i < b → block' c i = block c i) :
    joined b block' l = joined b block l := by
  funext i
  induction l generalizing i with
  | nil => rfl
  | cons c l ih =>
    by_cases hi : i < b
    · rw [joined_cons_of_lt hi, joined_cons_of_lt hi, h c (by simp) i hi]
    · rw [joined_cons_of_ge (by omega), joined_cons_of_ge (by omega),
        ih (fun d hd => h d (by simp [hd]))]

/-- **Blocks added at the end** do not move the bytes in front. -/
theorem joined_append {i : Nat} (h : i < l.length * b) :
    joined b block (l ++ l') i = joined b block l i := by
  induction l generalizing i with
  | nil => simp at h
  | cons c l ih =>
    rw [List.cons_append]
    by_cases hi : i < b
    · rw [joined_cons_of_lt hi, joined_cons_of_lt hi]
    · rw [joined_cons_of_ge (by omega), joined_cons_of_ge (by omega)]
      apply ih
      rw [List.length_cons, Nat.add_mul] at h
      omega

/-- A read that starts in the first block. -/
theorem joined_cons_read {i n : Nat} (h : i ≤ b) :
    (joined b block (c :: l)).read i n =
      (block c).read i (min n (b - i)) ++ (joined b block l).read 0 (n - (b - i)) := by
  apply List.ext_getElem?
  intro j
  rw [Mem.read_getElem?]
  by_cases hj : j < min n (b - i)
  · rw [List.getElem?_append_left (by rw [Mem.read_length]; omega), Mem.read_getElem?,
      if_pos (by omega), if_pos hj, joined_cons_of_lt (by omega)]
  · rw [List.getElem?_append_right (by rw [Mem.read_length]; omega), Mem.read_getElem?,
      Mem.read_length]
    by_cases hn : j < n
    · rw [if_pos hn, if_pos (by omega), joined_cons_of_ge (by omega)]
      congr 2
      omega
    · rw [if_neg hn, if_neg (by omega)]

theorem joined_cons_read_of_ge {i n : Nat} (h : b ≤ i) :
    (joined b block (c :: l)).read i n = (joined b block l).read (i - b) n := by
  apply List.ext_getElem?
  intro j
  rw [Mem.read_getElem?, Mem.read_getElem?, joined_cons_of_ge (by omega),
    show i + j - b = i - b + j by omega]

/-- A write that starts in the first block. -/
theorem joined_cons_write {i : Nat} (h : i ≤ b) (bs : List UInt8) (j : Nat) :
    (joined b block (c :: l)).write i bs j =
      if j < b then (block c).write i (bs.take (b - i)) j
      else (joined b block l).write 0 (bs.drop (b - i)) (j - b) := by
  have hlen : (bs.take (b - i)).length = min (b - i) bs.length := List.length_take
  have hlen' : (bs.drop (b - i)).length = bs.length - (b - i) := List.length_drop
  by_cases hj : j < b
  · rw [if_pos hj]
    by_cases hw : i ≤ j ∧ j < i + bs.length
    · rw [Mem.write_of_mem _ _ hw.1 hw.2, Mem.write_of_mem _ _ hw.1 (by omega),
        List.getD_eq_getElem?_getD, List.getD_eq_getElem?_getD, List.getElem?_take,
        if_pos (by omega)]
    · rw [Mem.write, if_neg hw, Mem.write, if_neg (by omega), joined_cons_of_lt hj]
  · rw [if_neg hj]
    by_cases hw : j < i + bs.length
    · rw [Mem.write_of_mem _ _ (by omega) hw, Mem.write_of_mem _ _ (by omega) (by omega),
        List.getD_eq_getElem?_getD, List.getD_eq_getElem?_getD, List.getElem?_drop]
      congr 2
      omega
    · rw [Mem.write, if_neg (by omega), Mem.write, if_neg (by omega),
        joined_cons_of_ge (by omega)]

theorem joined_cons_write_of_ge {i : Nat} (h : b ≤ i) (bs : List UInt8) (j : Nat) :
    (joined b block (c :: l)).write i bs j =
      if j < b then block c j else (joined b block l).write (i - b) bs (j - b) := by
  by_cases hj : j < b
  · rw [if_pos hj, Mem.write_of_lt _ _ (by omega), joined_cons_of_lt hj]
  · rw [if_neg hj]
    by_cases hw : i ≤ j ∧ j < i + bs.length
    · rw [Mem.write_of_mem _ _ hw.1 hw.2, Mem.write_of_mem _ _ (by omega) (by omega)]
      congr 1
      omega
    · rw [Mem.write, if_neg hw, Mem.write, if_neg (by omega), joined_cons_of_ge (by omega)]

end joined

end Stuos.Lib
