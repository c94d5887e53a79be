import Mathlib.Data.List.Basic
import Stuos.Lib.Bytes

/-!
# `fgets`

A read of one byte either stores a byte or finds the end of the file; `reads i` is what read `i`
delivers.  The loop has three ends.  At a newline `curr` points to the last byte that has been stored,
at the two others behind it, and in all three the terminator goes to `curr + 1`.

* `fgetsFrom_eq`: the loop stores the bytes that it reads, whatever the buffer held.
* `fgets_line_iff`: **the terminator is right exactly if there is a newline in time**.
-/

namespace Stuos.Libc

open Stuos.Lib

/-! ### The source -/

/-- The memory, and the addresses that have been written to, oldest first. -/
structure Written where
  memory : Mem
  addresses : List Nat

def Written.store (w : Written) (a : Nat) (b : UInt8) : Written where
  memory := w.memory.write a [b]
  addresses := w.addresses ++ [a]

/-- One byte is read to `curr`, if there is one, and `*curr` stays what it is otherwise; with
`num_bytes_actually_read`. -/
def readByte (reads : Nat → Option UInt8) (i curr : Nat) (w : Written) : Written × Nat :=
  match reads i with
  | none => (w, 0)
  | some b => (w.store curr b, 1)

/-- The loop, at read `i` and with so many bytes to go to `size - 1`; with the last `curr`. -/
def fgetsFrom (reads : Nat → Option UInt8) (i curr : Nat) (w : Written) : Nat → Nat × Written
  | 0 => (curr, w)
  | left + 1 =>
    let (w, numBytesActuallyRead) := readByte reads i curr w
    if w.memory curr = newline ∨ numBytesActuallyRead = 0 then (curr, w)
    else fgetsFrom reads (i + 1) (curr + 1) w left

def fgets (reads : Nat → Option UInt8) (memory : Mem) (s size : Nat) : Written :=
  let w : Written := { memory := memory, addresses := [] }
  if size = 0 then w.store s 0
  else
    let (curr, w) := fgetsFrom reads 0 s w (size - 1)
    -- null-terminate string
    w.store (curr + 1) 0

/-! ### What should be stored -/

/-- At most `left` bytes from read `i` on, up to a newline or the end of the file. -/
def line (reads : Nat → Option UInt8) (i : Nat) : Nat → List UInt8
  | 0 => []
  | left + 1 =>
    match reads i with
    | none => []
    | some b => if b = newline then [b] else b :: line reads (i + 1) left

/-- The bytes and their terminator are at `s`, and no other address has been written to. -/
def HoldsLine (bytes : List UInt8) (s : Nat) (w : Written) : Prop :=
  w.memory.read s (bytes.length + 1) = bytes ++ [0] ∧
    ∀ a ∈ w.addresses, s ≤ a ∧ a < s + (bytes.length + 1)

instance (bytes : List UInt8) (s : Nat) (w : Written) : Decidable (HoldsLine bytes s w) :=
  inferInstanceAs (Decidable (_ ∧ _))

/-- One of the `n` reads from `i` on delivers a newline, and none before it the end of the file. -/
def NewlineWithin (reads : Nat → Option UInt8) (i n : Nat) : Prop :=
  ∃ j, i ≤ j ∧ j < i + n ∧ reads j = some newline ∧ ∀ k, i ≤ k → k < j → reads k ≠ none

/-! ### The loop -/

variable {reads : Nat → Option UInt8} {i curr left : Nat} {b : UInt8}

theorem line_of_none (h : reads i = none) : line reads i (left + 1) = [] := by
  rw [line, h]

theorem line_of_newline (h : reads i = some newline) : line reads i (left + 1) = [newline] := by
  rw [line, h]
  exact if_pos rfl

theorem line_of_some (h : reads i = some b) (hb : b ≠ newline) :
    line reads i (left + 1) = b :: line reads (i + 1) left := by
  rw [line, h]
  exact if_neg hb

theorem length_line_le (reads : Nat → Option UInt8) (i left : Nat) :
    (line reads i left).length ≤ left := by
  induction left generalizing i with
  | zero => exact Nat.le_refl 0
  | succ left ih =>
    cases h : reads i with
    | none =>
      rw [line_of_none h]
      exact Nat.zero_le _
    | some b =>
      by_cases hb : b = newline
      · subst hb
        rw [line_of_newline h, List.length_singleton]
        omega
      · rw [line_of_some h hb, List.length_cons]
        exact Nat.succ_le_succ (ih (i + 1))

theorem fgetsFrom_of_none (w : Written) (h : reads i = none) :
    fgetsFrom reads i curr w (left + 1) = (curr, w) := by
  rw [fgetsFrom, readByte, h]
  exact if_pos (.inr rfl)

theorem store_memory (w : Written) (a : Nat) (b : UInt8) : (w.store a b).memory a = b := by
  show w.memory.write a [b] a = b
  rw [Mem.write_of_mem _ [b] (Nat.le_refl a) (by simp), Nat.sub_self]
  rfl

theorem fgetsFrom_of_newline (w : Written) (h : reads i = some newline) :
    fgetsFrom reads i curr w (left + 1) = (curr, w.store curr newline) := by
  rw [fgetsFrom, readByte, h]
  exact if_pos (.inl (store_memory w curr newline))

theorem fgetsFrom_of_some (w : Written) (h : reads i = some b) (hb : b ≠ newline) :
    fgetsFrom reads i curr w (left + 1) =
      fgetsFrom reads (i + 1) (curr + 1) (w.store curr b) left := by
  rw [fgetsFrom, readByte, h]
  refine if_neg ?_
  rintro (hnow | hnone)
  · exact hb ((store_memory w curr b).symm.trans hnow)
  · cases hnone

/-- **The loop** stores the bytes, and stops at the newline or behind the last byte. -/
theorem fgetsFrom_eq (reads : Nat → Option UInt8) (i curr left : Nat) (w : Written) :
    fgetsFrom reads i curr w left =
      (if newline ∈ line reads i left then curr + (line reads i left).length - 1
        else curr + (line reads i left).length,
      { memory := w.memory.write curr (line reads i left)
        addresses := w.addresses ++ List.range' curr (line reads i left).length }) := by
  induction left generalizing i curr w with
  | zero =>
    show (curr, w) = (curr, { memory := w.memory.write curr [], addresses := w.addresses ++ [] })
    rw [Mem.write_nil, List.append_nil]
  | succ left ih =>
    cases h : reads i with
    | none =>
      rw [fgetsFrom_of_none w h, line_of_none h, if_neg List.not_mem_nil, Mem.write_nil]
      show (curr, w) = (curr, { memory := w.memory, addresses := w.addresses ++ [] })
      rw [List.append_nil]
    | some b =>
      by_cases hb : b = newline
      · subst hb
        rw [fgetsFrom_of_newline w h, line_of_newline h, if_pos (by simp)]
        rfl
      · rw [fgetsFrom_of_some w h hb, ih, line_of_some h hb]
        have hmem : newline ∈ b :: line reads (i + 1) left ↔ newline ∈ line reads (i + 1) left := by
          simp [Ne.symm hb]
        have hwrite : (w.store curr b).memory.write (curr + 1) (line reads (i + 1) left) =
            w.memory.write curr (b :: line reads (i + 1) left) :=
          (Mem.write_append w.memory curr [b] (line reads (i + 1) left)).symm
        have haddresses : (w.store curr b).addresses ++
            List.range' (curr + 1) (line reads (i + 1) left).length =
              w.addresses ++ List.range' curr (b :: line reads (i + 1) left).length := by
          rw [List.length_cons, List.range'_succ]
          exact List.append_assoc w.addresses [curr] _
        rw [hwrite, haddresses]
        simp only [hmem, List.length_cons]
        congr 1
        split <;> omega

theorem newlineWithin_succ : NewlineWithin reads i (left + 1) ↔
    reads i = some newline ∨ reads i ≠ none ∧ NewlineWithin reads (i + 1) left := by
  constructor
  · rintro ⟨j, hij, hj, hnew, hbefore⟩
    by_cases hji : j = i
    · left
      rw [← hji]
      exact hnew
    · right
      refine ⟨hbefore i (Nat.le_refl i) (by omega), j, by omega, by omega, hnew, ?_⟩
      exact fun k hk => hbefore k (by omega)
  · rintro (hnew | ⟨hsome, j, hij, hj, hnew, hbefore⟩)
    · exact ⟨i, Nat.le_refl i, by omega, hnew, fun k hk hki => absurd hk (by omega)⟩
    · refine ⟨j, by omega, by omega, hnew, fun k hk hkj => ?_⟩
      by_cases hki : k = i
      · rw [hki]
        exact hsome
      · exact hbefore k (by omega) hkj

theorem newline_mem_line (reads : Nat → Option UInt8) (i left : Nat) :
    newline ∈ line reads i left ↔ NewlineWithin reads i left := by
  induction left generalizing i with
  | zero =>
    refine iff_of_false List.not_mem_nil ?_
    rintro ⟨j, hij, hj, -⟩
    omega
  | succ left ih =>
    rw [newlineWithin_succ]
    cases h : reads i with
    | none =>
      rw [line_of_none h]
      simp
    | some b =>
      by_cases hb : b = newline
      · subst hb
        rw [line_of_newline h]
        simp
      · rw [line_of_some h hb, List.mem_cons, ih]
        simp [hb, Ne.symm hb]

/-! ### The function -/

/-- **When `fgets` is right.**  The line and its terminator fit into the buffer in any case. -/
theorem fgets_line_iff (reads : Nat → Option UInt8) (memory : Mem) (s : Nat) {size : Nat}
    (hsize : 1 ≤ size) :
    (line reads 0 (size - 1)).length + 1 ≤ size ∧
      (HoldsLine (line reads 0 (size - 1)) s (fgets reads memory s size) ↔
        NewlineWithin reads 0 (size - 1)) := by
  have hlength := length_line_le reads 0 (size - 1)
  refine ⟨by omega, ?_⟩
  rw [← newline_mem_line, fgets, if_neg (by omega), fgetsFrom_eq]
  generalize hline : line reads 0 (size - 1) = bytes
  by_cases hnew : newline ∈ bytes
  · have hpos := List.length_pos_of_mem hnew
    refine iff_of_true ?_ hnew
    rw [if_pos hnew]
    dsimp only [Written.store]
    rw [show s + bytes.length - 1 + 1 = s + bytes.length by omega]
    constructor
    · have hback := Mem.read_write_self memory s (bytes ++ [0])
      rw [List.length_append, List.length_singleton, Mem.write_append] at hback
      exact hback
    · intro a ha
      rw [List.nil_append, List.mem_append, List.mem_range'_1, List.mem_singleton] at ha
      omega
  · refine iff_of_false ?_ hnew
    rw [if_neg hnew]
    rintro ⟨-, haddresses⟩
    have hlast := haddresses (s + bytes.length + 1) (by simp [Written.store])
    omega

/-- A file that holds the letter `a` over and over, in lines of two. -/
def letters (i : Nat) : Option UInt8 := if i % 3 = 2 then some newline else some 97

theorem fgets_line_iff_letters :
    (line letters 0 (8 - 1)).length + 1 ≤ 8 ∧
      (HoldsLine (line letters 0 (8 - 1)) 4096 (fgets letters (fun _ => 1) 4096 8) ↔
        NewlineWithin letters 0 (8 - 1)) :=
  fgets_line_iff letters (fun _ => 1) 4096 (by decide)

/-- The file ends behind one letter, or there is room for the terminator only. -/
theorem fgets_without_newline :
    ¬ HoldsLine (line (fun i => if i = 0 then some 97 else none) 0 (8 - 1)) 4096
        (fgets (fun i => if i = 0 then some 97 else none) (fun _ => 1) 4096 8) ∧
      ¬ HoldsLine (line letters 0 (1 - 1)) 4096 (fgets letters (fun _ => 1) 4096 1) := by
  decide

end Stuos.Libc
