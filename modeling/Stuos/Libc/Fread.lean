import Stuos.Lib.Bytes
import Stuos.Lib.Halt
import Stuos.Libc.CString

/-!
# `fread`, `fwrite` and `fputs`

The first two ask the kernel for `size * nmemb` bytes, a product of `size_t`s, and divide what has
been transferred by `size`.  `fputs` calls `fwrite` with one item as long as the string.

* `itemsLaw_iff`: **the number of items is right exactly if `size` is not zero, the product fits and
  no item is cut in two**.
* `fputs_eq_ok_iff`: `fputs` succeeds exactly on a string that is not empty and is written in full.
-/

namespace Stuos.Libc

open Stuos.Lib

/-! ### The source -/

/-- What ends a call other than its return. -/
inductive StdioFault
  | overread
  | divideByZero
  | abort
  deriving DecidableEq, Repr

/-- The sizes that the kernel was asked for, and how the call ends. -/
structure Transfer where
  requests : List Nat
  outcome : Except StdioFault Nat
  deriving DecidableEq

/-- `n % size` -/
def remainder (n size : Nat) : Except StdioFault Nat :=
  if size = 0 then .error .divideByZero else .ok (n % size)

/-- `n / size` -/
def quotient (n size : Nat) : Except StdioFault Nat :=
  if size = 0 then .error .divideByZero else .ok (n / size)

/-- What both do with the answer of the kernel. -/
def itemsOf (size numBytesActuallyTransferred : Nat) : Except StdioFault Nat := do
  let rest ← remainder numBytesActuallyTransferred size
  if rest ≠ 0 then .error .abort
  else quotient numBytesActuallyTransferred size

/-- The body that both have, when the kernel transfers `transferred` bytes. -/
def transferItems (size nmemb transferred : Nat) : Transfer :=
  let numBytes := u64 (size * nmemb)
  { requests := [numBytes]
    outcome := itemsOf size transferred }

def fread (size nmemb transferred : Nat) : Transfer := transferItems size nmemb transferred

def fwrite (size nmemb transferred : Nat) : Transfer := transferItems size nmemb transferred

def strlen : Ptr → Except StdioFault Nat
  | [] => .error .overread
  | b :: str => if char b ≠ 0 then (strlen str).map (· + 1) else .ok 0

def fputs (s : Ptr) (transferred : Nat) : Except StdioFault Nat := do
  let bytesToWrite ← strlen s
  let numWritten ← (fwrite bytesToWrite 1 transferred).outcome
  if numWritten ≠ 1 then .error .abort
  else return 0

/-! ### The arithmetic -/

/-- Nothing is divided by zero, the product is exact, and the items that are complete are counted; a
call whose product does not fit may fail, if it asks the kernel for nothing. -/
structure ItemsLaw (size nmemb transferred : Nat) (t : Transfer) : Prop where
  divides : t.outcome ≠ .error .divideByZero
  exact : ∀ n ∈ t.requests, n = size * nmemb
  items : t.outcome = .ok (transferred / size) ∨
    (2 ^ 64 ≤ size * nmemb ∧ t.outcome = .error .abort)

variable {size nmemb transferred : Nat}

theorem itemsOf_zero (transferred : Nat) : itemsOf 0 transferred = .error .divideByZero := rfl

theorem itemsOf_of_dvd (hsize : size ≠ 0) (h : size ∣ transferred) :
    itemsOf size transferred = .ok (transferred / size) := by
  have hrest : ¬ transferred % size ≠ 0 := not_not_intro (Nat.mod_eq_zero_of_dvd h)
  rw [itemsOf, remainder, if_neg hsize, ok_bind, if_neg hrest, quotient, if_neg hsize]

theorem itemsOf_of_not_dvd (hsize : size ≠ 0) (h : ¬ size ∣ transferred) :
    itemsOf size transferred = .error .abort := by
  have hrest : transferred % size ≠ 0 := fun h0 => h (Nat.dvd_of_mod_eq_zero h0)
  rw [itemsOf, remainder, if_neg hsize, ok_bind, if_pos hrest]

theorem itemsLaw_iff (size nmemb transferred : Nat) :
    ItemsLaw size nmemb transferred (transferItems size nmemb transferred) ↔
      size ≠ 0 ∧ size * nmemb < 2 ^ 64 ∧ size ∣ transferred := by
  constructor
  · intro h
    have hsize : size ≠ 0 := by
      rintro rfl
      exact h.divides (itemsOf_zero transferred)
    have hfits : size * nmemb < 2 ^ 64 := by
      rw [← h.exact (u64 (size * nmemb)) (List.mem_singleton_self _)]
      exact u64_lt _
    refine ⟨hsize, hfits, ?_⟩
    rcases h.items with hok | ⟨hlarge, -⟩
    · by_contra hdvd
      have hcut : (transferItems size nmemb transferred).outcome = .error .abort :=
        itemsOf_of_not_dvd hsize hdvd
      rw [hcut] at hok
      cases hok
    · exact absurd hfits (Nat.not_lt.mpr hlarge)
  · rintro ⟨hsize, hfits, hdvd⟩
    have hok : (transferItems size nmemb transferred).outcome = .ok (transferred / size) :=
      itemsOf_of_dvd hsize hdvd
    apply ItemsLaw.mk _ _ (.inl hok)
    · rw [hok]
      intro h
      cases h
    · intro n hn
      rw [List.mem_singleton.mp hn]
      exact u64_of_lt hfits

/-! ### Strings -/

theorem strlen_eq (s : CString) : strlen s.bytes = .ok s.text.length := by
  have htext := s.nonzero
  rw [CString.bytes]
  generalize s.text = text at htext ⊢
  induction text with
  | nil => rfl
  | cons b text ih =>
    have hb : char b ≠ 0 := fun h => htext b (by simp) (char_eq_zero.mp h)
    rw [List.cons_append, strlen, if_pos hb, ih fun c hc => htext c (by simp [hc])]
    rfl

/-- **`fputs`** succeeds exactly on a string that is not empty and is written in full. -/
theorem fputs_eq_ok_iff (s : CString) (transferred : Nat) :
    fputs s.bytes transferred = .ok 0 ↔ s.text ≠ [] ∧ transferred = s.text.length := by
  rw [fputs, strlen_eq, ok_bind]
  show (itemsOf s.text.length transferred >>= fun numWritten =>
    if numWritten ≠ 1 then Except.error StdioFault.abort else return 0) = .ok 0 ↔ _
  by_cases hempty : s.text = []
  · rw [hempty, List.length_nil, itemsOf_zero, error_bind]
    exact iff_of_false (fun h => by cases h) (fun h => h.1 rfl)
  · have hpos : s.text.length ≠ 0 := fun h => hempty (List.length_eq_zero_iff.mp h)
    by_cases hdvd : s.text.length ∣ transferred
    · obtain ⟨items, rfl⟩ := hdvd
      rw [itemsOf_of_dvd hpos (Nat.dvd_mul_right _ _), ok_bind,
        Nat.mul_div_cancel_left items (Nat.pos_of_ne_zero hpos)]
      by_cases hone : items = 1
      · subst hone
        rw [if_neg (not_not_intro rfl)]
        exact iff_of_true rfl ⟨hempty, Nat.mul_one _⟩
      · rw [if_pos hone]
        refine iff_of_false (fun h => by cases h) fun h => hone ?_
        exact Nat.eq_of_mul_eq_mul_left (Nat.pos_of_ne_zero hpos) (h.2.trans (Nat.mul_one _).symm)
    · rw [itemsOf_of_not_dvd hpos hdvd, error_bind]
      refine iff_of_false (fun h => by cases h) fun h => hdvd ?_
      rw [h.2]

/-- **When the transfers are right.** -/
theorem stdio_items_iff (size nmemb transferred : Nat) (s : CString) :
    (ItemsLaw size nmemb transferred (fread size nmemb transferred) ↔
      size ≠ 0 ∧ size * nmemb < 2 ^ 64 ∧ size ∣ transferred) ∧
    (ItemsLaw size nmemb transferred (fwrite size nmemb transferred) ↔
      size ≠ 0 ∧ size * nmemb < 2 ^ 64 ∧ size ∣ transferred) ∧
    (fputs s.bytes transferred = .ok 0 ↔ s.text ≠ [] ∧ transferred = s.text.length) :=
  ⟨itemsLaw_iff size nmemb transferred, itemsLaw_iff size nmemb transferred,
    fputs_eq_ok_iff s transferred⟩

/-- The empty string; items without bytes; a product that is `2 ^ 64`; and half an item. -/
theorem stdio_items_fail : fputs [0] 0 = .error .divideByZero ∧
    ¬ ItemsLaw 0 4 0 (fwrite 0 4 0) ∧ ¬ ItemsLaw (2 ^ 32) (2 ^ 32) 0 (fread (2 ^ 32) (2 ^ 32) 0) ∧
    ¬ ItemsLaw 4 1 2 (fread 4 1 2) := by
  refine ⟨by decide, fun h => ?_, fun h => ?_, fun h => ?_⟩
  · exact h.divides (itemsOf_zero 0)
  · exact absurd (h.exact 0 (List.mem_singleton_self 0)) (by decide)
  · rcases h.items with hok | ⟨hlarge, -⟩
    · exact absurd hok (by decide)
    · exact absurd hlarge (by decide)

end Stuos.Libc
