import Stuos.Lib.Bytes
import Stuos.Libc.CString

/-!
# Copies of `n` bytes

`stpncpy` counts `n` down in the conditions of two loops, and after the first the counter is one less
than the room that is left: right if the terminator has been written, and the largest `size_t` if
the room ran out.  `strncpy` counts up.

* `strncpy_eq`: `strncpy` writes the `n` bytes.
* `stpncpy_of_lt`: with room for the terminator `stpncpy` writes them too, and returns their end.
* `stpncpy_of_ge`: **without, it goes on to write zeros over all of the memory**.
-/

namespace Stuos.Libc

open Stuos.Lib

/-! ### The source -/

/-- The bytes that are written from `dest` on, and the pointer that is returned. -/
structure Copied where
  written : List UInt8
  result : Nat
  deriving DecidableEq

/-- `while (n-- > 0) *dest++ = '\\0';` -/
def padZeros : Nat → List UInt8
  | 0 => []
  | n + 1 => 0 :: padZeros n

/-- The first loop of `stpncpy`: what it writes, and what it leaves in `n`. -/
def stpncpyText : Nat → Ptr → Except Fault (List UInt8 × Nat)
  | 0, _ => .ok ([], u64 (0 + 2 ^ 64 - 1))
  | _ + 1, [] => .error .overread
  | n + 1, b :: src =>
    if b = 0 then .ok ([b], n)
    else do
      let (written, n) ← stpncpyText n src
      return (b :: written, n)

def stpncpy (dest : Nat) (src : Ptr) (n : Nat) : Except Fault Copied := do
  let (text, n) ← stpncpyText n src
  let written := text ++ padZeros n
  return { written := written, result := u64 (dest + written.length) }

/-- The first loop of `strncpy`: what it writes, and the rounds that are left. -/
def strncpyText : Nat → Ptr → Except Fault (List UInt8 × Nat)
  | 0, _ => .ok ([], 0)
  | _ + 1, [] => .error .overread
  | n + 1, b :: src =>
    if b ≠ 0 then do
      let (written, n) ← strncpyText n src
      return (b :: written, n)
    else .ok ([], n + 1)

def strncpy (dest : Nat) (src : Ptr) (n : Nat) : Except Fault Copied := do
  let (text, n) ← strncpyText n src
  return { written := text ++ padZeros n, result := dest }

/-! ### What should be written -/

/-- The first `n` bytes of the string, filled up with zeros. -/
def firstBytes (src : CString) (n : Nat) : List UInt8 :=
  src.text.take n ++ List.replicate (n - src.text.length) 0

/-- The `n` bytes are written, and the place of the first zero or the end is returned. -/
def BoundedCopy (dest : Nat) (src : CString) (n : Nat) (copied : Except Fault Copied) : Prop :=
  copied = .ok { written := firstBytes src n
                 result := u64 (dest + min n src.text.length) }

instance (dest : Nat) (src : CString) (n : Nat) (copied : Except Fault Copied) :
    Decidable (BoundedCopy dest src n copied) := inferInstanceAs (Decidable (_ = _))

/-! ### The loops -/

variable {text : List UInt8} {n : Nat}

theorem padZeros_eq (n : Nat) : padZeros n = List.replicate n 0 := by
  induction n with
  | zero => rfl
  | succ n ih => rw [padZeros, ih, List.replicate_succ]

theorem length_firstBytes (src : CString) (n : Nat) : (firstBytes src n).length = n := by
  rw [firstBytes, List.length_append, List.length_take, List.length_replicate]
  omega

theorem stpncpyText_of_lt (htext : ∀ b ∈ text, b ≠ 0) (rest : Ptr) (h : text.length < n) :
    stpncpyText n (text ++ 0 :: rest) = .ok (text ++ [0], n - text.length - 1) := by
  induction text generalizing n with
  | nil =>
    cases n with
    | zero => exact absurd h (Nat.not_lt_zero _)
    | succ n => rw [List.nil_append, stpncpyText, if_pos rfl]; rfl
  | cons b text ih =>
    cases n with
    | zero => exact absurd h (Nat.not_lt_zero _)
    | succ n =>
      have hlt : text.length < n := Nat.lt_of_succ_lt_succ h
      rw [List.cons_append, stpncpyText, if_neg (htext b (by simp)),
        ih (fun c hc => htext c (by simp [hc])) hlt, ok_bind, List.length_cons, Nat.add_sub_add_right]
      rfl

/-- The room runs out, and the counter wraps. -/
theorem stpncpyText_of_ge (htext : ∀ b ∈ text, b ≠ 0) (rest : Ptr) (h : n ≤ text.length) :
    stpncpyText n (text ++ 0 :: rest) = .ok (text.take n, 2 ^ 64 - 1) := by
  induction text generalizing n with
  | nil =>
    obtain rfl : n = 0 := Nat.le_zero.mp h
    rfl
  | cons b text ih =>
    cases n with
    | zero => rfl
    | succ n =>
      have hle : n ≤ text.length := Nat.le_of_succ_le_succ h
      rw [List.cons_append, stpncpyText, if_neg (htext b (by simp)),
        ih (fun c hc => htext c (by simp [hc])) hle, ok_bind, List.take_succ_cons]
      rfl

theorem strncpyText_eq (htext : ∀ b ∈ text, b ≠ 0) (rest : Ptr) (n : Nat) :
    strncpyText n (text ++ 0 :: rest) = .ok (text.take n, n - text.length) := by
  induction text generalizing n with
  | nil =>
    cases n with
    | zero => rfl
    | succ n => rw [List.nil_append, strncpyText, if_neg (not_not_intro rfl)]; rfl
  | cons b text ih =>
    cases n with
    | zero => rw [List.cons_append, strncpyText, List.take_zero, Nat.zero_sub]
    | succ n =>
      rw [List.cons_append, strncpyText, if_pos (htext b (by simp)),
        ih (fun c hc => htext c (by simp [hc])), ok_bind, List.take_succ_cons, List.length_cons,
        Nat.add_sub_add_right]
      rfl

/-! ### The functions -/

variable {dest : Nat} {src : CString}

/-- **`strncpy`** writes the `n` bytes. -/
theorem strncpy_eq (dest : Nat) (src : CString) (n : Nat) :
    strncpy dest src.bytes n = .ok { written := firstBytes src n, result := dest } := by
  rw [strncpy, CString.bytes, strncpyText_eq src.nonzero [] n, ok_bind]
  show Except.ok _ = _
  rw [padZeros_eq, firstBytes]

/-- **With room for the terminator** the bytes are right, and their end is returned. -/
theorem stpncpy_of_lt (h : src.text.length < n) : stpncpy dest src.bytes n =
    .ok { written := firstBytes src n, result := u64 (dest + n) } := by
  have hbytes : src.text ++ [0] ++ padZeros (n - src.text.length - 1) = firstBytes src n := by
    obtain ⟨k, rfl⟩ := Nat.exists_eq_add_of_lt h
    rw [firstBytes, List.take_of_length_le (Nat.le_of_lt h), List.append_assoc, padZeros_eq,
      show src.text.length + k + 1 - src.text.length = k + 1 by omega, Nat.add_sub_cancel,
      List.replicate_succ, List.singleton_append]
  rw [stpncpy, CString.bytes, stpncpyText_of_lt src.nonzero [] h, ok_bind]
  show Except.ok _ = _
  simp only [hbytes, length_firstBytes]

/-- **Without room for it** zeros follow, as many as a `size_t` can count. -/
theorem stpncpy_of_ge (h : n ≤ src.text.length) : stpncpy dest src.bytes n =
    .ok { written := firstBytes src n ++ List.replicate (2 ^ 64 - 1) 0
          result := u64 (dest + (n + (2 ^ 64 - 1))) } := by
  have hfirst : src.text.take n = firstBytes src n := by
    rw [firstBytes, Nat.sub_eq_zero_of_le h, List.replicate_zero, List.append_nil]
  rw [stpncpy, CString.bytes, stpncpyText_of_ge src.nonzero [] h, ok_bind]
  show Except.ok _ = _
  rw [hfirst, padZeros_eq, List.length_append, length_firstBytes, List.length_replicate]

/-- **`stpncpy` is never right**: it writes too much, or it returns the end though there is a zero. -/
theorem stpncpy_not_boundedCopy (dest : Nat) (src : CString) (hn : n < 2 ^ 64) :
    ¬ BoundedCopy dest src n (stpncpy dest src.bytes n) := by
  intro hcopy
  by_cases h : src.text.length < n
  · rw [BoundedCopy, stpncpy_of_lt h, Nat.min_eq_right (Nat.le_of_lt h)] at hcopy
    have hresult : u64 (dest + n) = u64 (dest + src.text.length) :=
      congrArg Copied.result (Except.ok.inj hcopy)
    unfold u64 at hresult
    omega
  · rw [BoundedCopy, stpncpy_of_ge (Nat.le_of_not_lt h)] at hcopy
    have hwritten := congrArg (fun c => c.written.length) (Except.ok.inj hcopy)
    simp only [List.length_append, List.length_replicate] at hwritten
    omega

/-- `"a"` -/
def oneLetter : CString := ⟨[97], by simp, by decide⟩

theorem stpncpy_oneLetter : ¬ BoundedCopy 4096 oneLetter 4 (stpncpy 4096 oneLetter.bytes 4) :=
  stpncpy_not_boundedCopy 4096 oneLetter (by decide)

/-- With room for three the end is returned, and with room for one the zeros run over. -/
theorem stpncpy_oneLetter_others :
    ¬ BoundedCopy 4096 oneLetter 3 (stpncpy 4096 oneLetter.bytes 3) ∧
      ¬ BoundedCopy 4096 oneLetter 1 (stpncpy 4096 oneLetter.bytes 1) := by
  refine ⟨by decide, fun hcopy => ?_⟩
  rw [BoundedCopy, stpncpy_of_ge (by decide)] at hcopy
  have hwritten := congrArg (fun c => c.written.length) (Except.ok.inj hcopy)
  simp only [List.length_append, length_firstBytes, List.length_replicate] at hwritten
  omega

end Stuos.Libc
