import Stuos.Lib.Runs
import Stuos.Libc.Strtok

/-!
# Spans

`strspn` and `strcspn` go on while `strchr` finds the character in the other string, or while it
does not.  `strchr` finds the terminator too, so the end of the string ends `strcspn` but not
`strspn`.

* `strspn_run`: a `strspn` that has a character to stop at stops there.
* `le_of_strspn`: **one that has none goes past the terminator**, whatever lies behind it.
* `strcspn_run`: `strcspn` is right on every string.
-/

namespace Stuos.Libc

open Stuos.Lib

/-! ### The source -/

/-- The loop of `strspn` at `s`, with `result` characters behind it. -/
def strspnFrom (accept : Ptr) (result : Nat) : Ptr → Except Fault Nat
  | [] => .error .overread
  | b :: s => do
    let found ← strchr accept (char b)
    if found.isNone then return result
    else strspnFrom accept (result + 1) s

def strspn (s accept : Ptr) : Except Fault Nat := strspnFrom accept 0 s

def strcspnFrom (reject : Ptr) (result : Nat) : Ptr → Except Fault Nat
  | [] => .error .overread
  | b :: s => do
    let found ← strchr reject (char b)
    if found.isNone then strcspnFrom reject (result + 1) s
    else return result

def strcspn (s reject : Ptr) : Except Fault Nat := strcspnFrom reject 0 s

example : strspn [97, 97, 98, 0] [97, 0] = .ok 2 := by decide
example : strcspn [98, 97, 0] [97, 0] = .ok 1 := by decide

/-! ### One character -/

variable {run : List UInt8} {b : UInt8} {p rest : Ptr}

/-- **`strchr` finds the terminator.** -/
theorem strchr_terminator {text : List UInt8} (htext : ∀ b ∈ text, b ≠ 0) :
    ∃ found, strchr (text ++ [0]) (char 0) = .ok (some found) := by
  induction text with
  | nil => exact ⟨[0], rfl⟩
  | cons b text ih =>
    have hb : b ≠ 0 := htext b (by simp)
    obtain ⟨found, hfound⟩ := ih fun c hc => htext c (by simp [hc])
    refine ⟨found, ?_⟩
    rw [List.cons_append, strchr, if_neg fun h => hb (char_inj.mp h),
      if_neg fun h => hb (char_eq_zero.mp h), hfound]

theorem strchr_found (t : CString) (b : UInt8) : ∃ found, strchr t.bytes (char b) = .ok found ∧
    (found.isNone = true ↔ b ≠ 0 ∧ b ∉ t.text) := by
  by_cases hb : b = 0
  · subst hb
    obtain ⟨found, hfound⟩ := strchr_terminator t.nonzero
    exact ⟨some found, hfound, by simp⟩
  · obtain ⟨found, hfound, hnone⟩ := strchr_isNone t hb
    refine ⟨found, hfound, ?_⟩
    rw [hnone, decide_eq_true_iff]
    exact (and_iff_right hb).symm

variable {t : CString} {result k : Nat}

theorem strspnFrom_stop (hb : b ≠ 0) (h : b ∉ t.text) :
    strspnFrom t.bytes result (b :: p) = .ok result := by
  obtain ⟨found, hfound, hnone⟩ := strchr_found t b
  rw [strspnFrom, hfound, ok_bind, if_pos (hnone.mpr ⟨hb, h⟩)]
  rfl

theorem strspnFrom_go (h : b ∈ t.text ∨ b = 0) :
    strspnFrom t.bytes result (b :: p) = strspnFrom t.bytes (result + 1) p := by
  obtain ⟨found, hfound, hnone⟩ := strchr_found t b
  rw [strspnFrom, hfound, ok_bind, if_neg]
  rw [hnone]
  rintro ⟨hb, hmem⟩
  exact h.elim hmem hb

theorem strcspnFrom_stop (h : b ∈ t.text ∨ b = 0) :
    strcspnFrom t.bytes result (b :: p) = .ok result := by
  obtain ⟨found, hfound, hnone⟩ := strchr_found t b
  rw [strcspnFrom, hfound, ok_bind, if_neg]
  · rfl
  · rw [hnone]
    rintro ⟨hb, hmem⟩
    exact h.elim hmem hb

theorem strcspnFrom_go (hb : b ≠ 0) (h : b ∉ t.text) :
    strcspnFrom t.bytes result (b :: p) = strcspnFrom t.bytes (result + 1) p := by
  obtain ⟨found, hfound, hnone⟩ := strchr_found t b
  rw [strcspnFrom, hfound, ok_bind, if_pos (hnone.mpr ⟨hb, h⟩)]

/-! ### The loops -/

theorem loop_append (loop : Nat → Ptr → Except Fault Nat)
    (hrun : ∀ b ∈ run, ∀ result p, loop result (b :: p) = loop (result + 1) p) (result : Nat)
    (p : Ptr) : loop result (run ++ p) = loop (result + run.length) p := by
  induction run generalizing result with
  | nil => rfl
  | cons b run ih =>
    have hcount : result + 1 + run.length = result + (b :: run).length := by
      rw [List.length_cons]
      omega
    rw [List.cons_append, hrun b (by simp), ih fun c hc => hrun c (by simp [hc]), hcount]

theorem strspnFrom_append (hrun : ∀ b ∈ run, b ∈ t.text) (result : Nat) (p : Ptr) :
    strspnFrom t.bytes result (run ++ p) = strspnFrom t.bytes (result + run.length) p :=
  loop_append (strspnFrom t.bytes) (fun b hb _ _ => strspnFrom_go (.inl (hrun b hb))) result p

theorem strcspnFrom_append (hrun : ∀ b ∈ run, b ≠ 0 ∧ b ∉ t.text) (result : Nat) (p : Ptr) :
    strcspnFrom t.bytes result (run ++ p) = strcspnFrom t.bytes (result + run.length) p :=
  loop_append (strcspnFrom t.bytes)
    (fun b hb _ _ => strcspnFrom_go (hrun b hb).1 (hrun b hb).2) result p

theorem le_of_strspnFrom (h : strspnFrom t.bytes result p = .ok k) : result ≤ k := by
  induction p generalizing result with
  | nil => cases h
  | cons b p ih =>
    by_cases hb : b ∈ t.text ∨ b = 0
    · rw [strspnFrom_go hb] at h
      exact Nat.le_of_succ_le (ih h)
    · rw [not_or] at hb
      rw [strspnFrom_stop hb.2 hb.1, Except.ok.injEq] at h
      exact Nat.le_of_eq h

/-! ### The strings -/

variable {s : CString}

/-- **`strspn` stops** at the first character that is not in the other string. -/
theorem strspn_run (h : ∃ b ∈ s.text, b ∉ t.text) (rest : Ptr) :
    strspn (s.bytes ++ rest) t.bytes = .ok (s.text.takeWhile (· ∈ t.text)).length := by
  have hnot : ¬ ∀ b ∈ s.text, b ∈ t.text := by
    intro hall
    obtain ⟨b, hb, hmem⟩ := h
    exact hmem (hall b hb)
  obtain ⟨run, a, tail, hs, hrun, ha, hdrop⟩ := exists_first_not hnot
  have hne : a ≠ 0 := s.nonzero a (by rw [hs]; simp)
  have htake : s.text.takeWhile (· ∈ t.text) = run := by
    have hsplit := run_append_cons hdrop
    rw [hs] at hsplit
    rw [hs]
    exact List.append_cancel_right hsplit
  show strspnFrom t.bytes 0 (s.text ++ [0] ++ rest) = _
  rw [htake, hs, List.append_assoc, List.append_assoc, strspnFrom_append hrun, List.cons_append,
    strspnFrom_stop hne ha, Nat.zero_add]

/-- **With nothing to stop at, `strspn` goes past the terminator.** -/
theorem le_of_strspn (h : ∀ b ∈ s.text, b ∈ t.text)
    (hk : strspn (s.bytes ++ rest) t.bytes = .ok k) : s.text.length + 1 ≤ k := by
  have hbytes : s.bytes ++ rest = s.text ++ 0 :: rest := List.append_assoc s.text [0] rest
  rw [strspn, hbytes, strspnFrom_append h, strspnFrom_go (.inr rfl), Nat.zero_add] at hk
  exact le_of_strspnFrom hk

/-- **`strcspn` stops** at the first character that is in the other string, or at the terminator. -/
theorem strcspn_run (s t : CString) (rest : Ptr) :
    strcspn (s.bytes ++ rest) t.bytes = .ok (s.text.takeWhile (· ∉ t.text)).length := by
  have hgo : ∀ b ∈ s.text.takeWhile (· ∉ t.text), b ≠ 0 ∧ b ∉ t.text := fun b hb =>
    ⟨s.nonzero b (List.takeWhile_subset _ hb), of_mem_run (p := (· ∉ t.text)) hb⟩
  have hsplit : s.text = s.text.takeWhile (· ∉ t.text) ++ s.text.dropWhile (· ∉ t.text) :=
    List.takeWhile_append_dropWhile.symm
  have hbytes : s.bytes ++ rest =
      s.text.takeWhile (· ∉ t.text) ++ (s.text.dropWhile (· ∉ t.text) ++ 0 :: rest) := by
    rw [← List.append_assoc, ← hsplit]
    exact List.append_assoc s.text [0] rest
  rw [strcspn, hbytes, strcspnFrom_append hgo, Nat.zero_add]
  cases hdrop : s.text.dropWhile (· ∉ t.text) with
  | nil => exact strcspnFrom_stop (.inr rfl)
  | cons b tail =>
    have hmem := not_not.mp (not_of_run_end (p := (· ∉ t.text)) hdrop)
    exact strcspnFrom_stop (.inl hmem)

/-- **When the spans are right**: `strcspn` always is, `strspn` if it has a character to stop at. -/
theorem spans_iff (s t : CString) (rest : Ptr) :
    (strspn (s.bytes ++ rest) t.bytes = .ok (s.text.takeWhile (· ∈ t.text)).length ↔
      ∃ b ∈ s.text, b ∉ t.text) ∧
    strcspn (s.bytes ++ rest) t.bytes = .ok (s.text.takeWhile (· ∉ t.text)).length := by
  refine ⟨⟨fun hk => ?_, fun h => strspn_run h rest⟩, strcspn_run s t rest⟩
  by_contra hall
  have hin : ∀ b ∈ s.text, b ∈ t.text := fun b hb => by_contra fun hmem => hall ⟨b, hb, hmem⟩
  have hlong := le_of_strspn hin hk
  have hle := (List.takeWhile_sublist (l := s.text) (· ∈ t.text)).length_le
  omega

/-- `"aa"` -/
def twoLetters : CString := ⟨[97, 97], by simp, by decide⟩

/-- Nothing to stop at: the byte behind the string is read, and what is there counts. -/
theorem strspn_twoLetters : strspn twoLetters.bytes twoLetters.bytes = .error .overread ∧
    strspn (twoLetters.bytes ++ [98, 0]) twoLetters.bytes ≠
      .ok (twoLetters.text.takeWhile (· ∈ twoLetters.text)).length := by
  decide

end Stuos.Libc
