import Mathlib.Algebra.Order.Ring.Int
import Mathlib.Data.List.TakeWhile
import Stuos.Lib.Halt

/-!
# Strings of C

A string is the bytes before its terminator, none of them zero (`CString`); in memory the
terminator follows them (`bytes`).  A pointer into an array is the rest of the array from it on
(`Ptr`), and reading where nothing is left is a fault.  A `char` is signed (`char`).

`strchr` and `strchrnul` look for a character; `strchr_eq` and `strchrnul_eq` say where they find it.
-/

namespace Stuos.Libc

open Stuos.Lib

/-- What a function must not do. -/
inductive Fault
  /-- A byte outside the array is read. -/
  | overread
  /-- `abort` is called. -/
  | abort
  deriving DecidableEq, Repr

/-- A pointer into an array of bytes: the array from there on. -/
abbrev Ptr := List UInt8

/-- `*p`. -/
def deref (p : Ptr) : Except Fault UInt8 := orHalt .overread p.head?

/-- A string without its terminator. -/
structure CString where
  text : List UInt8
  nonzero : ∀ c ∈ text, c ≠ 0
  /-- No byte of the string is at the address 0. -/
  fits : text.length + 1 < 2 ^ 64
  deriving DecidableEq

/-- A string in memory. -/
def CString.bytes (s : CString) : Ptr := s.text ++ [0]

/-- A byte as a `char`. -/
def char (b : UInt8) : Int := b.toInt8.toInt

/-- The bits of a 64-bit number as a `long`. -/
def toLong (n : Nat) : Int := if n < 2 ^ 63 then n else (n : Int) - 2 ^ 64

@[simp] theorem deref_cons (c : UInt8) (p : Ptr) : deref (c :: p) = .ok c := rfl

theorem char_eq (b : UInt8) :
    char b = if b.toNat < 128 then (b.toNat : Int) else (b.toNat : Int) - 256 := by
  rw [char, ← Int8.toInt_toBitVec, UInt8.toBitVec_toInt8, BitVec.toInt_eq_toNat_cond]
  have hlt : b.toNat < 256 := b.toNat_lt
  simp only [UInt8.toNat_toBitVec]
  split <;> split <;> omega

theorem char_inj {b c : UInt8} : char b = char c ↔ b = c := by
  rw [char_eq, char_eq, ← UInt8.toNat_inj]
  have hb := b.toNat_lt
  have hc := c.toNat_lt
  split <;> split <;> omega

theorem char_eq_zero {b : UInt8} : char b = 0 ↔ b = 0 := char_inj (c := 0)

/-! ### Looking for a character -/

def strchr : Ptr → Int → Except Fault (Option Ptr)
  | [], _ => .error .overread
  | b :: s, c =>
    if char b = c then .ok (some (b :: s))
    else if char b = 0 then .ok none
    else strchr s c

def strchrnul : Ptr → Int → Except Fault Ptr
  | [], _ => .error .overread
  | b :: s, c =>
    if char b = c then .ok (b :: s)
    else if char b = 0 then .ok (b :: s)
    else strchrnul s c

variable {text : List UInt8} {c : UInt8}

theorem strchr_eq (htext : ∀ b ∈ text, b ≠ 0) (hc : c ≠ 0) (rest : List UInt8) :
    strchr (text ++ 0 :: rest) (char c) =
      .ok (if c ∈ text then some (text.dropWhile (· ≠ c) ++ 0 :: rest) else none) := by
  induction text with
  | nil =>
    rw [List.nil_append, strchr, if_neg (fun h => hc (char_inj.mp h).symm),
      if_pos (char_eq_zero.mpr rfl),
      if_neg List.not_mem_nil]
  | cons b text ih =>
    rw [List.cons_append, strchr]
    by_cases hbc : b = c
    · rw [if_pos (char_inj.mpr hbc), if_pos (by simp [hbc]),
        List.dropWhile_cons_of_neg (by simp [hbc]), List.cons_append]
    · rw [if_neg (fun h => hbc (char_inj.mp h)),
        if_neg (fun h => htext b (by simp) (char_eq_zero.mp h)),
        ih fun b hb => htext b (by simp [hb]), List.dropWhile_cons_of_pos (by simpa using hbc)]
      simp only [List.mem_cons, Ne.symm hbc, false_or]

theorem strchrnul_eq (htext : ∀ b ∈ text, b ≠ 0) (c : UInt8) (rest : List UInt8) :
    strchrnul (text ++ 0 :: rest) (char c) = .ok (text.dropWhile (· ≠ c) ++ 0 :: rest) := by
  induction text with
  | nil =>
    rw [List.nil_append, strchrnul]
    split
    · rfl
    · rw [if_pos (char_eq_zero.mpr rfl)]
      rfl
  | cons b text ih =>
    rw [List.cons_append, strchrnul]
    by_cases hbc : b = c
    · rw [if_pos (char_inj.mpr hbc), List.dropWhile_cons_of_neg (by simp [hbc]), List.cons_append]
    · rw [if_neg (fun h => hbc (char_inj.mp h)),
        if_neg (fun h => htext b (by simp) (char_eq_zero.mp h)),
        ih fun b hb => htext b (by simp [hb]), List.dropWhile_cons_of_pos (by simpa using hbc)]

end Stuos.Libc
