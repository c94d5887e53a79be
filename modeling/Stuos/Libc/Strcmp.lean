import Stuos.Lib.FirstDifference
import Stuos.Libc.CString

/-!
# Comparing strings

`strcmp` and `strncmp` return the difference of the first bytes that differ, as signed `char`s;
`memcmp` compares the bytes themselves.  The library and the kernel have the same three.

* `memcmp_orders`: `memcmp` orders the bytes.
* `strcmpFrom_orders`, `strncmp_orders`: **the others do exactly if those two bytes lie on the same side
  of 128**, where `strcmp` has to get to them before its `int` overflows.
-/

namespace Stuos.Libc

open Stuos.Lib

/-! ### The source -/

/-- What a comparison must not do. -/
inductive CompareFault
  /-- A byte outside one of the arrays is read. -/
  | overread
  /-- `i++` on the last `int`. -/
  | overflow
  deriving DecidableEq, Repr

def intMax : Nat := 2 ^ 31 - 1

def memcmp : Ptr → Ptr → Nat → Except CompareFault Int
  | _, _, 0 => .ok 0
  | b1 :: p1, b2 :: p2, n + 1 =>
    if b1 ≠ b2 then .ok (if b1 < b2 then -1 else 1) else memcmp p1 p2 n
  | _, _, _ + 1 => .error .overread

/-- `strcmp` from `i` on; the pointers are `&str1[i]` and `&str2[i]`. -/
def strcmpFrom (i : Nat) : Ptr → Ptr → Except CompareFault Int
  | b1 :: str1, b2 :: str2 =>
    if char b1 = char b2 ∧ ¬ (char b1 = 0 ∨ char b2 = 0) then
      if i = intMax then .error .overflow else strcmpFrom (i + 1) str1 str2
    else if char b1 = 0 ∧ char b2 = 0 then .ok 0
    else .ok (char b1 - char b2)
  | _, _ => .error .overread

def strcmp (str1 str2 : Ptr) : Except CompareFault Int := strcmpFrom 0 str1 str2

def strncmp : Ptr → Ptr → Nat → Except CompareFault Int
  | _, _, 0 => .ok 0
  | b1 :: s1, b2 :: s2, n + 1 =>
    -- check for string incorrect
    if char b1 ≠ char b2 then .ok (char b1 - char b2)
    -- check if strings have ended
    else if char b1 = 0 then .ok 0
    else strncmp s1 s2 n
  | _, _, _ + 1 => .error .overread

def strcoll (s1 s2 : Ptr) : Except CompareFault Int := strcmp s1 s2

end Stuos.Libc

namespace Stuos.KernLibc

open Stuos.Libc

/-- The copies in `kern_libc.c`. -/
def strcmp (str1 str2 : Ptr) : Except CompareFault Int := strcmpFrom 0 str1 str2

def memcmp (s1 s2 : Ptr) (n : Nat) : Except CompareFault Int := Libc.memcmp s1 s2 n

def strncmp (s1 s2 : Ptr) (n : Nat) : Except CompareFault Int := Libc.strncmp s1 s2 n

end Stuos.KernLibc

namespace Stuos.Libc

open Stuos.Lib

/-- A comparison returns, with a sign that says how the bytes `u` and `v` are ordered. -/
def Orders (result : Except CompareFault Int) (u v : List UInt8) : Prop :=
  ∃ d, result = .ok d ∧ SignOf d u v

/-- Both are ASCII or neither is. -/
def SameSide (b c : UInt8) : Prop := b < 128 ↔ c < 128

example : strcmp [97, 0] [98, 0] = .ok (-1) := by decide
example : strcmp [195, 169, 0] [122, 0] = .ok (-183) := by decide

/-! ### Two bytes -/

variable {b c : UInt8} {u v : List UInt8} {d : Int}

theorem orders_ok : Orders (.ok d) u v ↔ SignOf d u v := by
  simp only [Orders, Except.ok.injEq, exists_eq_left']

theorem signOf_char_sub (hne : b ≠ c) : SignOf (char b - char c) b c ↔ SameSide b c := by
  have hb := b.toNat_lt
  have hc := c.toNat_lt
  have hne' : b.toNat ≠ c.toNat := fun h => hne (UInt8.toNat_inj.mp h)
  rw [SignOf, SameSide, char_eq, char_eq, UInt8.lt_iff_toNat_lt, UInt8.lt_iff_toNat_lt,
    UInt8.lt_iff_toNat_lt, UInt8.lt_iff_toNat_lt, show (128 : UInt8).toNat = 128 from rfl]
  split <;> split <;> omega

theorem signOf_compare (hne : b ≠ c) : SignOf (if b < c then -1 else 1) b c := by
  by_cases hlt : b < c
  · rw [if_pos hlt, signOf_of_lt hlt]
    decide
  · rw [if_neg hlt, signOf_of_gt (UInt8.lt_of_le_of_ne (UInt8.not_lt.mp hlt) (Ne.symm hne))]
    exact Int.one_pos

theorem zero_lt_of_ne (h : b ≠ 0) : 0 < b := by
  rw [UInt8.lt_iff_toNat_lt]
  exact Nat.pos_of_ne_zero fun h0 => h (UInt8.toNat_inj.mp h0)

/-! ### The first bytes -/

theorem append_zero_eq (u : List UInt8) : ∃ p, u ++ [0] = u.headD 0 :: p := by
  cases u with
  | nil => exact ⟨[], rfl⟩
  | cons b u => exact ⟨u ++ [0], rfl⟩

theorem headD_take_succ (u : List UInt8) (n : Nat) : (u.take (n + 1)).headD 0 = u.headD 0 := by
  cases u with
  | nil => rfl
  | cons b u => rfl

/-- **The first bytes decide**, and the terminator is before all others. -/
theorem signOf_of_headD_ne (h : u.headD 0 ≠ v.headD 0) :
    SignOf d u v ↔ SignOf d (u.headD 0) (v.headD 0) := by
  cases u with
  | nil =>
    cases v with
    | nil => exact absurd rfl h
    | cons c v =>
      have hc : c ≠ 0 := Ne.symm h
      rw [signOf_of_lt (List.nil_lt_cons c v)]
      exact (signOf_of_lt (zero_lt_of_ne hc)).symm
  | cons b u =>
    cases v with
    | nil =>
      have hb : b ≠ 0 := h
      rw [signOf_of_gt (List.nil_lt_cons b u)]
      exact (signOf_of_gt (zero_lt_of_ne hb)).symm
    | cons c v => exact signOf_cons_of_ne h

/-- Two strings read side by side: they end together, one of them ends, they differ, or they go on. -/
inductive SideBySide : List UInt8 → List UInt8 → Prop
  | both : SideBySide [] []
  | left (c : UInt8) (v : List UInt8) : c ≠ 0 → SideBySide [] (c :: v)
  | right (b : UInt8) (u : List UInt8) : b ≠ 0 → SideBySide (b :: u) []
  | differ (b c : UInt8) (u v : List UInt8) : b ≠ c → SideBySide (b :: u) (c :: v)
  | same (b : UInt8) (u v : List UInt8) : b ≠ 0 → SideBySide u v → SideBySide (b :: u) (b :: v)

theorem sideBySide (hu : ∀ b ∈ u, b ≠ 0) (hv : ∀ b ∈ v, b ≠ 0) : SideBySide u v := by
  induction u generalizing v with
  | nil =>
    cases v with
    | nil => exact .both
    | cons c v => exact .left c v (hv c (by simp))
  | cons b u ih =>
    cases v with
    | nil => exact .right b u (hu b (by simp))
    | cons c v =>
      by_cases hbc : b = c
      · subst hbc
        apply SideBySide.same b u v (hu b (by simp))
        exact ih (fun b h => hu b (by simp [h])) (fun b h => hv b (by simp [h]))
      · exact .differ b c u v hbc

/-- Where one of them ends the first bytes differ too: three cases are left. -/
@[elab_as_elim]
theorem SideBySide.induction_first {motive : ∀ u v, SideBySide u v → Prop}
    (both : motive [] [] .both)
    (differ : ∀ u v (h : SideBySide u v), u.headD 0 ≠ v.headD 0 → motive u v h)
    (same : ∀ b u v (hb : b ≠ 0) (h : SideBySide u v), motive u v h →
      motive (b :: u) (b :: v) (.same b u v hb h))
    (h : SideBySide u v) : motive u v h := by
  induction h with
  | both => exact both
  | left c v hc => exact differ _ _ _ (Ne.symm hc)
  | right b u hb => exact differ _ _ _ hb
  | differ b c u v hbc => exact differ _ _ _ hbc
  | same b u v hb h ih => exact same b u v hb h ih

/-! ### The loops -/

theorem strcmpFrom_of_ne (i : Nat) (p q : Ptr) (hne : b ≠ c) :
    strcmpFrom i (b :: p) (c :: q) = .ok (char b - char c) := by
  rw [strcmpFrom, if_neg fun h => hne (char_inj.mp h.1),
    if_neg fun h => hne (char_inj.mp (h.1.trans h.2.symm))]

theorem strcmpFrom_same (i : Nat) (p q : Ptr) (hb : b ≠ 0) :
    strcmpFrom i (b :: p) (b :: q) =
      if i = intMax then .error .overflow else strcmpFrom (i + 1) p q := by
  have hb' : char b ≠ 0 := fun h => hb (char_eq_zero.mp h)
  rw [strcmpFrom, if_pos ⟨rfl, fun h => hb' (h.elim id id)⟩]

theorem strncmp_zero (p q : Ptr) : strncmp p q 0 = .ok 0 := by
  rw [strncmp]

theorem strncmp_of_ne (n : Nat) (p q : Ptr) (hne : b ≠ c) :
    strncmp (b :: p) (c :: q) (n + 1) = .ok (char b - char c) := by
  rw [strncmp, if_pos fun h => hne (char_inj.mp h)]

theorem strncmp_same (n : Nat) (p q : Ptr) (hb : b ≠ 0) :
    strncmp (b :: p) (b :: q) (n + 1) = strncmp p q n := by
  rw [strncmp, if_neg (not_not_intro rfl), if_neg fun h => hb (char_eq_zero.mp h)]

theorem memcmp_of_ne (n : Nat) (p q : Ptr) (hne : b ≠ c) :
    memcmp (b :: p) (c :: q) (n + 1) = .ok (if b < c then -1 else 1) := by
  rw [memcmp, if_pos hne]

theorem memcmp_same (n : Nat) (p q : Ptr) :
    memcmp (b :: p) (b :: q) (n + 1) = memcmp p q n := by
  rw [memcmp, if_neg (not_not_intro rfl)]

/-- **`memcmp` orders the bytes**, up to the terminator of the shorter string. -/
theorem memcmp_orders (h : SideBySide u v) :
    Orders (memcmp (u ++ [0]) (v ++ [0]) (min u.length v.length + 1)) u v := by
  induction h using SideBySide.induction_first with
  | both => exact orders_ok.mpr (signOf_self.mpr rfl)
  | differ u v _ hne =>
    obtain ⟨p, hp⟩ := append_zero_eq u
    obtain ⟨q, hq⟩ := append_zero_eq v
    rw [hp, hq, memcmp_of_ne _ _ _ hne, orders_ok, signOf_of_headD_ne hne]
    exact signOf_compare hne
  | same b u v hb _ ih =>
    rw [List.cons_append, List.cons_append, List.length_cons, List.length_cons,
      Nat.add_min_add_right, memcmp_same]
    obtain ⟨d, hd, hsign⟩ := ih
    exact ⟨d, hd, signOf_cons_self.mpr hsign⟩

theorem strncmp_orders_zero (u v : List UInt8) :
    Orders (strncmp (u ++ [0]) (v ++ [0]) 0) (u.take 0) (v.take 0) ↔
      AtFirstDifference SameSide (u.take 0 ++ [0]) (v.take 0 ++ [0]) := by
  rw [strncmp_zero, List.take_zero, List.take_zero, orders_ok]
  exact iff_of_true (signOf_self.mpr rfl) (atFirstDifference_self _ _)

/-- **`strncmp` orders the first `n` bytes** exactly if those that differ are on one side of 128. -/
theorem strncmp_orders (h : SideBySide u v) (n : Nat) :
    Orders (strncmp (u ++ [0]) (v ++ [0]) n) (u.take n) (v.take n) ↔
      AtFirstDifference SameSide (u.take n ++ [0]) (v.take n ++ [0]) := by
  induction h using SideBySide.induction_first generalizing n with
  | both =>
    rw [List.take_nil]
    refine iff_of_true ?_ (atFirstDifference_self _ _)
    cases n <;> exact orders_ok.mpr (signOf_self.mpr rfl)
  | differ u v _ hne =>
    cases n with
    | zero => exact strncmp_orders_zero u v
    | succ n =>
      obtain ⟨p, hp⟩ := append_zero_eq u
      obtain ⟨q, hq⟩ := append_zero_eq v
      obtain ⟨p', hp'⟩ := append_zero_eq (u.take (n + 1))
      obtain ⟨q', hq'⟩ := append_zero_eq (v.take (n + 1))
      have htake : (u.take (n + 1)).headD 0 ≠ (v.take (n + 1)).headD 0 := by
        rw [headD_take_succ, headD_take_succ]
        exact hne
      rw [hp, hq, hp', hq', strncmp_of_ne _ _ _ hne, orders_ok, signOf_of_headD_ne htake,
        atFirstDifference_cons_of_ne htake, headD_take_succ, headD_take_succ, signOf_char_sub hne]
  | same b u v hb _ ih =>
    cases n with
    | zero => exact strncmp_orders_zero (b :: u) (b :: v)
    | succ n =>
      rw [List.take_succ_cons, List.take_succ_cons]
      simp only [List.cons_append]
      rw [strncmp_same _ _ _ hb, atFirstDifference_cons_self, ← ih n]
      simp only [Orders, signOf_cons_self]

/-- **`strcmp` orders the bytes** exactly if it gets to those that differ and they are on one side of
128. -/
theorem strcmpFrom_orders (h : SideBySide u v) (i k : Nat) (hik : i + (k + 1) = 2 ^ 31) :
    Orders (strcmpFrom i (u ++ [0]) (v ++ [0])) u v ↔
      CommonBelow (k + 1) u v ∧ AtFirstDifference SameSide (u ++ [0]) (v ++ [0]) := by
  induction h using SideBySide.induction_first generalizing i k with
  | both =>
    refine iff_of_true (orders_ok.mpr (signOf_self.mpr rfl)) ?_
    exact ⟨commonBelow_nil, atFirstDifference_self _ _⟩
  | differ u v _ hne =>
    obtain ⟨p, hp⟩ := append_zero_eq u
    obtain ⟨q, hq⟩ := append_zero_eq v
    have hcommon : CommonBelow (k + 1) u v := commonBelow_of_append
      (by rw [hp, hq]; exact commonBelow_cons_of_ne hne)
    rw [hp, hq, strcmpFrom_of_ne _ _ _ hne, orders_ok, signOf_of_headD_ne hne,
      signOf_char_sub hne, atFirstDifference_cons_of_ne hne]
    exact (and_iff_right hcommon).symm
  | same b u v hb _ ih =>
    rw [List.cons_append, List.cons_append, strcmpFrom_same _ _ _ hb, commonBelow_cons_self,
      atFirstDifference_cons_self]
    cases k with
    | zero =>
      -- the next `i++` overflows
      rw [if_pos (by unfold intMax; omega)]
      refine iff_of_false ?_ fun h => not_commonBelow_zero u v h.1
      rintro ⟨d, hd, -⟩
      cases hd
    | succ k =>
      rw [if_neg (by unfold intMax; omega), ← ih (i + 1) k (by omega)]
      simp only [Orders, signOf_cons_self]

/-! ### The strings -/

/-- **When the comparisons give the order of the bytes.** -/
theorem comparisons_order_iff (a b : CString) (n : Nat) :
    (Orders (strcmp a.bytes b.bytes) a.text b.text ↔
      CommonBelow (2 ^ 31) a.text b.text ∧ AtFirstDifference SameSide a.bytes b.bytes) ∧
    (Orders (KernLibc.strcmp a.bytes b.bytes) a.text b.text ↔
      CommonBelow (2 ^ 31) a.text b.text ∧ AtFirstDifference SameSide a.bytes b.bytes) ∧
    (Orders (strcoll a.bytes b.bytes) a.text b.text ↔
      CommonBelow (2 ^ 31) a.text b.text ∧ AtFirstDifference SameSide a.bytes b.bytes) ∧
    (Orders (strncmp a.bytes b.bytes n) (a.text.take n) (b.text.take n) ↔
      AtFirstDifference SameSide (a.text.take n ++ [0]) (b.text.take n ++ [0])) ∧
    (Orders (KernLibc.strncmp a.bytes b.bytes n) (a.text.take n) (b.text.take n) ↔
      AtFirstDifference SameSide (a.text.take n ++ [0]) (b.text.take n ++ [0])) ∧
    Orders (memcmp a.bytes b.bytes (min a.text.length b.text.length + 1)) a.text b.text ∧
    Orders (KernLibc.memcmp a.bytes b.bytes (min a.text.length b.text.length + 1))
      a.text b.text := by
  have h : SideBySide a.text b.text := sideBySide a.nonzero b.nonzero
  have hstrcmp := strcmpFrom_orders h 0 (2 ^ 31 - 1) rfl
  have hstrncmp := strncmp_orders h n
  have hmemcmp := memcmp_orders h
  exact ⟨hstrcmp, hstrcmp, hstrcmp, hstrncmp, hstrncmp, hmemcmp, hmemcmp⟩

/-- `"é"` in UTF-8, and `"z"`. -/
def accented : CString := ⟨[195, 169], by simp, by decide⟩

def plain : CString := ⟨[122], by simp, by decide⟩

theorem strcmp_accented : ¬ Orders (strcmp accented.bytes plain.bytes) accented.text plain.text := by
  rintro ⟨d, hd, -, hpos⟩
  rw [show strcmp accented.bytes plain.bytes = .ok (-183) by decide, Except.ok.injEq] at hd
  subst hd
  exact absurd (hpos.mpr (by decide)) (by decide)

end Stuos.Libc
