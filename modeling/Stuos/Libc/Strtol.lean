import Stuos.Lib.Bytes
import Stuos.Lib.Digits
import Stuos.Libc.CString

/-!
# Numbers in strings

`strtol` and `strtoul` read a number from the front of a string: white space, a sign, with base 0 a
prefix that chooses the base, and digits.  `strto` does the reading for both; it stops at the first
character that is no digit of the base and reports numbers above `ULONG_MAX` as `overflow`.

`denoted` is the number the front of a string stands for.  `strto_eq` says what `strto` returns.
-/

namespace Stuos.Libc

open Stuos.Lib

def ULONG_MAX : Nat := 2 ^ 64 - 1
def LONG_MAX : Int := 2 ^ 63 - 1
def LONG_MIN : Int := -2 ^ 63
def EINVAL : Int := 22
def ERANGE : Int := 34

/-! ### The source -/

def isspace (c : Int) : Bool :=
  c = 32 || c = 12 || c = 10 || c = 13 || c = 9 || c = 11  -- ' ', \f, \n, \r, \t, \v

def tolower (c : Int) : Int :=
  let uc := c % 256
  if 65 ≤ uc ∧ uc ≤ 90 then uc + 32 else c  -- 'A' to 'Z'

def digit_value (c : Int) : Int :=
  let c := tolower c
  if 48 ≤ c ∧ c ≤ 57 then c - 48  -- '0' to '9'
  else if 97 ≤ c ∧ c ≤ 122 then c - 97 + 10  -- 'a' to 'z'
  else -1

structure StrToResult where
  overflow : Bool := false
  sign : Bool := false
  magnitude : Nat := 0
  deriving DecidableEq, Repr

/-- The loop over the white space. -/
def skip_spaces : Ptr → Except Fault Ptr
  | [] => .error .overread
  | c :: rest => if isspace (char c) then skip_spaces rest else .ok (c :: rest)

/-- The switch over the sign: whether there is a minus, and where to go on. -/
def eat_sign (current : Ptr) : Except Fault (Bool × Ptr) := do
  let c ← deref current
  if char c = 43 then return (false, current.tail)  -- '+'
  else if char c = 45 then return (true, current.tail)  -- '-'
  else return (false, current)

/-- The default for a base that is not set. -/
def default_base (current : Ptr) : Except Fault (Int × Ptr) := do
  let c ← deref current
  if char c = 48 then  -- '0'
    let c1 ← deref current.tail
    if tolower (char c1) = 120 then return (16, current.drop 2)  -- 'x'
    else return (8, current)
  else return (10, current)

/-- The digit loop; the character that ends the number is read, and passed, too. -/
def eat_digits (base : Int) : Ptr → StrToResult → Except Fault (StrToResult × Ptr)
  | [], _ => .error .overread
  | c :: rest, result =>
    if c = 0 then .ok (result, c :: rest)
    else
      let d := digit_value (char c)
      if d < 0 ∨ d ≥ base then .ok (result, rest)
      else if result.overflow then eat_digits base rest result
      else if result.magnitude > (ULONG_MAX - d.toNat) / base.toNat then
        eat_digits base rest { result with overflow := true }
      else eat_digits base rest
        { result with magnitude := u64 (result.magnitude * base.toNat + d.toNat) }

/-- Where `endptr` is not `NULL`, `*endptr` gets the end. -/
def strto (nptr : Ptr) (endptr : Option Ptr) (base : Int) :
    Except Fault (StrToResult × Option Ptr) := do
  let current ← skip_spaces nptr
  let (sign, current) ← eat_sign current
  let (base, current) ← (if base = 0 then default_base current else pure (base, current))
  let (result, stop) ← eat_digits base current { sign := sign }
  if stop.length = current.length then return (result, endptr.map fun _ => nptr)
  else return (result, endptr.map fun _ => stop)

/-- What a call leaves behind. -/
structure Returned (α : Type) where
  value : α
  endptr : Option Ptr
  errno : Int
  deriving DecidableEq, Repr

/-- `-n` in 64 bits. -/
def negate (n : Nat) : Nat := u64 (2 ^ 64 - n)

def strtol (nptr : Ptr) (endptr : Option Ptr) (base errno : Int) :
    Except Fault (Returned Int) := do
  if base > 36 then return ⟨0, endptr, EINVAL⟩
  else
    let (r, endptr) ← strto nptr endptr base
    if r.sign then
      if (r.magnitude : Int) > LONG_MAX + 1 ∨ r.overflow then return ⟨LONG_MIN, endptr, ERANGE⟩
      else return ⟨toLong (negate r.magnitude), endptr, errno⟩
    else if (r.magnitude : Int) > LONG_MAX ∨ r.overflow then return ⟨LONG_MAX, endptr, ERANGE⟩
    else return ⟨toLong r.magnitude, endptr, errno⟩

def strtoul (nptr : Ptr) (endptr : Option Ptr) (base errno : Int) :
    Except Fault (Returned Nat) := do
  if base > 36 then return ⟨0, endptr, EINVAL⟩
  else
    let (r, endptr) ← strto nptr endptr base
    if r.sign then
      if r.overflow then return ⟨ULONG_MAX, endptr, ERANGE⟩
      else return ⟨negate r.magnitude, endptr, errno⟩
    else if r.overflow then return ⟨ULONG_MAX, endptr, ERANGE⟩
    else return ⟨r.magnitude, endptr, errno⟩

example : strtol [45, 90, 49, 0] (some []) 36 0 = .ok ⟨-(35 * 36 + 1), some [0], 0⟩ := by decide

/-! ### Digits and numbers -/

/-- The value of a digit. -/
def digit (c : UInt8) : Option Nat :=
  if 48 ≤ c.toNat ∧ c.toNat ≤ 57 then some (c.toNat - 48)
  else if 65 ≤ c.toNat ∧ c.toNat ≤ 90 then some (c.toNat - 55)
  else if 97 ≤ c.toNat ∧ c.toNat ≤ 122 then some (c.toNat - 87)
  else none

/-- A digit of base `b`. -/
def IsDigit (b : Nat) (c : UInt8) : Prop := ∃ d < b, digit c = some d

/-- White space. -/
def IsSpace (c : UInt8) : Prop := c ∈ ([32, 9, 10, 11, 12, 13] : List UInt8)

/-- A sign. -/
def IsSign (c : UInt8) : Prop := c = 43 ∨ c = 45

instance (b : Nat) (c : UInt8) : Decidable (IsDigit b c) :=
  decidable_of_iff ((digit c).any (· < b)) (by cases h : digit c <;> simp [IsDigit, h])

instance (c : UInt8) : Decidable (IsSpace c) := inferInstanceAs (Decidable (c ∈ _))

instance (c : UInt8) : Decidable (IsSign c) := inferInstanceAs (Decidable (_ ∨ _))

/-- `0x` or `0X` is in front. -/
def Marked : List UInt8 → Bool
  | c :: x :: _ => c = 48 && (x = 120 || x = 88)
  | _ => false

/-- What follows the white space. -/
def trimmed (text : List UInt8) : List UInt8 := text.dropWhile (IsSpace ·)

/-- What follows the sign. -/
def unsigned (text : List UInt8) : List UInt8 :=
  match trimmed text with
  | [] => []
  | c :: rest => if IsSign c then rest else c :: rest

/-- A minus is in front. -/
def Negative (text : List UInt8) : Bool := (trimmed text).head? = some 45

/-- The base, chosen by the prefix if it is 0. -/
def radix (base : Int) (text : List UInt8) : Nat :=
  if base ≠ 0 then base.toNat
  else if Marked (unsigned text) then 16
  else if (unsigned text).head? = some 48 then 8
  else 10

/-- Where the digits begin. -/
def numeral (base : Int) (text : List UInt8) : List UInt8 :=
  if base = 0 ∧ Marked (unsigned text) then (unsigned text).drop 2 else unsigned text

/-- The longest run of digits. -/
def digitRun (base : Int) (text : List UInt8) : List UInt8 :=
  (numeral base text).takeWhile (IsDigit (radix base text) ·)

/-- The number without its sign. -/
def absolute (base : Int) (text : List UInt8) : Nat :=
  Digits.value (radix base text) ((digitRun base text).filterMap digit)

/-- The number the front of the text stands for. -/
def denoted (base : Int) (text : List UInt8) : Int :=
  if Negative text then -(absolute base text : Int) else absolute base text

/-! ### Characters -/

theorem char_eq_iff {c k : UInt8} (hk : k.toNat < 128) : char c = k.toNat ↔ c = k := by
  rw [char_eq, ← UInt8.toNat_inj]
  have hc := c.toNat_lt
  split <;> omega

theorem isspace_char (c : UInt8) : isspace (char c) = decide (IsSpace c) := by
  have h (k : UInt8) (hk : k.toNat < 128) : char c = (k.toNat : Int) ↔ c = k := char_eq_iff hk
  rw [Bool.eq_iff_iff, decide_eq_true_iff]
  simp only [isspace, IsSpace, Bool.or_eq_true, decide_eq_true_eq, List.mem_cons, List.not_mem_nil,
    or_false]
  rw [← h 32 (by decide), ← h 9 (by decide), ← h 10 (by decide), ← h 11 (by decide),
    ← h 12 (by decide), ← h 13 (by decide)]
  simp only [UInt8.reduceToNat]
  omega

theorem tolower_char (c : UInt8) : tolower (char c) = 120 ↔ c = 120 ∨ c = 88 := by
  rw [← UInt8.toNat_inj, ← UInt8.toNat_inj, char_eq]
  have hc := c.toNat_lt
  simp only [tolower, UInt8.reduceToNat]
  split <;> split <;> omega

theorem digit_value_char (c : UInt8) :
    digit_value (char c) = (digit c).elim (-1) (fun d => (d : Int)) := by
  have hc := c.toNat_lt
  rw [char_eq, digit_value, digit, tolower]
  split_ifs <;> simp only [Option.elim] <;> omega

theorem digit_lt {c : UInt8} {d : Nat} (h : digit c = some d) : d < 36 := by
  unfold digit at h
  split_ifs at h <;> simp only [Option.some.injEq] at h <;> omega

theorem not_isDigit_iff (b : Nat) (c : UInt8) :
    (digit_value (char c) < 0 ∨ digit_value (char c) ≥ b) ↔ ¬ IsDigit b c := by
  rw [digit_value_char]
  cases h : digit c with
  | none => simp [IsDigit, h]
  | some d =>
    simp only [IsDigit, h, Option.elim, Option.some.injEq, exists_eq_right']
    omega

/-! ### What `strto` reads -/

/-- Where the digit loop stops: behind the character that ends the number. -/
def past (b : Nat) (t : List UInt8) : Ptr := (t.dropWhile (IsDigit b ·)).tail ++ [0]

/-- The number read so far, `none` once it is above `ULONG_MAX`. -/
def Reads (r : StrToResult) : Option Nat → Prop
  | none => r.overflow = true
  | some v => r.overflow = false ∧ r.magnitude = v

theorem skip_spaces_eq (text : List UInt8) :
    skip_spaces (text ++ [0]) = .ok (trimmed text ++ [0]) := by
  induction text with
  | nil => rfl
  | cons c rest ih =>
    rw [List.cons_append, skip_spaces, isspace_char, trimmed, List.dropWhile_cons]
    by_cases hc : IsSpace c
    · simp only [hc, decide_true, if_true]
      exact ih
    · simp only [hc, decide_false, Bool.false_eq_true, if_false, List.cons_append]

theorem eat_sign_eq (text : List UInt8) :
    eat_sign (trimmed text ++ [0]) = .ok (Negative text, unsigned text ++ [0]) := by
  have h43 (c : UInt8) : char c = 43 ↔ c = 43 :=
    char_eq_iff (k := 43) (by decide)
  have h45 (c : UInt8) : char c = 45 ↔ c = 45 :=
    char_eq_iff (k := 45) (by decide)
  rw [Negative, unsigned]
  cases trimmed text with
  | nil => rfl
  | cons c rest =>
    simp only [eat_sign, List.cons_append, deref_cons, ok_bind, h43, h45, pure_eq_ok,
      List.tail_cons, List.head?_cons, Option.some.injEq]
    by_cases hplus : c = 43
    · rw [if_pos hplus, if_pos (show IsSign c from Or.inl hplus), hplus]
      rfl
    · by_cases hminus : c = 45
      · rw [if_neg hplus, if_pos hminus, if_pos (show IsSign c from Or.inr hminus), hminus]
        rfl
      · rw [if_neg hplus, if_neg hminus, if_neg (show ¬ IsSign c from not_or.mpr ⟨hplus, hminus⟩),
          decide_eq_false hminus]
        rfl

theorem default_base_eq (text : List UInt8) :
    default_base (unsigned text ++ [0]) = .ok ((radix 0 text : Int), numeral 0 text ++ [0]) := by
  have h48 (c : UInt8) : char c = 48 ↔ c = 48 :=
    char_eq_iff (k := 48) (by decide)
  simp only [radix, numeral, ne_eq, not_true_eq_false, if_false, true_and]
  rcases unsigned text with _ | ⟨c, _ | ⟨x, rest⟩⟩
  · rfl
  · simp only [default_base, List.cons_append, List.nil_append, deref_cons, ok_bind, h48, Marked]
    by_cases hc : c = 48
    · simp [hc, deref_cons, show tolower (char 0) ≠ 120 by decide]
    · simp [hc]
  · simp only [default_base, List.cons_append, deref_cons, ok_bind, h48, Marked, List.tail_cons,
      tolower_char]
    by_cases hc : c = 48
    · by_cases hx : x = 120 ∨ x = 88 <;> simp [hc, hx]
    · simp [hc]

/-- **The digit loop** reads the longest run of digits and the character behind it. -/
theorem eat_digits_eq {b : Nat} (hb : 0 < b) (hb36 : b ≤ 36) {t : List UInt8}
    (ht : ∀ c ∈ t, c ≠ 0) {r : StrToResult} {v? : Option Nat} (hr : Reads r v?) :
    ∃ r', eat_digits b (t ++ [0]) r = .ok (r', past b t) ∧ r'.sign = r.sign ∧
      Reads r' (((t.takeWhile (IsDigit b ·)).filterMap digit).foldl (Digits.push ULONG_MAX b) v?) := by
  induction t generalizing r v? with
  | nil => exact ⟨r, rfl, rfl, hr⟩
  | cons c rest ih =>
    have hc : c ≠ 0 := ht c (by simp)
    have hrest : ∀ c ∈ rest, c ≠ 0 := fun c h => ht c (by simp [h])
    rw [List.cons_append, eat_digits, if_neg hc]
    simp only [not_isDigit_iff]
    by_cases hdig : IsDigit b c
    · obtain ⟨d, hd, hdc⟩ := id hdig
      have hval : digit_value (char c) = d := by rw [digit_value_char, hdc]; rfl
      have hpast : past b (c :: rest) = past b rest := by
        rw [past, List.dropWhile_cons_of_pos (by simpa using hdig), past]
      have hrun : ((c :: rest).takeWhile (IsDigit b ·)).filterMap digit =
          d :: (rest.takeWhile (IsDigit b ·)).filterMap digit := by
        rw [List.takeWhile_cons_of_pos (by simpa using hdig), List.filterMap_cons_some hdc]
      rw [if_neg (not_not.mpr hdig), hval, hpast, hrun, List.foldl_cons]
      cases v? with
      | none =>
        rw [if_pos (show r.overflow = true from hr)]
        exact ih hrest hr
      | some v =>
        obtain ⟨hov, hmag⟩ := hr
        have hdM : d ≤ ULONG_MAX := by rw [ULONG_MAX]; omega
        rw [if_neg (by rw [hov]; exact Bool.false_ne_true), Int.toNat_natCast, Int.toNat_natCast,
          hmag]
        by_cases hgt : v > (ULONG_MAX - d) / b
        · rw [if_pos hgt]
          refine ih hrest ?_
          rw [Digits.push, Option.bind_some, if_pos hgt]
          rfl
        · have hle : v * b + d ≤ ULONG_MAX :=
            Nat.le_of_not_lt fun h => hgt ((Digits.gt_div_iff hb hdM).mpr h)
          rw [if_neg hgt]
          refine ih hrest ?_
          rw [Digits.push, Option.bind_some, if_neg hgt]
          exact ⟨hov, u64_of_lt (by rw [ULONG_MAX] at hle; omega)⟩
    · rw [if_pos hdig, past, List.dropWhile_cons_of_neg (by simpa using hdig),
        List.takeWhile_cons_of_neg (by simpa using hdig)]
      exact ⟨r, rfl, rfl, hr⟩

/-- The bases there are. -/
def IsBase (base : Int) : Prop := base = 0 ∨ 2 ≤ base ∧ base ≤ 36

theorem radix_eq {base : Int} {text : List UInt8} (h : base ≠ 0) : radix base text = base.toNat := by
  rw [radix, if_pos h]

theorem radix_range {base : Int} (h : IsBase base) (text : List UInt8) :
    2 ≤ radix base text ∧ radix base text ≤ 36 := by
  rcases h with rfl | ⟨h2, h36⟩
  · rw [radix, if_neg (by decide)]
    split_ifs <;> decide
  · rw [radix_eq (by omega)]
    omega

theorem mem_unsigned {c : UInt8} {text : List UInt8} (h : c ∈ unsigned text) : c ∈ text := by
  have htrim : ∀ c ∈ trimmed text, c ∈ text := fun c hc => List.dropWhile_subset _ hc
  rw [unsigned] at h
  split at h
  · cases h
  · rename_i hcons
    apply htrim
    rw [hcons]
    split at h
    · exact List.mem_cons_of_mem _ h
    · exact h

theorem mem_numeral {c : UInt8} {base : Int} {text : List UInt8} (h : c ∈ numeral base text) :
    c ∈ text := by
  rw [numeral] at h
  split at h
  · exact mem_unsigned (List.mem_of_mem_drop h)
  · exact mem_unsigned h

theorem past_length {b : Nat} {t : List UInt8} : (past b t).length = t.length + 1 ↔ t = [] := by
  have hle : (t.dropWhile (IsDigit b ·)).length ≤ t.length := List.length_dropWhile_le _ _
  cases t with
  | nil => simp [past]
  | cons c rest =>
    simp only [past, List.length_append, List.length_tail, List.length_cons, List.length_nil,
      reduceCtorEq, iff_false] at hle ⊢
    omega

/-- The pointer stored through `endptr`. -/
def stop (base : Int) (s : CString) : Ptr :=
  if numeral base s.text = [] then s.bytes
  else past (radix base s.text) (numeral base s.text)

/-- **What `strto` reads**, for every string and every base. -/
theorem strto_eq (s : CString) {base : Int} (hbase : IsBase base) (endptr : Option Ptr) :
    ∃ r, strto s.bytes endptr base = .ok (r, endptr.map fun _ => stop base s) ∧
      r.sign = Negative s.text ∧
      Reads r (if absolute base s.text ≤ ULONG_MAX then some (absolute base s.text) else none) := by
  obtain ⟨h2, h36⟩ := radix_range hbase s.text
  obtain ⟨r, hr, hsign, hreads⟩ := eat_digits_eq (by omega) h36
    (fun c hc => s.nonzero c (mem_numeral hc))
    (show Reads { sign := Negative s.text } (some 0) from ⟨rfl, rfl⟩)
  rw [Digits.foldl_push (by omega) (fun d hd => by
    obtain ⟨c, -, hc⟩ := List.mem_filterMap.mp hd
    have := digit_lt hc
    rw [ULONG_MAX]
    omega)] at hreads
  have hdefault : (if base = 0 then default_base (unsigned s.text ++ [0])
      else pure (base, unsigned s.text ++ [0])) =
      .ok ((radix base s.text : Int), numeral base s.text ++ [0]) := by
    by_cases h0 : base = 0
    · rw [if_pos h0, h0, default_base_eq]
    · have hpos : 0 ≤ base := by rcases hbase with h | h <;> omega
      rw [if_neg h0, radix_eq h0, numeral, if_neg (fun h => h0 h.1), Int.toNat_of_nonneg hpos,
        pure_eq_ok]
  refine ⟨r, ?_, hsign, hreads⟩
  simp only [strto, CString.bytes, skip_spaces_eq, ok_bind, eat_sign_eq, hdefault, hr,
    List.length_append, List.length_singleton, past_length, stop]
  split <;> rfl

/-! ### The values -/

theorem toLong_of_le {n : Nat} (h : (n : Int) ≤ LONG_MAX) : toLong n = n := by
  rw [LONG_MAX] at h
  rw [toLong, if_pos (by omega)]

theorem toLong_negate {n : Nat} (h : (n : Int) ≤ LONG_MAX + 1) : toLong (negate n) = -(n : Int) := by
  rw [LONG_MAX] at h
  by_cases h0 : n = 0
  · rw [h0]
    rfl
  · rw [negate, u64, Nat.mod_eq_of_lt (by omega), toLong, if_neg (by omega)]
    omega

theorem negate_eq {n : Nat} (h : n ≤ ULONG_MAX) : negate n = (-(n : Int) % 2 ^ 64).toNat := by
  rw [ULONG_MAX] at h
  rw [negate, u64]
  omega

theorem strtol_eq (s : CString) {base : Int} (hbase : IsBase base) (endptr : Option Ptr)
    (errno : Int) :
    strtol s.bytes endptr base errno =
      .ok ⟨max LONG_MIN (min (denoted base s.text) LONG_MAX), endptr.map fun _ => stop base s,
        if LONG_MIN ≤ denoted base s.text ∧ denoted base s.text ≤ LONG_MAX then errno
        else ERANGE⟩ := by
  obtain ⟨r, hr, hsign, hreads⟩ := strto_eq s hbase endptr
  have h36 : ¬ base > 36 := by rcases hbase with h | h <;> omega
  have hle : LONG_MIN ≤ LONG_MAX := by decide
  have hzero : LONG_MIN ≤ 0 := by decide
  have hmax : 0 ≤ LONG_MAX := by decide
  simp only [strtol, if_neg h36, hr, ok_bind, hsign, pure_eq_ok, denoted]
  by_cases hov : absolute base s.text ≤ ULONG_MAX
  · rw [if_pos hov] at hreads
    obtain ⟨hoverflow, hmag⟩ := hreads
    simp only [hoverflow, hmag, Bool.false_eq_true, or_false]
    by_cases hneg : Negative s.text = true
    · simp only [hneg, if_true]
      by_cases hbig : (absolute base s.text : Int) > LONG_MAX + 1
      · -- the negative numbers reach one further
        have hlt : -(absolute base s.text : Int) < LONG_MIN := by
          rw [LONG_MAX] at hbig
          rw [LONG_MIN]
          omega
        rw [if_pos hbig, if_neg (fun h => absurd h.1 (not_le.mpr hlt)), min_eq_left (by omega),
          max_eq_left hlt.le]
      · have hge : LONG_MIN ≤ -(absolute base s.text : Int) := by
          rw [LONG_MAX] at hbig
          rw [LONG_MIN]
          omega
        rw [if_neg hbig, toLong_negate (by omega), if_pos ⟨hge, by omega⟩, min_eq_left (by omega),
          max_eq_right hge]
    · simp only [hneg, Bool.false_eq_true, if_false]
      by_cases hbig : (absolute base s.text : Int) > LONG_MAX
      · rw [if_pos hbig, if_neg (fun h => absurd h.2 (not_le.mpr hbig)), min_eq_right hbig.le,
          max_eq_right hle]
      · rw [if_neg hbig, toLong_of_le (by omega), if_pos ⟨by omega, by omega⟩,
          min_eq_left (by omega), max_eq_right (by omega)]
  · rw [if_neg hov] at hreads
    have hover : r.overflow = true := hreads
    have hlt : LONG_MAX + 1 < (absolute base s.text : Int) := by
      rw [ULONG_MAX] at hov
      rw [LONG_MAX]
      omega
    have hmin : LONG_MIN = -(LONG_MAX + 1) := rfl
    simp only [hover, or_true, if_true]
    by_cases hneg : Negative s.text = true
    · simp only [hneg, if_true]
      rw [if_neg (fun h => absurd h.1 (by omega)), min_eq_left (by omega), max_eq_left (by omega)]
    · simp only [hneg, Bool.false_eq_true, if_false]
      rw [if_neg (fun h => absurd h.2 (by omega)), min_eq_right (by omega), max_eq_right hle]

theorem strtoul_eq (s : CString) {base : Int} (hbase : IsBase base) (endptr : Option Ptr)
    (errno : Int) :
    strtoul s.bytes endptr base errno =
      .ok ⟨if |denoted base s.text| > ULONG_MAX then ULONG_MAX
          else (denoted base s.text % 2 ^ 64).toNat,
        endptr.map fun _ => stop base s,
        if |denoted base s.text| > ULONG_MAX then ERANGE else errno⟩ := by
  obtain ⟨r, hr, hsign, hreads⟩ := strto_eq s hbase endptr
  have h36 : ¬ base > 36 := by rcases hbase with h | h <;> omega
  have habs : |denoted base s.text| = (absolute base s.text : Int) := by
    rw [denoted]
    split
    · rw [abs_neg, Nat.abs_cast]
    · rw [Nat.abs_cast]
  simp only [strtoul, if_neg h36, hr, ok_bind, hsign, pure_eq_ok, habs]
  by_cases hov : absolute base s.text ≤ ULONG_MAX
  · rw [if_pos hov] at hreads
    obtain ⟨hoverflow, hmag⟩ := hreads
    have hbig : ¬ (absolute base s.text : Int) > ULONG_MAX := by omega
    simp only [hoverflow, hmag, Bool.false_eq_true, if_false, if_neg hbig, denoted]
    by_cases hneg : Negative s.text = true
    · simp only [hneg, if_true, negate_eq hov]
    · have hmod : ((absolute base s.text : Int) % 2 ^ 64).toNat = absolute base s.text := by
        rw [ULONG_MAX] at hov
        omega
      simp only [hneg, Bool.false_eq_true, if_false, hmod]
  · rw [if_neg hov] at hreads
    have hover : r.overflow = true := hreads
    have hbig : (absolute base s.text : Int) > ULONG_MAX := by omega
    simp only [hover, if_true, if_pos hbig, ite_self]

/-- **The value law.**  `strtol` returns the number clamped to a `long` and `strtoul` the number
modulo `2 ^ 64`, each with `ERANGE` exactly if the number is out of its range. -/
theorem strtol_strtoul_value (s : CString) (base : Int) (hbase : IsBase base)
    (endptr : Option Ptr) (errno : Int) :
    (∃ stop, strtol s.bytes endptr base errno =
      .ok ⟨max LONG_MIN (min (denoted base s.text) LONG_MAX), stop,
        if LONG_MIN ≤ denoted base s.text ∧ denoted base s.text ≤ LONG_MAX then errno
        else ERANGE⟩) ∧
    ∃ stop, strtoul s.bytes endptr base errno =
      .ok ⟨if |denoted base s.text| > ULONG_MAX then ULONG_MAX
          else (denoted base s.text % 2 ^ 64).toNat, stop,
        if |denoted base s.text| > ULONG_MAX then ERANGE else errno⟩ :=
  ⟨⟨_, strtol_eq s hbase endptr errno⟩, ⟨_, strtoul_eq s hbase endptr errno⟩⟩

/-- `"-010;"` with base 0: the number is -8. -/
def minusOctal : CString := ⟨[45, 48, 49, 48, 59], by simp, by decide⟩

theorem strtol_strtoul_value_minusOctal :
    (∃ stop, strtol minusOctal.bytes none 0 7 = .ok ⟨-8, stop, 7⟩) ∧
      ∃ stop, strtoul minusOctal.bytes none 0 7 = .ok ⟨2 ^ 64 - 8, stop, 7⟩ :=
  strtol_strtoul_value minusOctal 0 (Or.inl rfl) none 7

end Stuos.Libc
