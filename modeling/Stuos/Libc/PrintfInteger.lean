import Mathlib.Data.Nat.Digits.Lemmas
import Stuos.Libc.PrintfText
import Stuos.Libc.StrtolEnd

/-!
# Printed integers are read back

The specifiers for integers collect the characters of a number in a buffer of 32, the last one
first: digits, zeros up to the precision or the width, a prefix and a sign.  `strtol` and `strtoul`
skip the spaces around it.

* `digitChars_eq`: the digits are those of the number.
* `finalization_buf`: the buffer, as long as there is room for everything.
* `Printed.denoted_eq`: the number that a text of such parts stands for.
* `printed_integers_read_back`: **what `printf` prints for an integer, `strtol` reads**.
-/

namespace Stuos.Libc.Printf

open Stuos.Lib

/-! ### Digits -/

theorem digit_digitChar (uppercase : Bool) {d : Nat} (h : d < 16) :
    digit (digitChar uppercase d) = some d := by
  cases uppercase <;> interval_cases d <;> rfl

/-- **The digits of a number** that has no more than there is room for. -/
theorem digitChars_eq (uppercase : Bool) {base : Nat} (hbase : 2 ≤ base) {room value : Nat}
    (hvalue : value ≠ 0) (hroom : value < base ^ room) :
    digitChars uppercase base room value =
      (Nat.digits base value).map (digitChar uppercase) := by
  induction room generalizing value with
  | zero => simp at hroom; omega
  | succ room ih =>
    rw [digitChars, Nat.digits_def' (by omega) (Nat.pos_of_ne_zero hvalue), List.map_cons]
    by_cases hrest : value / base = 0
    · rw [if_neg (not_not.mpr hrest), hrest, Nat.digits_zero, List.map_nil]
    · have hlt : value / base < base ^ room := by
        rw [Nat.div_lt_iff_lt_mul (by omega), ← Nat.pow_succ]
        exact hroom
      rw [if_pos hrest, ih hrest hlt]

theorem value_zeros (b k : Nat) (ds : List Nat) :
    Digits.value b (List.replicate k 0 ++ ds) = Digits.value b ds := by
  rw [Digits.value, Digits.value, List.reverse_append, List.reverse_replicate, Nat.ofDigits_append,
    Nat.ofDigits_replicate_zero, Nat.mul_zero, Nat.add_zero]

/-! ### The buffer -/

theorem padZeros_eq (n : Nat) (buf : List UInt8) :
    ∃ k, padZeros n buf = buf ++ List.replicate k 48 ∧
      (padZeros n buf).length ≤ max buf.length (min n integerBufferSize) := by
  refine ⟨_, rfl, ?_⟩
  rw [padZeros, List.length_append, List.length_replicate]
  omega

/-- What the prefix of base 16 adds. -/
def hexPrefix (base : Nat) (flags : Flags) : List UInt8 :=
  if base = 16 ∧ flags.hash then [if flags.uppercase then 88 else 120, 48] else []

/-- What the sign adds. -/
def signChars (negative : Bool) (flags : Flags) : List UInt8 :=
  if negative then [45] else if flags.plus then [43] else if flags.space then [32] else []

theorem putSign_eq {buf : List UInt8} (negative : Bool) (flags : Flags)
    (h : buf.length < integerBufferSize) :
    putSign buf negative flags = buf ++ signChars negative flags := by
  rw [putSign, signChars, putInBuf, putInBuf, putInBuf, if_pos h, if_pos h, if_pos h]
  split_ifs <;> simp

theorem dropLast_zeros {digits : List UInt8} {k : Nat}
    (h : digits.length < (digits ++ List.replicate k 48).length) :
    (digits ++ List.replicate k 48).dropLast = digits ++ List.replicate (k - 1) (48 : UInt8) := by
  cases k with
  | zero => simp at h
  | succ k =>
    rw [List.replicate_succ', ← List.append_assoc, List.dropLast_concat, Nat.add_sub_cancel]

theorem handleHash_eq {digits : List UInt8} {k base : Nat} (precision width : Nat) {flags : Flags}
    (hpointer : flags.pointer = false) (hbase : base ≠ 2)
    (hlen : (digits ++ List.replicate k (48 : UInt8)).length < 30) :
    ∃ k', handleHash (digits ++ List.replicate k 48) digits.length base precision width flags =
      digits ++ List.replicate k' 48 ++ hexPrefix base flags ∧
      (digits ++ List.replicate k' 48 ++ hexPrefix base flags).length < integerBufferSize := by
  rw [handleHash, hpointer, Bool.or_false, hexPrefix]
  cases hhash : flags.hash with
  | false =>
    refine ⟨k, by simp, ?_⟩
    rw [if_neg (by simp), List.append_nil, integerBufferSize]
    omega
  | true =>
    have htaken : ∃ k', k' ≤ k ∧ (if !flags.precision ∧ (digits ++ List.replicate k 48).length ≠ 0 ∧
        ((digits ++ List.replicate k 48).length = precision ∨
          (digits ++ List.replicate k 48).length = width) then
        let buf := if digits.length < (digits ++ List.replicate k 48).length then
          (digits ++ List.replicate k 48).dropLast else digits ++ List.replicate k 48
        if buf.length ≠ 0 ∧ (base = 16 ∨ base = 2) ∧ digits.length < buf.length then buf.dropLast
        else buf
      else digits ++ List.replicate k 48) = digits ++ List.replicate k' (48 : UInt8) := by
      split
      · have hone : ∃ k', k' ≤ k ∧ (if digits.length < (digits ++ List.replicate k 48).length then
            (digits ++ List.replicate k 48).dropLast else digits ++ List.replicate k 48) =
            digits ++ List.replicate k' (48 : UInt8) := by
          split
          · rename_i hlt
            exact ⟨k - 1, Nat.sub_le .., dropLast_zeros hlt⟩
          · exact ⟨k, le_refl _, rfl⟩
        obtain ⟨k', hle, hk'⟩ := hone
        rw [hk']
        dsimp only
        split
        · rename_i hlt
          exact ⟨k' - 1, (Nat.sub_le ..).trans hle, dropLast_zeros hlt.2.2⟩
        · exact ⟨k', hle, rfl⟩
      · exact ⟨k, le_refl _, rfl⟩
    obtain ⟨k', hle, hk'⟩ := htaken
    have hroom : (digits ++ List.replicate k' (48 : UInt8)).length < 30 := by
      rw [List.length_append, List.length_replicate] at hlen ⊢
      omega
    generalize hbuf : digits ++ List.replicate k' (48 : UInt8) = buf at hk' hroom
    simp only [if_true, and_true]
    rw [hk']
    by_cases h16 : base = 16
    · rw [if_pos h16]
      refine ⟨k', ?_, ?_⟩
      · rw [hbuf]
        cases hupper : flags.uppercase <;>
          simp [h16, putInBuf, integerBufferSize, show buf.length < 32 by omega,
            show buf.length + 1 < 32 by omega]
      · rw [hbuf, List.length_append, integerBufferSize]
        show buf.length + 2 < 32
        omega
    · rw [if_neg h16]
      simp only [List.append_nil]
      refine ⟨k' + 1, ?_, ?_⟩
      · rw [List.replicate_succ', ← List.append_assoc, hbuf]
        simp [h16, hbase, putInBuf, integerBufferSize, show buf.length < 32 by omega]
      · rw [List.replicate_succ', ← List.append_assoc, hbuf, List.length_append, integerBufferSize]
        show buf.length + 1 < 32
        omega

/-- The fields leave room for a prefix and a sign. -/
structure Fits (precision width : Nat) (flags : Flags) : Prop where
  precision : precision < 30
  width : flags.zeropad = true → width < 30

/-- **The buffer of a number**: digits, zeros, a prefix, and a sign. -/
theorem finalization_buf {digits : List UInt8} {base precision width : Nat} {flags : Flags}
    (negative : Bool) (hdigits : digits.length < 30) (hfits : Fits precision width flags)
    (hpointer : flags.pointer = false) (hbase : base ≠ 2) :
    ∃ k w flags', w ≤ width ∧ (digits ++ List.replicate k 48 ++ hexPrefix base flags ++
        signChars negative flags).length ≤ integerBufferSize ∧ ∀ g,
      printIntegerFinalization g digits negative base precision width flags =
        outRev g (digits ++ List.replicate k 48 ++ hexPrefix base flags ++
          signChars negative flags) w flags' := by
  have hw : signedWidth negative width flags ≤ width := by
    rw [signedWidth]
    split
    · exact Nat.sub_le ..
    · exact le_refl _
  -- zeros up to the width and the precision
  have hpadded : ∃ k, padZeros precision (if !flags.left && flags.zeropad then
      padZeros (signedWidth negative width flags) digits else digits) =
      digits ++ List.replicate k 48 ∧ (digits ++ List.replicate k (48 : UInt8)).length < 30 := by
    have hfirst : ∃ k, (if !flags.left && flags.zeropad then
        padZeros (signedWidth negative width flags) digits else digits) =
        digits ++ List.replicate k 48 ∧ (digits ++ List.replicate k (48 : UInt8)).length < 30 := by
      split
      · rename_i hpad
        obtain ⟨k, hk, hle⟩ := padZeros_eq (signedWidth negative width flags) digits
        have hlt := hfits.width (by simp only [Bool.and_eq_true] at hpad; exact hpad.2)
        refine ⟨k, hk, ?_⟩
        rw [← hk]
        omega
      · exact ⟨0, (List.append_nil _).symm, by simpa using hdigits⟩
    obtain ⟨k, hk, hlen⟩ := hfirst
    obtain ⟨k', hk', hle⟩ := padZeros_eq precision (digits ++ List.replicate k 48)
    have hprecision := hfits.precision
    refine ⟨k + k', ?_, ?_⟩
    · rw [hk, hk', List.append_assoc, List.replicate_append_replicate]
    · rw [← List.replicate_append_replicate, ← List.append_assoc, ← hk']
      omega
  obtain ⟨k, hk, hlen⟩ := hpadded
  -- an octal number with zeros in front has its prefix already
  have hflags : ∀ flags', flags' = (if base = 8 ∧ (digits ++ List.replicate k 48).length >
      digits.length then { flags with hash := false } else flags) →
      flags'.pointer = false ∧ hexPrefix base flags' = hexPrefix base flags ∧
      signChars negative flags' = signChars negative flags := by
    rintro flags' rfl
    split
    · rename_i h8
      refine ⟨hpointer, ?_, rfl⟩
      rw [hexPrefix, hexPrefix, if_neg (by omega), if_neg (by omega)]
    · exact ⟨hpointer, rfl, rfl⟩
  generalize hflags' : (if base = 8 ∧ (digits ++ List.replicate k (48 : UInt8)).length >
    digits.length then { flags with hash := false } else flags) = flags' at hflags
  obtain ⟨hpointer', hpre, hsign⟩ := hflags flags' rfl
  obtain ⟨k', hk', hroom⟩ := handleHash_eq precision (signedWidth negative width flags) hpointer'
    hbase hlen
  have hsignlen : (signChars negative flags).length ≤ 1 := by
    rw [signChars]
    split_ifs <;> simp
  refine ⟨k', signedWidth negative width flags, flags', hw, ?_, fun g => ?_⟩
  · rw [hpre] at hroom
    rw [List.length_append]
    omega
  simp only [printIntegerFinalization, hk, hflags']
  rw [hk', putSign_eq _ _ hroom, hpre, hsign]

/-! ### Reading a number back -/

section

variable {before sign digits after : List UInt8}

theorem not_isDigit_space (b : Nat) : ¬ IsDigit b 32 := by
  rintro ⟨d, -, hd⟩
  cases hd

theorem takeWhile_digits {b : Nat} (hdigits : ∀ c ∈ digits, IsDigit b c)
    (hafter : ∀ c ∈ after, c = 32) :
    (digits ++ after).takeWhile (IsDigit b ·) = digits := by
  rw [List.takeWhile_append_of_pos (fun c hc => by simpa using hdigits c hc)]
  cases after with
  | nil => simp
  | cons c after =>
    rw [hafter c (by simp), List.takeWhile_cons_of_neg (by simpa using not_isDigit_space b),
      List.append_nil]

theorem negative_of_parts {c : UInt8} {rest : List UInt8} (hbefore : ∀ c ∈ before, c = 32)
    (hsign : sign = [] ∨ sign = [43] ∨ sign = [45]) (hc : ¬ IsSpace c ∧ ¬ IsSign c) :
    Negative (before ++ sign ++ c :: rest) = (sign = [45] : Bool) := by
  have hspaces : ∀ c ∈ before, decide (IsSpace c) = true := by
    intro c hc
    rw [hbefore c hc]
    rfl
  rw [Negative, trimmed, List.append_assoc, List.dropWhile_append_of_pos hspaces]
  rcases hsign with rfl | rfl | rfl
  · rw [List.nil_append, List.dropWhile_cons_of_neg (by simpa using hc.1)]
    have hne : c ≠ 45 := fun h => hc.2 (.inr h)
    simp [hne]
  · rfl
  · rfl

theorem unsigned_of_parts {num : List UInt8} {base : Int} (hbefore : ∀ c ∈ before, c = 32)
    (hsign : sign = [] ∨ sign = [43] ∨ sign = [45]) (hnum : IsNumeral base num)
    (after : List UInt8) : unsigned (before ++ sign ++ num ++ after) = num ++ after := by
  refine unsigned_of_isNumber (fun c hc => ?_) ?_ hnum
  · rw [hbefore c hc]
    decide
  · rcases hsign with h | h | h
    · exact .inl h
    · exact .inr ⟨43, .inl rfl, h⟩
    · exact .inr ⟨45, .inr rfl, h⟩

/-- **The number that spaces, a sign, digits and spaces stand for.** -/
theorem denoted_of_digits {base : Int} (hbase : base ≠ 0) (hbefore : ∀ c ∈ before, c = 32)
    (hafter : ∀ c ∈ after, c = 32) (hsign : sign = [] ∨ sign = [43] ∨ sign = [45])
    (hdigits : ∀ c ∈ digits, IsDigit base.toNat c) :
    denoted base (before ++ sign ++ digits ++ after) =
      if sign = [45] then -(Digits.value base.toNat (digits.filterMap digit) : Int)
      else Digits.value base.toNat (digits.filterMap digit) := by
  by_cases hne : digits = []
  · -- without digits nothing is read
    subst hne
    have hrun : digitRun base (before ++ sign ++ [] ++ after) = [] := by
      rw [digitRun, List.takeWhile_eq_nil_iff]
      intro hpos
      have hmem := mem_numeral (List.getElem_mem hpos)
      simp only [List.append_nil, List.mem_append] at hmem
      have hnot : ∀ b c, (c ∈ before ∨ c ∈ sign) ∨ c ∈ after → ¬ IsDigit b c := by
        rintro b c ((hc | hc) | hc) ⟨d, -, hd⟩
        · rw [hbefore c hc] at hd
          cases hd
        · rcases hsign with rfl | rfl | rfl <;> simp only [List.mem_cons, List.not_mem_nil,
            or_false] at hc <;> subst hc <;> cases hd
        · rw [hafter c hc] at hd
          cases hd
      simpa using hnot _ _ hmem
    rw [denoted, absolute, hrun]
    simp
  · have hplain : plainRadix base digits = base.toNat := by rw [plainRadix, if_pos hbase]
    have hunsigned := unsigned_of_parts hbefore hsign
      (IsNumeral.plain hne (hplain ▸ hdigits) : IsNumeral base digits) after
    obtain ⟨c, rest, rfl⟩ := List.exists_cons_of_ne_nil hne
    have hnegative : Negative (before ++ sign ++ (c :: rest) ++ after) = (sign = [45] : Bool) := by
      rw [List.append_assoc (before ++ sign)]
      exact negative_of_parts hbefore hsign (isDigit_cases (hdigits c (by simp)))
    have habsolute : absolute base (before ++ sign ++ (c :: rest) ++ after) =
        Digits.value base.toNat ((c :: rest).filterMap digit) := by
      rw [absolute, digitRun, numeral, if_neg (fun h => hbase h.1), radix_eq hbase, hunsigned,
        takeWhile_digits hdigits hafter]
    rw [denoted, hnegative, habsolute]
    simp only [decide_eq_true_eq]

theorem denoted_of_marked {x : UInt8} (hx : x = 120 ∨ x = 88) (hne : digits ≠ [])
    (hbefore : ∀ c ∈ before, c = 32) (hafter : ∀ c ∈ after, c = 32)
    (hsign : sign = [] ∨ sign = [43] ∨ sign = [45]) (hdigits : ∀ c ∈ digits, IsDigit 16 c) :
    denoted 0 (before ++ sign ++ (48 :: x :: digits) ++ after) =
      if sign = [45] then -(Digits.value 16 (digits.filterMap digit) : Int)
      else Digits.value 16 (digits.filterMap digit) := by
  have hunsigned := unsigned_of_parts hbefore hsign
    (IsNumeral.marked (.inl rfl) hx hne hdigits : IsNumeral 0 (48 :: x :: digits)) after
  have hmarked : Marked (unsigned (before ++ sign ++ (48 :: x :: digits) ++ after)) = true := by
    rw [hunsigned]
    rcases hx with rfl | rfl <;> rfl
  have hnegative : Negative (before ++ sign ++ (48 :: x :: digits) ++ after) =
      (sign = [45] : Bool) := by
    rw [List.append_assoc (before ++ sign)]
    exact negative_of_parts hbefore hsign ⟨by decide, by decide⟩
  have habsolute : absolute 0 (before ++ sign ++ (48 :: x :: digits) ++ after) =
      Digits.value 16 (digits.filterMap digit) := by
    have hradix : radix 0 (before ++ sign ++ (48 :: x :: digits) ++ after) = 16 := by
      rw [radix, if_neg (by decide), if_pos hmarked]
    rw [absolute, digitRun, numeral, if_pos ⟨rfl, hmarked⟩, hradix, hunsigned]
    show Digits.value 16 (((digits ++ after).takeWhile _).filterMap digit) = _
    rw [takeWhile_digits hdigits hafter]
  rw [denoted, hnegative, habsolute]
  simp only [decide_eq_true_eq]

end

/-- How a number is printed: spaces, a sign, perhaps the prefix of base 16, digits and spaces. -/
inductive Printed (base value : Nat) (negative : Bool) : Bool → List UInt8 → Prop
  | plain {before sign digits after} : (∀ c ∈ before, c = 32) → (∀ c ∈ after, c = 32) →
      (sign = [] ∨ sign = [43] ∨ sign = [45]) → (sign = [45] ↔ negative = true) →
      (∀ c ∈ digits, IsDigit base c) → Digits.value base (digits.filterMap digit) = value →
      Printed base value negative false (before ++ sign ++ digits ++ after)
  | marked {before sign x digits after} : base = 16 → (x = 120 ∨ x = 88) → digits ≠ [] →
      (∀ c ∈ before, c = 32) → (∀ c ∈ after, c = 32) →
      (sign = [] ∨ sign = [43] ∨ sign = [45]) → (sign = [45] ↔ negative = true) →
      (∀ c ∈ digits, IsDigit base c) → Digits.value base (digits.filterMap digit) = value →
      Printed base value negative true (before ++ sign ++ (48 :: x :: digits) ++ after)

/-- **The number that is printed.** -/
theorem Printed.denoted_eq {base value : Nat} {negative marked : Bool} {text : List UInt8}
    (hbase : base ≠ 0) (h : Printed base value negative marked text) :
    denoted (if marked then 0 else (base : Int)) text =
      if negative then -(value : Int) else value := by
  cases h with
  | plain hbefore hafter hsign hnegative hdigits hvalue =>
    have hdenoted := denoted_of_digits (show (base : Int) ≠ 0 by omega) hbefore hafter hsign
      (by rwa [Int.toNat_natCast])
    rw [Int.toNat_natCast, hvalue] at hdenoted
    rw [if_neg (by decide), hdenoted]
    simp only [hnegative]
  | marked h16 hx hne hbefore hafter hsign hnegative hdigits hvalue =>
    subst h16
    have hdenoted := denoted_of_marked hx hne hbefore hafter hsign hdigits
    rw [hvalue] at hdenoted
    rw [if_pos rfl, hdenoted]
    simp only [hnegative]

/-! ### Printing a number -/

theorem filterMap_digits (uppercase : Bool) (k : Nat) {ds : List Nat} (h : ∀ d ∈ ds, d < 16) :
    (List.replicate k 48 ++ (ds.map (digitChar uppercase)).reverse).filterMap digit =
      List.replicate k 0 ++ ds.reverse := by
  have hzeros : (List.replicate k (48 : UInt8)).filterMap digit = List.replicate k 0 := by
    induction k with
    | zero => rfl
    | succ k ih => rw [List.replicate_succ, List.filterMap_cons_some (by rfl), ih]; rfl
  have hdigits : (ds.map (digitChar uppercase)).filterMap digit = ds := by
    induction ds with
    | nil => rfl
    | cons d ds ih =>
      rw [List.map_cons, List.filterMap_cons_some (digit_digitChar uppercase (h d (by simp))),
        ih fun d' hd' => h d' (by simp [hd'])]
  rw [List.filterMap_append, hzeros, List.filterMap_reverse, hdigits]

theorem padCount_le (width fuel : Nat) (printed : UInt32) : padCount width fuel printed ≤ fuel := by
  induction fuel generalizing printed with
  | zero => exact le_refl _
  | succ fuel ih =>
    rw [padCount]
    split
    · exact Nat.succ_le_succ (ih _)
    · exact Nat.zero_le _

theorem outRevText_parts (buf : List UInt8) (width : Nat) (flags : Flags) :
    ∃ pre post, outRevText buf width flags = pre ++ buf.reverse ++ post ∧
      (∀ c ∈ pre, c = 32) ∧ (∀ c ∈ post, c = 32) ∧ pre.length + post.length ≤ width := by
  refine ⟨_, _, rfl, ?_, ?_, ?_⟩
  · intro c hc
    split at hc
    · exact List.eq_of_mem_replicate hc
    · cases hc
  · intro c hc
    split at hc
    · exact List.eq_of_mem_replicate hc
    · cases hc
  · have hle := padCount_le width width (UInt32.ofNat buf.length)
    cases hleft : flags.left <;> cases hzeropad : flags.zeropad <;> simp [hle]

theorem signChars_parts (negative : Bool) (flags : Flags) {pre : List UInt8}
    (hpre : ∀ c ∈ pre, c = 32) :
    ∃ before sign, pre ++ (signChars negative flags).reverse = before ++ sign ∧
      (∀ c ∈ before, c = 32) ∧ (sign = [] ∨ sign = [43] ∨ sign = [45]) ∧
      (sign = [45] ↔ negative = true) := by
  rw [signChars]
  split_ifs with hneg hplus hspace
  · exact ⟨pre, [45], rfl, hpre, .inr (.inr rfl), by simp [hneg]⟩
  · exact ⟨pre, [43], rfl, hpre, .inr (.inl rfl), by simp [hneg]⟩
  · refine ⟨pre ++ [32], [], by simp, ?_, .inl rfl, by simp [hneg]⟩
    intro c hc
    rcases List.mem_append.mp hc with hc | hc
    · exact hpre c hc
    · exact List.mem_singleton.mp hc
  · exact ⟨pre, [], by simp, hpre, .inl rfl, by simp [hneg]⟩

/-- A number that is printed is a string. -/
structure Shown (base value : Nat) (negative marked : Bool) (width : Nat) (text : List UInt8) :
    Prop where
  printed : Printed base value negative marked text
  nonzero : ∀ c ∈ text, c ≠ 0
  length : text.length ≤ width + integerBufferSize

/-- **What the last steps print** for the digits `ds`, the last one first. -/
theorem finalization_shown {ds : List Nat} {base precision width : Nat} {flags : Flags}
    (negative : Bool) (hds : ∀ d ∈ ds, d < base) (hlen : ds.length < 30)
    (hfits : Fits precision width flags) (hpointer : flags.pointer = false) (hbase : 2 < base)
    (hbase16 : base ≤ 16) (hmarked : base = 16 → flags.hash = true → ds ≠ []) :
    ∃ text, Shown base (Nat.ofDigits base ds) negative (base = 16 ∧ flags.hash) width text ∧
      ∀ g, printIntegerFinalization g (ds.map (digitChar flags.uppercase)) negative base precision
        width flags = g.puts text := by
  have hlen' : (ds.map (digitChar flags.uppercase)).length < 30 := by rwa [List.length_map]
  obtain ⟨k, w, flags', hw, hroom, hprint⟩ := finalization_buf negative hlen' hfits hpointer
    (show base ≠ 2 by omega)
  have hds16 : ∀ d ∈ ds, d < 16 := fun d hd => lt_of_lt_of_le (hds d hd) hbase16
  obtain ⟨pre, post, htext, hpre, hpost, hpads⟩ := outRevText_parts
    (ds.map (digitChar flags.uppercase) ++ List.replicate k 48 ++ hexPrefix base flags ++
      signChars negative flags) w flags'
  obtain ⟨before, sign, hsplit, hbefore, hsign, hnegative⟩ := signChars_parts negative flags hpre
  generalize hd : List.replicate k 48 ++ (ds.map (digitChar flags.uppercase)).reverse = digits
  have hdigits : ∀ c ∈ digits, IsDigit base c := by
    intro c hc
    rw [← hd] at hc
    rcases List.mem_append.mp hc with hc | hc
    · rw [List.eq_of_mem_replicate hc]
      exact ⟨0, by omega, rfl⟩
    · obtain ⟨d, hd, rfl⟩ := List.mem_map.mp (List.mem_reverse.mp hc)
      exact ⟨d, hds d hd, digit_digitChar _ (hds16 d hd)⟩
  have hvalue : Digits.value base (digits.filterMap digit) = Nat.ofDigits base ds := by
    rw [← hd, filterMap_digits _ _ hds16, value_zeros, Digits.value, List.reverse_reverse]
  -- the text in the order in which it is printed
  have hparts : outRevText (ds.map (digitChar flags.uppercase) ++ List.replicate k 48 ++
      hexPrefix base flags ++ signChars negative flags) w flags' =
      before ++ sign ++ ((hexPrefix base flags).reverse ++ digits) ++ post := by
    rw [htext, ← hsplit, ← hd]
    simp only [List.reverse_append, List.reverse_replicate, List.append_assoc]
  have hne : ∀ c, IsDigit base c → c ≠ 0 := by
    rintro c ⟨d, -, hd⟩ rfl
    cases hd
  refine ⟨_, ⟨?_, ?_, ?_⟩, fun g => (hprint g).trans (outRev_puts g _ _ _)⟩
  · rw [hparts]
    by_cases hmark : base = 16 ∧ flags.hash = true
    · have hlead : (hexPrefix base flags).reverse ++ digits =
          48 :: (if flags.uppercase then 88 else 120) :: digits := by
        rw [hexPrefix, if_pos hmark]
        rfl
      rw [hlead, decide_eq_true hmark]
      refine .marked hmark.1 ?_ ?_ hbefore hpost hsign hnegative hdigits hvalue
      · split
        · exact .inr rfl
        · exact .inl rfl
      · rintro rfl
        obtain ⟨-, hnil⟩ := List.append_eq_nil_iff.mp hd
        exact hmarked hmark.1 hmark.2 (by simpa using hnil)
    · have hlead : (hexPrefix base flags).reverse ++ digits = digits := by
        rw [hexPrefix, if_neg hmark]
        rfl
      rw [hlead, decide_eq_false hmark]
      exact .plain hbefore hpost hsign hnegative hdigits hvalue
  · rw [hparts]
    intro c hc
    simp only [List.mem_append] at hc
    rcases hc with ((hc | hc) | hc | hc) | hc
    · rw [hbefore c hc]
      decide
    · rcases hsign with rfl | rfl | rfl
      · cases hc
      · rw [List.mem_singleton.mp hc]
        decide
      · rw [List.mem_singleton.mp hc]
        decide
    · rw [hexPrefix] at hc
      split_ifs at hc
      · simp only [List.mem_reverse, List.mem_cons, List.not_mem_nil, or_false] at hc
        rcases hc with rfl | rfl <;> decide
      · simp only [List.mem_reverse, List.mem_cons, List.not_mem_nil, or_false] at hc
        rcases hc with rfl | rfl <;> decide
      · cases hc
    · exact hne c (hdigits c hc)
    · rw [hpost c hc]
      decide
  · rw [htext, List.length_append, List.length_append, List.length_reverse]
    omega

theorem printInteger_shown {value base precision width : Nat} {flags : Flags} (negative : Bool)
    (hvalue : value < 2 ^ 64) (hbase : base = 8 ∨ base = 10 ∨ base = 16)
    (hfits : Fits precision width flags) (hpointer : flags.pointer = false) :
    ∃ text, Shown base value negative (base = 16 ∧ flags.hash ∧ value ≠ 0) width text ∧
      ∀ g, printInteger g value negative base precision width flags = g.puts text := by
  have hlow : 8 ≤ base := by omega
  have hhigh : base ≤ 16 := by omega
  by_cases hzero : value = 0
  · subst hzero
    -- there is no prefix in front of a zero
    have hplain : ∀ ds : List Nat, (∀ d ∈ ds, d = 0) → ds.length < 30 → ∃ text,
        Shown base 0 negative (base = 16 ∧ flags.hash ∧ 0 ≠ 0) width text ∧
        ∀ g, printIntegerFinalization g (ds.map (digitChar flags.uppercase)) negative base precision
          width { flags with hash := false } = g.puts text := by
      intro ds hds hlen
      have hfits' : Fits precision width { flags with hash := false } :=
        ⟨hfits.precision, hfits.width⟩
      obtain ⟨text, hshown, hprint⟩ := finalization_shown negative
        (fun d hd => by rw [hds d hd]; omega) hlen hfits' hpointer (show 2 < base by omega) hhigh
        (fun _ h => absurd h Bool.false_ne_true)
      have hvalue : Nat.ofDigits base ds = 0 := by
        rw [List.eq_replicate_of_mem hds]
        exact Nat.ofDigits_replicate_zero
      rw [hvalue] at hshown
      exact ⟨text, by simpa using hshown, hprint⟩
    by_cases hprecision : flags.precision = true
    · by_cases h16 : base = 16
      · obtain ⟨text, hshown, hprint⟩ := hplain [] (by simp) (by simp)
        refine ⟨text, hshown, fun g => ?_⟩
        rw [printInteger, if_pos rfl, if_neg (by simp [hprecision]), if_pos h16]
        exact hprint g
      · obtain ⟨text, hshown, hprint⟩ := finalization_shown negative
          (show ∀ d ∈ ([] : List Nat), d < base by simp) (by simp) hfits hpointer (by omega) hhigh
          (fun h => absurd h h16)
        refine ⟨text, by simpa [h16] using hshown, fun g => ?_⟩
        rw [printInteger, if_pos rfl, if_neg (by simp [hprecision]), if_neg h16]
        exact hprint g
    · obtain ⟨text, hshown, hprint⟩ := hplain [0] (by simp) (by simp)
      refine ⟨text, hshown, fun g => ?_⟩
      rw [printInteger, if_pos rfl, if_pos (by simpa using hprecision)]
      exact hprint g
  · have hlength : (Nat.digits base value).length ≤ 22 := by
      rw [Nat.digits_length_le_iff (by omega)]
      calc value < 2 ^ 64 := hvalue
        _ ≤ 8 ^ 22 := by decide
        _ ≤ base ^ 22 := Nat.pow_le_pow_left hlow 22
    have hroom : value < base ^ integerBufferSize := by
      rw [← Nat.digits_length_le_iff (by omega), integerBufferSize]
      omega
    obtain ⟨text, hshown, hprint⟩ := finalization_shown negative
      (fun d hd => Nat.digits_lt_base (show 1 < base by omega) hd) (by omega) hfits hpointer
      (show 2 < base by omega) hhigh (fun _ _ => Nat.digits_ne_nil_iff_ne_zero.mpr hzero)
    rw [Nat.ofDigits_digits] at hshown
    refine ⟨text, by simpa [hzero] using hshown, fun g => ?_⟩
    rw [printInteger, if_neg hzero, digitChars_eq _ (by omega) hzero hroom]
    exact hprint g

/-! ### A directive -/

theorem atou_lt {p p' : Ptr} {i n : Nat} (hi : i < 2 ^ 32) (h : atou p i = .ok (n, p')) :
    n < 2 ^ 32 := by
  induction p generalizing i with
  | nil => cases h
  | cons c rest ih =>
    rw [atou] at h
    split at h
    · exact ih (Nat.mod_lt _ (by decide)) h
    · cases h
      exact hi

/-- What holds of every directive: two flags belong to the specifier, and the width is an
`unsigned int`. -/
structure Unspecified (s : Spec) : Prop where
  pointer : s.flags.pointer = false
  signed : s.flags.signed = false
  width : s.width < 2 ^ 32

theorem parseFlags_unspecified {p p' : Ptr} {flags flags' : Flags}
    (h : parseFlags p flags = .ok (flags', p'))
    (hflags : flags.pointer = false ∧ flags.signed = false) :
    flags'.pointer = false ∧ flags'.signed = false := by
  induction p generalizing flags with
  | nil => cases h
  | cons c rest ih =>
    rw [parseFlags] at h
    split_ifs at h
    · exact ih h hflags
    · exact ih h hflags
    · exact ih h hflags
    · exact ih h hflags
    · exact ih h hflags
    · cases h
      exact hflags

theorem parseWidth_unspecified {s s' : Spec} (hs : Unspecified s) (h : parseWidth s = .ok s') :
    Unspecified s' := by
  simp only [parseWidth, bind_eq_ok] at h
  obtain ⟨c, -, h⟩ := h
  split_ifs at h
  · simp only [bind_eq_ok] at h
    obtain ⟨⟨width, format⟩, hatou, h⟩ := h
    cases h
    exact ⟨hs.pointer, hs.signed, atou_lt (by decide) hatou⟩
  · simp only [bind_eq_ok] at h
    obtain ⟨⟨a, args⟩, -, format, -, h⟩ := h
    cases h
    -- an `int` and its absolute value are not too long
    have hlt := a.int.toInt_lt
    have hle := a.int.le_toInt
    split
    · exact ⟨hs.pointer, hs.signed, by show (-a.int.toInt).toNat < _; omega⟩
    · exact ⟨hs.pointer, hs.signed, by show a.int.toInt.toNat < _; omega⟩
  · cases h
    exact hs

theorem parsePrecision_unspecified {s s' : Spec} (hs : Unspecified s)
    (h : parsePrecision s = .ok s') : Unspecified s' := by
  simp only [parsePrecision, bind_eq_ok] at h
  obtain ⟨c, -, h⟩ := h
  split_ifs at h
  · simp only [bind_eq_ok] at h
    obtain ⟨format, -, c', -, h⟩ := h
    split_ifs at h
    · simp only [bind_eq_ok] at h
      obtain ⟨format', -, h⟩ := h
      cases h
      exact ⟨hs.pointer, hs.signed, hs.width⟩
    · simp only [bind_eq_ok] at h
      obtain ⟨⟨precision, format'⟩, -, h⟩ := h
      cases h
      exact ⟨hs.pointer, hs.signed, hs.width⟩
    · simp only [bind_eq_ok] at h
      obtain ⟨⟨a, args⟩, -, format', -, h⟩ := h
      cases h
      split <;> exact ⟨hs.pointer, hs.signed, hs.width⟩
    · cases h
      exact ⟨hs.pointer, hs.signed, hs.width⟩
  · cases h
    exact hs

theorem parseLength_unspecified {s s' : Spec} (hs : Unspecified s) (h : parseLength s = .ok s') :
    Unspecified s' := by
  simp only [parseLength, bind_eq_ok] at h
  obtain ⟨c, -, h⟩ := h
  split_ifs at h
  · simp only [bind_eq_ok] at h
    obtain ⟨format, -, c', -, h⟩ := h
    split_ifs at h
    · rw [bind_eq_ok] at h
      obtain ⟨format', -, h⟩ := h
      cases h
      exact ⟨hs.pointer, hs.signed, hs.width⟩
    · cases h
      exact ⟨hs.pointer, hs.signed, hs.width⟩
  · rw [bind_eq_ok] at h
    obtain ⟨format, -, h⟩ := h
    cases h
    exact ⟨hs.pointer, hs.signed, hs.width⟩
  · simp only [bind_eq_ok] at h
    obtain ⟨format, -, c', -, h⟩ := h
    split_ifs at h
    · rw [bind_eq_ok] at h
      obtain ⟨format', -, h⟩ := h
      cases h
      exact ⟨hs.pointer, hs.signed, hs.width⟩
    · cases h
      exact ⟨hs.pointer, hs.signed, hs.width⟩
  · rw [bind_eq_ok] at h
    obtain ⟨format, -, h⟩ := h
    cases h
    exact ⟨hs.pointer, hs.signed, hs.width⟩
  · cases h
    exact hs

theorem parseSpec_unspecified {format : Ptr} {args : Args} {spec : Spec}
    (h : parseSpec format args = .ok spec) : Unspecified spec := by
  simp only [parseSpec, bind_eq_ok] at h
  obtain ⟨format', -, ⟨flags, format''⟩, hflags, s, hwidth, s', hprecision, hlength⟩ := h
  obtain ⟨hpointer, hsigned⟩ := parseFlags_unspecified hflags ⟨rfl, rfl⟩
  exact parseLength_unspecified (parsePrecision_unspecified
    (parseWidth_unspecified ⟨hpointer, hsigned, Nat.two_pow_pos 32⟩ hwidth) hprecision) hlength

/-! ### The whole way -/

theorem integerFlags_length (c : UInt8) (a : Arg) (flags : Flags) :
    a.signed (integerFlags c flags) = a.signed flags ∧
      a.unsigned (integerFlags c flags) = a.unsigned flags := by
  simp only [integerFlags]
  split_ifs <;> exact ⟨rfl, rfl⟩

theorem integerFlags_pointer (c : UInt8) (flags : Flags) :
    (integerFlags c flags).pointer = flags.pointer := by
  simp only [integerFlags]
  split_ifs <;> rfl

theorem integerFlags_hash (c : UInt8) (flags : Flags) :
    (integerFlags c flags).hash = (flags.hash && specifierBase c != 10) := by
  simp only [integerFlags]
  split_ifs <;> simp_all

theorem integerFlags_signed (c : UInt8) {flags : Flags} (h : flags.signed = false) :
    (integerFlags c flags).signed = (c = 100 ∨ c = 105 : Bool) := by
  simp only [integerFlags]
  split_ifs <;> simp_all

theorem Arg.signed_range (a : Arg) (flags : Flags) :
    LONG_MIN ≤ a.signed flags ∧ a.signed flags ≤ LONG_MAX := by
  have hword := a.word.toInt_lt
  have hword' := a.word.le_toInt
  have hint := a.int.toInt_lt
  have hint' := a.int.le_toInt
  have hshort := (a.int.truncate 16).toInt_lt
  have hshort' := (a.int.truncate 16).le_toInt
  have hchar := (a.int.truncate 8).toInt_lt
  have hchar' := (a.int.truncate 8).le_toInt
  rw [Arg.signed, LONG_MIN, LONG_MAX]
  split_ifs <;> omega

theorem Arg.unsigned_lt (a : Arg) (flags : Flags) : a.unsigned flags < 2 ^ 64 := by
  have hword := a.word.isLt
  have hint := a.int.isLt
  have hshort := (a.int.truncate 16).isLt
  have hchar := (a.int.truncate 8).isLt
  rw [Arg.unsigned]
  split_ifs <;> omega

/-- The base in which an unsigned number is read back: a prefix is left to the base 0. -/
def readBase (c : UInt8) (flags : Flags) (value : Nat) : Int :=
  if specifierBase c = 16 ∧ flags.hash ∧ value ≠ 0 then 0 else specifierBase c

theorem Shown.cstring {base value width : Nat} {negative marked : Bool} {text : List UInt8}
    (h : Shown base value negative marked width text) (hwidth : width < 2 ^ 32) :
    ∃ s : CString, s.text = text :=
  ⟨⟨text, h.nonzero, by
    have hlength := h.length
    rw [integerBufferSize] at hlength
    omega⟩, rfl⟩

/-- The number is what `strtol` or `strtoul` returns for the string. -/
def ReadBack (c : UInt8) (a : Arg) (flags : Flags) (s : CString) : Prop :=
  ∀ endptr errno, ∃ stop,
    if c = 100 ∨ c = 105 then
      strtol s.bytes endptr 10 errno = .ok ⟨a.signed flags, stop, errno⟩
    else strtoul s.bytes endptr (readBase c flags (a.unsigned flags)) errno =
      .ok ⟨a.unsigned flags, stop, errno⟩

theorem specifierBase_cases {c : UInt8} (hc : c ∈ ([100, 105, 117, 120, 88, 111] : List UInt8)) :
    specifierBase c = 8 ∨ specifierBase c = 10 ∨ specifierBase c = 16 := by
  simp only [List.mem_cons, List.not_mem_nil, or_false] at hc
  rcases hc with rfl | rfl | rfl | rfl | rfl | rfl <;> decide

theorem printIntegerArg_readBack {c : UInt8} (hc : c ∈ ([100, 105, 117, 120, 88, 111] : List UInt8))
    (a : Arg) {precision width : Nat} {flags : Flags} (hpointer : flags.pointer = false)
    (hsigned : flags.signed = false) (hwidth : width < 2 ^ 32)
    (hfits : Fits precision width (integerFlags c flags)) :
    ∃ s : CString, (∀ g, printIntegerArg g c a precision width flags = g.puts s.text) ∧
      ReadBack c a flags s := by
  have hpointer' : (integerFlags c flags).pointer = false := by rw [integerFlags_pointer, hpointer]
  obtain ⟨hargSigned, hargUnsigned⟩ := integerFlags_length c a flags
  by_cases hsig : c = 100 ∨ c = 105
  · have hbase : specifierBase c = 10 := by rcases hsig with rfl | rfl <;> decide
    obtain ⟨hlow, hhigh⟩ := a.signed_range flags
    rw [LONG_MIN] at hlow
    rw [LONG_MAX] at hhigh
    obtain ⟨text, hshown, hprint⟩ := printInteger_shown (decide (a.signed flags < 0))
      (show (a.signed flags).natAbs < 2 ^ 64 by omega) (.inr (.inl rfl)) hfits hpointer'
    obtain ⟨s, rfl⟩ := hshown.cstring hwidth
    refine ⟨s, fun g => ?_, fun endptr errno => ⟨endptr.map fun _ => stop 10 s, ?_⟩⟩
    · simp only [printIntegerArg, hbase, integerFlags_signed c hsigned, hsig, decide_true, if_true,
        hargSigned]
      exact hprint g
    · have hdenoted : denoted 10 s.text = a.signed flags := by
        have heq := hshown.printed.denoted_eq (by decide)
        simp only [show ¬ (10 : Nat) = 16 by decide, false_and, decide_false, Bool.false_eq_true,
          if_false, decide_eq_true_eq] at heq
        rw [show (10 : Int) = ((10 : Nat) : Int) from rfl, heq]
        split <;> omega
      rw [if_pos hsig, strtol_eq s (.inr (by decide)), hdenoted, LONG_MIN, LONG_MAX,
        if_pos ⟨hlow, hhigh⟩, min_eq_left hhigh, max_eq_right hlow]
  · have hlt := a.unsigned_lt flags
    have hfits' : Fits precision width
        { integerFlags c flags with plus := false, space := false } :=
      ⟨hfits.precision, hfits.width⟩
    obtain ⟨text, hshown, hprint⟩ := printInteger_shown false hlt (specifierBase_cases hc) hfits'
      hpointer'
    obtain ⟨s, rfl⟩ := hshown.cstring hwidth
    refine ⟨s, fun g => ?_, fun endptr errno =>
      ⟨endptr.map fun _ => stop (readBase c flags (a.unsigned flags)) s, ?_⟩⟩
    · have hflags : ¬ (integerFlags c flags).signed = true := by
        rw [integerFlags_signed c hsigned, decide_eq_false hsig]
        exact Bool.false_ne_true
      rw [← hprint g, ← hargUnsigned]
      simp only [printIntegerArg]
      rw [if_neg hflags]
      rfl
    · have hdenoted : denoted (readBase c flags (a.unsigned flags)) s.text = a.unsigned flags := by
        have heq := hshown.printed.denoted_eq (by
          rcases specifierBase_cases hc with h | h | h <;> rw [h] <;> decide)
        simp only [integerFlags_hash, decide_eq_true_eq, Bool.false_eq_true, if_false] at heq
        rw [← heq, readBase]
        congr 1
        refine if_congr (and_congr_right fun h16 => ?_) rfl rfl
        simp [h16]
      have hisBase : IsBase (readBase c flags (a.unsigned flags)) := by
        rw [readBase]
        split
        · exact .inl rfl
        · rcases specifierBase_cases hc with h | h | h <;> rw [h] <;> exact .inr (by decide)
      have habs : ¬ |(a.unsigned flags : Int)| > ULONG_MAX := by
        rw [Nat.abs_cast, ULONG_MAX]
        omega
      have hmod : ((a.unsigned flags : Int) % 2 ^ 64).toNat = a.unsigned flags := by omega
      rw [if_neg hsig, strtoul_eq s hisBase, hdenoted, if_neg habs, if_neg habs, hmod]

theorem directive_text {p : Ptr} {args : Args} {spec : Spec}
    {text : List UInt8} (rest : Rest) (hspec : parseSpec (37 :: p) args = .ok spec)
    (hconvert : ∀ g, convert spec g [] = .ok ⟨g.puts text, rest.format, rest.args, []⟩)
    (hend : rest.format.head? = some 0) : Text (37 :: p) args text [] := by
  intro g _
  have hround : formatRound ⟨g, 37 :: p, args, []⟩ =
      .ok (.again ⟨g.puts text, rest.format, rest.args, []⟩) := by
    simp only [formatRound, show ¬ (37 : UInt8) = 0 by decide, if_false, hspec, ok_bind, hconvert]
    rfl
  have hdone : formatRound ⟨g.puts text, rest.format, rest.args, []⟩ =
      .ok (.done ⟨g.puts text, rest.format, rest.args, []⟩) := by
    obtain ⟨tail, htail⟩ := List.head?_eq_some_iff.mp hend
    simp only [formatRound, htail]
    rfl
  exact ⟨_, (Loop.ends_again hround).mpr ((Loop.ends_done hdone).mpr rfl), rfl, rfl⟩

/-- **What `printf` prints for an integer, `strtol` reads.**  A directive with any flags, width and
length, and one of the specifiers `d`, `i`, `u`, `x`, `X` and `o`, makes `snprintf` leave a string
in a buffer that is long enough, and `strtol` or `strtoul` returns the argument for it, converted to
the length of the directive, without an error.  The fields leave room for a prefix and a sign in the
32 bytes in which the number is put together. -/
theorem printed_integers_read_back {p : Ptr} {args : Args} {spec : Spec}
    {c : UInt8} {tail : Ptr} {a : Arg} {words : List Arg}
    (hspec : parseSpec (37 :: p) args = .ok spec) (hformat : spec.format = c :: 0 :: tail)
    (hc : c ∈ ([100, 105, 117, 120, 88, 111] : List UInt8)) (hargs : spec.args = a :: words)
    (hfits : Fits spec.precision spec.width (integerFlags c spec.flags)) :
    ∃ s : CString, Text (37 :: p) args s.text [] ∧ ReadBack c a spec.flags s ∧
      ∀ m n, s.text.length < n → n ≤ maxPossibleBufferSize → ∃ g returned,
        vsnprintf (some m) n (37 :: p) args (.ok (g, [], returned)) ∧
        returned.toInt = s.text.length ∧ g.buffer = some (m.write 0 s.bytes) := by
  obtain ⟨hpointer, hsigned, hwidth⟩ := parseSpec_unspecified hspec
  obtain ⟨s, hprint, hread⟩ := printIntegerArg_readBack hc a hpointer hsigned hwidth hfits
  have hconvert : ∀ g, convert spec g [] =
      .ok ⟨g.puts s.text, 0 :: tail, words, []⟩ := by
    intro g
    have hmem : c ∈ ([100, 105, 117, 120, 88, 111, 98] : List UInt8) :=
      List.mem_append_left [98] hc
    rw [convert, hformat]
    simp only [peek, List.head?_cons, orHalt, ok_bind, if_pos hmem, hargs, Args.word, hprint,
      List.tail_cons, pure_eq_ok]
  have htext := directive_text ⟨0 :: tail, words, []⟩ hspec hconvert
    rfl
  refine ⟨s, htext, hread, fun m n hn hmax => ?_⟩
  obtain ⟨s', hends, houtput, hstored⟩ := htext (bufferGadget (some m) n) rfl
  have hlt : s.text.length < 2 ^ 32 := by
    rw [maxPossibleBufferSize] at hmax
    omega
  have hkeep : (bufferGadget (some m) n).puts s.text = (bufferGadget (some m) n).keep s.text :=
    puts_keep (by show 0 + _ < _; omega)
  have hprinted : printed m n s.text = m.write 0 s.bytes := by
    rw [printed, if_neg (by omega), List.take_of_length_le (by omega), CString.bytes]
  refine ⟨appendTerminationWithGadget s'.output, _, ⟨_, hends, ?_⟩, toInt_length (by omega), ?_⟩
  · have hpos : s'.output.pos = UInt32.ofNat s.text.length := by
      rw [houtput, puts_pos]
      exact UInt32.zero_add _
    rw [Except.map, hstored, hpos]
  · rw [houtput, hkeep, termination_buffer m n hlt, hprinted]

/-- `"%#08x"` and the argument 255. -/
theorem printed_integers_read_back_hex :
    ∃ s : CString, Text [37, 35, 48, 56, 120, 0] [⟨255, []⟩]
        s.text [] ∧ ReadBack 120 ⟨255, []⟩ { hash := true, zeropad := true } s := by
  have hspec : parseSpec [37, 35, 48, 56, 120, 0] [⟨255, []⟩] =
      .ok ⟨[120, 0], [⟨255, []⟩], { hash := true, zeropad := true }, 8, 0⟩ := rfl
  obtain ⟨s, htext, hread, -⟩ := printed_integers_read_back hspec rfl
    (by decide) rfl ⟨by decide, fun _ => by decide⟩
  exact ⟨s, htext, hread⟩

/-- `"%.32d"` and -5: the digits leave no room for the sign. -/
example : (printIntegerArg functionGadget 100 ⟨-5, []⟩ 32 0 { precision := true }).function =
    some (List.replicate 31 48 ++ [53]) := by decide +kernel

end Stuos.Libc.Printf
