import Mathlib.Order.Bounds.Defs
import Stuos.Lib.Runs
import Stuos.Libc.Strtol

/-!
# Where a number ends

The end stored by `strtol` and `strtoul` should be the first character after the longest number in
front of the string (`EndsAt`), where a number is white space, a sign, a prefix of its base and at
least one digit (`IsNumber`).  The digit loop passes the character it stops at, so the end is
right only if the digits run to the end of the string (`strtol_strtoul_end`), and with base 16 the
`x` of a prefix stops it (`strtol_strtoul_hexadecimal`).
-/

namespace Stuos.Libc

open Stuos.Lib

/-- The base of digits without a prefix. -/
def plainRadix (base : Int) (digits : List UInt8) : Nat :=
  if base ≠ 0 then base.toNat else if digits.head? = some 48 then 8 else 10

/-- Digits, with the prefix of base 16 or without. -/
inductive IsNumeral (base : Int) : List UInt8 → Prop
  | plain {digits} (hne : digits ≠ []) (hdigits : ∀ c ∈ digits, IsDigit (plainRadix base digits) c) :
      IsNumeral base digits
  | marked {x digits} (hbase : base = 0 ∨ base = 16) (hx : x = 120 ∨ x = 88) (hne : digits ≠ [])
      (hdigits : ∀ c ∈ digits, IsDigit 16 c) : IsNumeral base (48 :: x :: digits)

/-- White space, a sign and a numeral. -/
def IsNumber (base : Int) (w : List UInt8) : Prop :=
  ∃ spaces sign num, w = spaces ++ sign ++ num ∧ (∀ c ∈ spaces, IsSpace c) ∧
    (sign = [] ∨ ∃ c, IsSign c ∧ sign = [c]) ∧ IsNumeral base num

/-- `n` is where the longest number in front ends, the start if there is none. -/
def EndsAt (base : Int) (text : List UInt8) (n : Nat) : Prop :=
  IsGreatest {k | k ≤ text.length ∧ IsNumber base (text.take k)} n ∨
    n = 0 ∧ ∀ k ≤ text.length, ¬ IsNumber base (text.take k)

/-- Digits, and nothing behind them, follow the sign. -/
def OnlyDigits (base : Int) (text : List UInt8) : Prop :=
  (∀ c ∈ numeral base text, IsDigit (radix base text) c) ∧
    (base = 0 → Marked (unsigned text) = true → numeral base text ≠ [])

/-! ### Taking a number apart -/

theorem not_isSpace_of_isSign {c : UInt8} (h : IsSign c) : ¬ IsSpace c := by
  rcases h with rfl | rfl <;> decide

theorem isDigit_cases {b : Nat} {c : UInt8} (h : IsDigit b c) : ¬ IsSpace c ∧ ¬ IsSign c := by
  obtain ⟨d, -, hd⟩ := h
  constructor
  · intro hspace
    simp only [IsSpace, List.mem_cons, List.not_mem_nil, or_false] at hspace
    rcases hspace with rfl | rfl | rfl | rfl | rfl | rfl <;> cases hd
  · rintro (rfl | rfl) <;> cases hd

theorem IsNumeral.exists_cons {base : Int} {num : List UInt8} (h : IsNumeral base num) :
    ∃ c rest, num = c :: rest ∧ ¬ IsSpace c ∧ ¬ IsSign c := by
  cases h with
  | plain hne hdigits =>
    obtain ⟨c, rest, rfl⟩ := List.exists_cons_of_ne_nil hne
    exact ⟨c, rest, rfl, isDigit_cases (hdigits c (by simp))⟩
  | marked => exact ⟨48, _, rfl, by decide, by decide⟩

theorem exists_lead (text : List UInt8) :
    ∃ spaces sign, text = spaces ++ sign ++ unsigned text ∧ (∀ c ∈ spaces, IsSpace c) ∧
      (sign = [] ∨ ∃ c, IsSign c ∧ sign = [c]) := by
  have hspaces : ∀ c ∈ text.takeWhile (IsSpace ·), IsSpace c := fun c hc => of_mem_run hc
  have htext : text = text.takeWhile (IsSpace ·) ++ trimmed text :=
    List.takeWhile_append_dropWhile.symm
  rcases htrim : trimmed text with _ | ⟨c, rest⟩
  · refine ⟨_, [], ?_, hspaces, Or.inl rfl⟩
    rw [unsigned, htrim, List.append_nil]
    rwa [htrim] at htext
  · by_cases hsign : IsSign c
    · refine ⟨_, [c], ?_, hspaces, Or.inr ⟨c, hsign, rfl⟩⟩
      simp only [unsigned, htrim, if_pos hsign, List.append_assoc, List.singleton_append]
      rwa [htrim] at htext
    · refine ⟨_, [], ?_, hspaces, Or.inl rfl⟩
      simp only [unsigned, htrim, if_neg hsign, List.append_nil]
      rwa [htrim] at htext

/-- **The numeral of a number in front** stands behind the sign. -/
theorem unsigned_of_isNumber {spaces sign num rest : List UInt8} {base : Int}
    (hspaces : ∀ c ∈ spaces, IsSpace c) (hsign : sign = [] ∨ ∃ c, IsSign c ∧ sign = [c])
    (hnum : IsNumeral base num) : unsigned (spaces ++ sign ++ num ++ rest) = num ++ rest := by
  obtain ⟨d, num', rfl, hdspace, hdsign⟩ := hnum.exists_cons
  have hall : ∀ c ∈ spaces, decide (IsSpace c) = true := fun c hc => by simpa using hspaces c hc
  have htrim (l : List UInt8) : trimmed (spaces ++ l) = l.dropWhile (IsSpace ·) := by
    rw [trimmed, List.dropWhile_append_of_pos hall]
  rcases hsign with rfl | ⟨c, hc, rfl⟩
  · rw [unsigned, List.append_nil, List.append_assoc, htrim, List.cons_append,
      List.dropWhile_cons_of_neg (by simpa using hdspace)]
    exact if_neg hdsign
  · rw [unsigned, List.append_assoc, List.append_assoc, htrim, List.singleton_append,
      List.dropWhile_cons_of_neg (by simpa using not_isSpace_of_isSign hc)]
    exact if_pos hc

/-- How much stands before the digits. -/
def lead (text : List UInt8) : Nat := text.length - (unsigned text).length

theorem lead_add (text : List UInt8) : lead text + (unsigned text).length = text.length := by
  obtain ⟨spaces, sign, htext, -⟩ := exists_lead text
  have := congrArg List.length htext
  rw [lead]
  simp only [List.length_append] at this
  omega

theorem isNumber_take_iff {base : Int} {text : List UInt8} {k : Nat} (hk : k ≤ text.length) :
    IsNumber base (text.take k) ↔
      lead text ≤ k ∧ IsNumeral base ((unsigned text).take (k - lead text)) := by
  have hlead := lead_add text
  constructor
  · rintro ⟨spaces, sign, num, hw, hspaces, hsign, hnum⟩
    have htext : spaces ++ sign ++ num ++ text.drop k = text := by
      rw [← hw, List.take_append_drop]
    have huns : unsigned text = num ++ text.drop k := by
      conv_lhs => rw [← htext]
      exact unsigned_of_isNumber hspaces hsign hnum
    have hlen := congrArg List.length huns
    have hk' : lead text + num.length = k := by
      rw [List.length_append, List.length_drop] at hlen
      omega
    refine ⟨by omega, ?_⟩
    rw [huns, ← hk', Nat.add_sub_cancel_left, List.take_left]
    exact hnum
  · rintro ⟨hle, hnum⟩
    obtain ⟨spaces, sign, htext, hspaces, hsign⟩ := exists_lead text
    have hlen := congrArg List.length htext
    have hpre : (spaces ++ sign).length = lead text := by
      rw [List.length_append] at hlen
      omega
    refine ⟨spaces, sign, _, ?_, hspaces, hsign, hnum⟩
    conv_lhs => rw [htext]
    rw [List.take_append, hpre, List.take_of_length_le (by omega)]

/-! ### The end that is stored -/

theorem EndsAt.le {base : Int} {text : List UInt8} {n : Nat} (h : EndsAt base text n) :
    n ≤ text.length := by
  rcases h with h | ⟨rfl, -⟩
  · exact h.1.1
  · exact Nat.zero_le _

theorem marked_iff {t : List UInt8} :
    Marked t = true ↔ ∃ x rest, (x = 120 ∨ x = 88) ∧ t = 48 :: x :: rest := by
  rcases t with _ | ⟨c, _ | ⟨x, rest⟩⟩
  · simp [Marked]
  · simp [Marked]
  · simp only [Marked, Bool.and_eq_true, Bool.or_eq_true, decide_eq_true_eq, List.cons.injEq]
    constructor
    · rintro ⟨rfl, hx⟩
      exact ⟨x, rest, hx, rfl, rfl, rfl⟩
    · rintro ⟨x', rest', hx, rfl, rfl, rfl⟩
      exact ⟨rfl, hx⟩

/-- What follows the sign is the prefix, if base 0 takes one off, and the digits. -/
theorem unsigned_cases (base : Int) (text : List UInt8) :
    (base = 0 ∧ Marked (unsigned text) = true ∧ radix base text = 16 ∧
      ∃ x, (x = 120 ∨ x = 88) ∧ unsigned text = 48 :: x :: numeral base text) ∨
    (¬ (base = 0 ∧ Marked (unsigned text) = true) ∧ numeral base text = unsigned text ∧
      radix base text = plainRadix base (unsigned text)) := by
  by_cases h : base = 0 ∧ Marked (unsigned text) = true
  · refine Or.inl ⟨h.1, h.2, ?_, ?_⟩
    · rw [radix, if_neg (not_not.mpr h.1), if_pos h.2]
    · rw [numeral, if_pos h]
      obtain ⟨x, rest, hx, huns⟩ := marked_iff.mp h.2
      exact ⟨x, hx, by rw [huns]; rfl⟩
  · refine Or.inr ⟨h, by rw [numeral, if_neg h], ?_⟩
    rw [radix, plainRadix]
    by_cases h0 : base = 0
    · rw [if_neg (not_not.mpr h0), if_neg (not_not.mpr h0), if_neg (fun hm => h ⟨h0, hm⟩)]
    · rw [if_pos h0, if_pos h0]

theorem isNumeral_of_onlyDigits {base : Int} {text : List UInt8} (h : OnlyDigits base text)
    (hne : numeral base text ≠ []) : IsNumeral base (unsigned text) := by
  rcases unsigned_cases base text with ⟨h0, -, hradix, x, hx, huns⟩ | ⟨-, huns, hradix⟩
  · rw [huns]
    exact .marked (Or.inl h0) hx hne (hradix ▸ h.1)
  · have hdigits := h.1
    rw [huns, hradix] at hdigits
    exact .plain (huns ▸ hne) hdigits

/-- **If nothing follows the digits**, the end is right. -/
theorem stop_of_onlyDigits {base : Int} {s : CString} (h : OnlyDigits base s.text) :
    ∃ n, stop base s = s.bytes.drop n ∧ EndsAt base s.text n := by
  by_cases hnum : numeral base s.text = []
  · have huns : unsigned s.text = [] := by
      rcases unsigned_cases base s.text with ⟨h0, hmarked, -⟩ | ⟨-, huns, -⟩
      · exact absurd hnum (h.2 h0 hmarked)
      · rw [← huns, hnum]
    refine ⟨0, by rw [stop, if_pos hnum, List.drop_zero], Or.inr ⟨rfl, ?_⟩⟩
    intro k hk hnumber
    obtain ⟨c, rest, hcons, -⟩ := ((isNumber_take_iff hk).mp hnumber).2.exists_cons
    rw [huns, List.take_nil] at hcons
    cases hcons
  · have hlead := lead_add s.text
    refine ⟨s.text.length, ?_, Or.inl ⟨⟨le_rfl, ?_⟩, fun k hk => hk.1⟩⟩
    · have hdrop : (numeral base s.text).dropWhile (IsDigit (radix base s.text) ·) = [] := by
        rw [List.dropWhile_eq_nil_iff]
        intro c hc
        simpa using h.1 c hc
      rw [stop, if_neg hnum, past, hdrop, CString.bytes, List.drop_left]
      rfl
    · rw [isNumber_take_iff le_rfl, ← hlead, Nat.add_sub_cancel_left, List.take_length]
      exact ⟨Nat.le_add_right _ _, isNumeral_of_onlyDigits h hnum⟩

/-- A numeral does not go on to the character that ends its digits. -/
theorem not_isNumeral_past {base : Int} {text run rest : List UInt8} {c : UInt8}
    (hnum : numeral base text = run ++ c :: rest)
    (hrun : ∀ d ∈ run, IsDigit (radix base text) d) (hc : ¬ IsDigit (radix base text) c) :
    ¬ IsNumeral base ((unsigned text).take ((unsigned text).length - rest.length)) := by
  have htake (l : List UInt8) : (l ++ c :: rest).take ((l ++ c :: rest).length - rest.length) =
      l ++ [c] := by
    rw [List.append_cons, List.length_append, Nat.add_sub_cancel, List.take_left]
  have h120 : ¬ IsDigit 8 120 ∧ ¬ IsDigit 16 120 := by decide
  have h88 : ¬ IsDigit 8 88 ∧ ¬ IsDigit 16 88 := by decide
  rcases unsigned_cases base text with ⟨h0, -, hradix, x, hx, huns⟩ | ⟨hnot, huns, hradix⟩
  · have h := htake (48 :: x :: run)
    rw [huns, hnum]
    simp only [List.cons_append] at h
    rw [h]
    intro hnumeral
    cases hnumeral with
    | plain hne hdigits =>
      have hdigit := hdigits x (by simp)
      rw [h0] at hdigit
      rcases hx with rfl | rfl
      · exact h120.1 hdigit
      · exact h88.1 hdigit
    | marked hbase hx' hne hdigits =>
      rw [hradix] at hc
      exact hc (hdigits c (by simp))
  · rw [← huns, hnum, htake]
    intro hnumeral
    have hhead : (run ++ [c]).head? = (unsigned text).head? := by
      rw [← huns, hnum]
      cases run <;> rfl
    generalize hw : run ++ [c] = w at hnumeral hhead
    cases hnumeral with
    | plain hne hdigits =>
      rw [plainRadix, hhead, ← plainRadix, ← hradix] at hdigits
      exact hc (hdigits c (by simp [← hw]))
    | @marked x digits hbase hx hne hdigits =>
      rcases hbase with h0 | h16
      · -- base 0 would have taken the prefix off
        have hmarked : unsigned text = 48 :: x :: (digits ++ rest) := by
          rw [← huns, hnum, List.append_cons, hw]
          rfl
        exact hnot ⟨h0, marked_iff.mpr ⟨x, _, hx, hmarked⟩⟩
      · -- with base 16 the `x` is among the digits
        have hrun' : run = 48 :: x :: digits.dropLast := by
          have := congrArg List.dropLast hw
          rw [List.dropLast_concat, List.dropLast_cons_of_ne_nil (by simp),
            List.dropLast_cons_of_ne_nil hne] at this
          exact this
        have hdigit := hrun x (by simp [hrun'])
        rw [h16, radix_eq (by decide)] at hdigit
        rcases hx with rfl | rfl
        · exact h120.2 hdigit
        · exact h88.2 hdigit

theorem onlyDigits_of_stop {base : Int} {s : CString} {n : Nat} (hends : EndsAt base s.text n)
    (hstop : stop base s = s.bytes.drop n) : OnlyDigits base s.text := by
  have hlen := congrArg List.length hstop
  have hle := hends.le
  have hlead := lead_add s.text
  have hbytes : s.bytes.length = s.text.length + 1 := by rw [CString.bytes, List.length_append]; rfl
  rw [List.length_drop, hbytes] at hlen
  by_cases hnum : numeral base s.text = []
  · refine ⟨by rw [hnum]; simp, fun h0 hmarked => absurd hnum ?_⟩
    -- the zero of the prefix is a number already, but the end stored is the start
    obtain ⟨x, rest, -, huns⟩ := marked_iff.mp hmarked
    rw [stop, if_pos hnum, hbytes] at hlen
    have hone : lead s.text + 1 ≤ s.text.length := by
      have := congrArg List.length huns
      rw [List.length_cons] at this
      omega
    have hzero : IsNumber base (s.text.take (lead s.text + 1)) := by
      rw [isNumber_take_iff hone, Nat.add_sub_cancel_left, huns, h0]
      exact ⟨Nat.le_add_right _ _, .plain (by simp) (by simp [plainRadix]; decide)⟩
    rcases hends with hends | hends
    · have := hends.2 ⟨hone, hzero⟩
      omega
    · exact absurd hzero (hends.2 _ hone)
  · refine ⟨?_, fun _ _ => hnum⟩
    by_contra hall
    obtain ⟨run, c, rest, hsplit, hrun, hc, hdrop⟩ := exists_first_not hall
    rw [stop, if_neg hnum, past, hdrop, List.tail_cons, List.length_append,
      List.length_singleton] at hlen
    have hlt : rest.length < (unsigned s.text).length := by
      have h1 := congrArg List.length hsplit
      have h2 : (numeral base s.text).length ≤ (unsigned s.text).length := by
        rw [numeral]
        split
        · rw [List.length_drop]; omega
        · exact le_rfl
      rw [List.length_append, List.length_cons] at h1
      omega
    rcases hends with ⟨hmem, -⟩ | ⟨hn0, -⟩
    · obtain ⟨-, hnumeral⟩ := (isNumber_take_iff hle).mp hmem.2
      rw [show n - lead s.text = (unsigned s.text).length - rest.length by omega] at hnumeral
      exact not_isNumeral_past hsplit hrun hc hnumeral
    · omega

/-- The function stores the end of the longest number, and the start if there is none. -/
def StoresEnd {α : Type} (f : Ptr → Option Ptr → Int → Int → Except Fault (Returned α))
    (s : CString) (base : Int) (old : Ptr) (errno : Int) : Prop :=
  ∃ r n, f s.bytes (some old) base errno = .ok r ∧ r.endptr = some (s.bytes.drop n) ∧
    EndsAt base s.text n

theorem storesEnd_iff {α : Type} {f : Ptr → Option Ptr → Int → Int → Except Fault (Returned α)}
    {s : CString} {base : Int} {old : Ptr} {errno : Int} {r : Returned α}
    (hf : f s.bytes (some old) base errno = .ok r) (hr : r.endptr = some (stop base s)) :
    StoresEnd f s base old errno ↔ OnlyDigits base s.text := by
  constructor
  · rintro ⟨r', n, hf', hend, hends⟩
    rw [hf, Except.ok.injEq] at hf'
    rw [← hf', hr, Option.some.injEq] at hend
    exact onlyDigits_of_stop hends hend
  · intro honly
    obtain ⟨n, hstop, hends⟩ := stop_of_onlyDigits honly
    exact ⟨r, n, hf, by rw [hr, hstop], hends⟩

/-- **The end is right only if nothing follows the digits.** -/
theorem strtol_strtoul_end (s : CString) (base : Int) (hbase : IsBase base) (old : Ptr)
    (errno : Int) :
    (StoresEnd strtol s base old errno ↔ OnlyDigits base s.text) ∧
      (StoresEnd strtoul s base old errno ↔ OnlyDigits base s.text) :=
  ⟨storesEnd_iff (strtol_eq s hbase (some old) errno) rfl,
    storesEnd_iff (strtoul_eq s hbase (some old) errno) rfl⟩

/-- The end of `"12"` is the terminator. -/
theorem strtol_strtoul_end_twelve :
    StoresEnd strtol ⟨[49, 50], by simp, by decide⟩ 10 [] 0 ∧
      StoresEnd strtoul ⟨[49, 50], by simp, by decide⟩ 10 [] 0 := by
  obtain ⟨hstrtol, hstrtoul⟩ :=
    strtol_strtoul_end ⟨[49, 50], by simp, by decide⟩ 10 (Or.inr (by decide)) [] 0
  have honly : OnlyDigits 10 [49, 50] := by
    refine ⟨fun c hc => ?_, fun h => absurd h (by decide)⟩
    have hnumeral : numeral 10 [49, 50] = [49, 50] := by decide
    rw [hnumeral, List.mem_cons, List.mem_singleton] at hc
    rcases hc with rfl | rfl
    · decide
    · decide
  exact ⟨hstrtol.mpr honly, hstrtoul.mpr honly⟩

/-- `"1;"` -/
def oneAndMore : CString := ⟨[49, 59], by simp, by decide⟩

/-- The `;` is passed. -/
theorem not_storesEnd_oneAndMore :
    ¬ StoresEnd strtol oneAndMore 10 [] 0 ∧ ¬ StoresEnd strtoul oneAndMore 10 [] 0 := by
  have hbase : IsBase 10 := Or.inr (by decide)
  have hnot : ¬ OnlyDigits 10 oneAndMore.text := fun h => absurd (h.1 59 (by decide)) (by decide)
  exact ⟨fun h => hnot ((storesEnd_iff (strtol_eq _ hbase _ _) rfl).mp h),
    fun h => hnot ((storesEnd_iff (strtoul_eq _ hbase _ _) rfl).mp h)⟩

/-! ### Hexadecimal numbers -/

/-- `0x` and a digit follow the sign. -/
def HexMarked (text : List UInt8) : Prop :=
  ∃ x h rest, (x = 120 ∨ x = 88) ∧ IsDigit 16 h ∧ unsigned text = 48 :: x :: h :: rest

/-- The same value and the same end with base 16 as with base 0. -/
def Agrees {α : Type} (f : Ptr → Option Ptr → Int → Int → Except Fault (Returned α))
    (s : CString) (old : Ptr) (errno : Int) : Prop :=
  ∃ r r', f s.bytes (some old) 16 errno = .ok r ∧ f s.bytes (some old) 0 errno = .ok r' ∧
    r.value = r'.value ∧ r.endptr = r'.endptr

/-- **Base 16 stops at the `x`**, base 0 behind it. -/
theorem stop_ne_of_hexMarked {s : CString} (hs : HexMarked s.text) : stop 16 s ≠ stop 0 s := by
  obtain ⟨x, h, rest, hx, hh, huns⟩ := hs
  have hmarked : Marked (unsigned s.text) = true := marked_iff.mpr ⟨x, _, hx, huns⟩
  have hxd : ¬ IsDigit 16 x := by rcases hx with rfl | rfl <;> decide
  have h0d : IsDigit 16 48 := by decide
  have h16 : numeral 16 s.text = 48 :: x :: h :: rest := by
    rw [numeral, if_neg (fun hand => absurd hand.1 (by decide)), huns]
  have h0 : numeral 0 s.text = h :: rest := by
    rw [numeral, if_pos ⟨rfl, hmarked⟩, huns]
    rfl
  have hr0 : radix 0 s.text = 16 := by
    rw [radix, if_neg (not_not.mpr rfl), if_pos hmarked]
  have hr16 : radix 16 s.text = 16 := radix_eq (by decide)
  intro heq
  have hlen := congrArg List.length heq
  have hle : (rest.dropWhile (IsDigit 16 ·)).length ≤ rest.length := List.length_dropWhile_le _ _
  rw [stop, stop, h16, h0, if_neg (List.cons_ne_nil _ _), if_neg (List.cons_ne_nil _ _), hr0, hr16,
    past, past, List.dropWhile_cons_of_pos (by simpa using h0d),
    List.dropWhile_cons_of_neg (by simpa using hxd),
    List.dropWhile_cons_of_pos (by simpa using hh)] at hlen
  simp only [List.tail_cons, List.length_append, List.length_cons, List.length_tail] at hlen
  omega

theorem agrees_iff {α : Type} {f : Ptr → Option Ptr → Int → Int → Except Fault (Returned α)}
    {s : CString} {old : Ptr} {errno : Int} {r r' : Returned α}
    (h16 : f s.bytes (some old) 16 errno = .ok r) (h0 : f s.bytes (some old) 0 errno = .ok r') :
    Agrees f s old errno ↔ r.value = r'.value ∧ r.endptr = r'.endptr := by
  constructor
  · rintro ⟨q, q', hq, hq', hvalue, hend⟩
    rw [h16, Except.ok.injEq] at hq
    rw [h0, Except.ok.injEq] at hq'
    rw [hq, hq']
    exact ⟨hvalue, hend⟩
  · rintro ⟨hvalue, hend⟩
    exact ⟨r, r', h16, h0, hvalue, hend⟩

theorem not_agrees {α : Type} {f : Ptr → Option Ptr → Int → Int → Except Fault (Returned α)}
    {s : CString} {old : Ptr} {errno : Int} {r r' : Returned α} (hs : HexMarked s.text)
    (h16 : f s.bytes (some old) 16 errno = .ok r) (h0 : f s.bytes (some old) 0 errno = .ok r')
    (hr : r.endptr = some (stop 16 s)) (hr' : r'.endptr = some (stop 0 s)) :
    ¬ Agrees f s old errno := by
  rw [agrees_iff h16 h0, hr, hr', Option.some.injEq]
  exact fun h => stop_ne_of_hexMarked hs h.2

/-- **Base 16 and base 0 never agree on a number with the prefix.** -/
theorem strtol_strtoul_hexadecimal (s : CString) (hs : HexMarked s.text) (old : Ptr)
    (errno : Int) : ¬ Agrees strtol s old errno ∧ ¬ Agrees strtoul s old errno :=
  ⟨not_agrees hs (strtol_eq s (Or.inr (by decide)) _ _) (strtol_eq s (Or.inl rfl) _ _) rfl rfl,
    not_agrees hs (strtoul_eq s (Or.inr (by decide)) _ _) (strtoul_eq s (Or.inl rfl) _ _) rfl rfl⟩

/-- `"0x1f"` -/
def hexNumber : CString := ⟨[48, 120, 49, 102], by simp, by decide⟩

theorem strtol_strtoul_hexadecimal_hexNumber :
    ¬ Agrees strtol hexNumber [] 0 ∧ ¬ Agrees strtoul hexNumber [] 0 :=
  strtol_strtoul_hexadecimal hexNumber
    ⟨120, 49, [102], Or.inl rfl, by decide, by decide⟩ [] 0

/-- Base 16 reads 0 and stops before the `1`, base 0 reads 31 and stops at the end. -/
theorem not_agrees_hexNumber :
    ¬ Agrees strtol hexNumber [] 0 ∧ ¬ Agrees strtoul hexNumber [] 0 := by
  have h16 : strtol hexNumber.bytes (some []) 16 0 = .ok ⟨0, some [49, 102, 0], 0⟩ := by decide
  have h0 : strtol hexNumber.bytes (some []) 0 0 = .ok ⟨31, some [0], 0⟩ := by decide
  have hu16 : strtoul hexNumber.bytes (some []) 16 0 = .ok ⟨0, some [49, 102, 0], 0⟩ := by decide
  have hu0 : strtoul hexNumber.bytes (some []) 0 0 = .ok ⟨31, some [0], 0⟩ := by decide
  rw [agrees_iff h16 h0, agrees_iff hu16 hu0]
  exact ⟨fun h => absurd h.1 (by decide), fun h => absurd h.1 (by decide)⟩

end Stuos.Libc
