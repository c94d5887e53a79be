import Mathlib.Data.List.Induction
import Stuos.Lib.Runs
import Stuos.Lib.Utf8
import Stuos.Libc.CString

/-!
# Reading one character

`mbrtowc` reads the bytes of one UTF-8 character.  A lead byte sets up the state, and
`handle_continuation_bytes` shifts in one tail byte after the other (`MbState.push`); when the bytes
run out first the state says how many are to come, and the next call goes on from there.

`Holds n lead tails s` says what the state knows after a lead byte and some tail bytes.
`continuation_bad`, `continuation_stop` and `continuation_end` are the three ways the loop over
the tail bytes ends.
-/

namespace Stuos.Libc

open Stuos.Lib Stuos.Lib.Utf8

def EILSEQ : Int := 84

/-- `(size_t)-1` -/
def invalid : Nat := 2 ^ 64 - 1

/-- `(size_t)-2` -/
def incomplete : Nat := 2 ^ 64 - 2

/-! ### The source -/

/-- `mbstate_t` -/
structure MbState where
  buffer : UInt32 := 0
  expected_length : Nat := 0
  expected_remaining_bytes : Nat := 0
  deriving DecidableEq, Repr

/-- What a call leaves behind: `stored` is what `*output` gets, unless `output` is `NULL`. -/
structure Decoded where
  result : Nat
  stored : Option UInt32
  state : MbState
  errno : Int
  deriving DecidableEq, Repr

/-- One more continuation byte is shifted in. -/
def MbState.push (state : MbState) (next : UInt8) : MbState :=
  { state with
    buffer := state.buffer <<< 6 ||| (next &&& 0b00111111).toUInt32
    expected_remaining_bytes := state.expected_remaining_bytes - 1 }

/-- The switch after the last continuation byte. -/
def MbState.error (state : MbState) : Bool :=
  match state.expected_length with
  | 1 => state.buffer > 0x7F
  | 2 => state.buffer < 0x80 || state.buffer > 0x7FF
  | 3 => state.buffer < 0x800 || state.buffer > 0xFFFF
  | 4 => state.buffer < 0x10000 || state.buffer > 0x10FFFF
  | _ => true

/-- The loop from the index `i` on, `input` being what is left there. -/
def handle_continuation_bytes (input_bytes : Nat) (errno : Int) :
    Ptr → Nat → MbState → Except Fault Decoded
  | [], i, state =>
    if i < input_bytes ∧ state.expected_remaining_bytes > 0 then .error .overread
    else .ok ⟨incomplete, none, state, errno⟩
  | next :: rest, i, state =>
    if i < input_bytes ∧ state.expected_remaining_bytes > 0 then
      -- expect a continuation character which has high bits 10
      if next &&& 0b11000000 ≠ 0b10000000 then .ok ⟨invalid, none, state, EILSEQ⟩
      else
        let state := state.push next
        if state.expected_remaining_bytes = 0 then
          if state.error then .ok ⟨invalid, none, state, EILSEQ⟩
          else .ok ⟨i + 1, some state.buffer, state, errno⟩
        else handle_continuation_bytes input_bytes errno rest (i + 1) state
    else .ok ⟨incomplete, none, state, errno⟩

/-- `for(; next & (0b10000000 >> count); count++);` -/
def leading_ones (next : UInt8) : Nat :=
  ((List.range 8).takeWhile fun count => next.toNat &&& 0b10000000 >>> count ≠ 0).length

/-- The state after a lead byte with `count` leading ones. -/
def MbState.lead (count : Nat) (next : UInt8) : MbState :=
  { buffer := (next &&& UInt8.ofNat (0b10000000 >>> count - 1)).toUInt32
    expected_length := count
    expected_remaining_bytes := count - 1 }

/-- `state` is the caller's state, or the internal one if the caller gives none. -/
def mbrtowc (input : Option Ptr) (input_bytes : Nat) (state : MbState) (errno : Int) :
    Except Fault Decoded :=
  match input with
  | none =>
    if state.expected_remaining_bytes = 0 then .ok ⟨0, none, {}, errno⟩
    else .ok ⟨invalid, none, state, EILSEQ⟩
  | some input =>
    if input_bytes = 0 then .ok ⟨incomplete, none, state, errno⟩
    else if state.expected_remaining_bytes > 0 then
      -- partially completed character
      handle_continuation_bytes input_bytes errno input 0 state
    else do
      let next ← deref input
      if next &&& 0b10000000 ≠ 0 then
        let count := leading_ones next
        if count < 2 ∨ count > 4 then return ⟨invalid, none, {}, EILSEQ⟩
        else
          let rem ← handle_continuation_bytes (input_bytes - 1) errno input.tail 0 (.lead count next)
          return { rem with result := if toLong rem.result > 0 then rem.result + 1 else rem.result }
      else return ⟨if next ≠ 0 then 1 else 0, some next.toUInt32, state, errno⟩

example : mbrtowc (some [0xE2, 0x82]) 2 {} 0 =
    .ok ⟨incomplete, none,
      { buffer := 0x82, expected_length := 3, expected_remaining_bytes := 1 }, 0⟩ := by
  decide

/-! ### Bytes -/

theorem forall_byte {P : UInt8 → Prop} (h : ∀ n < 256, P (UInt8.ofNat n)) (b : UInt8) : P b := by
  have := h b.toNat b.toNat_lt
  rwa [UInt8.ofNat_toNat] at this

theorem isTail_iff (b : UInt8) : b &&& 0b11000000 = 0b10000000 ↔ IsTail b :=
  forall_byte (P := fun b => b &&& 0b11000000 = 0b10000000 ↔ IsTail b) (by decide +kernel) b

theorem high_bit_iff (b : UInt8) : b &&& 0b10000000 = 0 ↔ b.toNat < 0x80 :=
  forall_byte (P := fun b => b &&& 0b10000000 = 0 ↔ b.toNat < 0x80) (by decide +kernel) b

theorem leading_ones_iff {n : Nat} (hn : 2 ≤ n) (hn4 : n ≤ 4) (b : UInt8) :
    leading_ones b = n ↔ IsLead n b := by
  refine forall_byte (P := fun b => leading_ones b = n ↔ IsLead n b) ?_ b
  interval_cases n <;> decide +kernel

theorem lead_buffer {n : Nat} (hn : 2 ≤ n) (hn4 : n ≤ 4) (b : UInt8) :
    (MbState.lead n b).buffer.toNat = payload n b := by
  interval_cases n
  · exact Nat.and_two_pow_sub_one_eq_mod b.toNat 5
  · exact Nat.and_two_pow_sub_one_eq_mod b.toNat 4
  · exact Nat.and_two_pow_sub_one_eq_mod b.toNat 3

theorem push_buffer {s : MbState} (h : s.buffer.toNat < 2 ^ 26) (b : UInt8) :
    (s.push b).buffer.toNat = s.buffer.toNat * 64 + b.toNat % 64 := by
  have hlow : (b &&& 0b00111111).toUInt32.toNat = b.toNat % 64 :=
    Nat.and_two_pow_sub_one_eq_mod b.toNat 6
  have hlt : b.toNat % 64 < 2 ^ 6 := Nat.mod_lt _ (by decide)
  have hshift : (s.buffer <<< 6).toNat = s.buffer.toNat <<< 6 := by
    rw [UInt32.toNat_shiftLeft]
    simp only [UInt32.reduceToNat, Nat.shiftLeft_eq, Nat.reduceMod]
    omega
  rw [MbState.push, UInt32.toNat_or, hlow, hshift, ← Nat.shiftLeft_add_eq_or_of_lt hlt,
    Nat.shiftLeft_eq]

/-! ### The loop over the tail bytes -/

section

variable {input_bytes i : Nat} {errno : Int} {s : MbState} {tails rest : List UInt8}

@[simp] theorem remaining_foldl_push (tails : List UInt8) (s : MbState) :
    (tails.foldl MbState.push s).expected_remaining_bytes =
      s.expected_remaining_bytes - tails.length := by
  induction tails generalizing s with
  | nil => rfl
  | cons b tails ih =>
    rw [List.foldl_cons, ih, List.length_cons, MbState.push]
    dsimp only
    omega

/-- **Tail bytes are shifted in**, as long as they are not the last. -/
theorem continuation_append (htails : ∀ b ∈ tails, IsTail b)
    (hlt : tails.length < s.expected_remaining_bytes) (hle : i + tails.length ≤ input_bytes) :
    handle_continuation_bytes input_bytes errno (tails ++ rest) i s =
      handle_continuation_bytes input_bytes errno rest (i + tails.length)
        (tails.foldl MbState.push s) := by
  induction tails generalizing i s with
  | nil => rfl
  | cons b tails ih =>
    rw [List.length_cons] at hlt hle
    have hb : b &&& 0b11000000 = 0b10000000 := (isTail_iff b).mpr (htails b (by simp))
    have hrem : (s.push b).expected_remaining_bytes = s.expected_remaining_bytes - 1 := rfl
    rw [List.cons_append, handle_continuation_bytes, if_pos ⟨by omega, by omega⟩,
      if_neg (not_not.mpr hb)]
    dsimp only
    rw [if_neg (by omega), ih (fun b hb => htails b (by simp [hb])) (by omega) (by omega),
      List.length_cons, List.foldl_cons]
    congr 1
    omega

theorem continuation_bad {b : UInt8} (htails : ∀ b ∈ tails, IsTail b) (hb : ¬ IsTail b)
    (hlt : tails.length < s.expected_remaining_bytes) (hlt' : tails.length < input_bytes) :
    handle_continuation_bytes input_bytes errno (tails ++ b :: rest) 0 s =
      .ok ⟨invalid, none, tails.foldl MbState.push s, EILSEQ⟩ := by
  have hrem := remaining_foldl_push tails s
  rw [continuation_append htails hlt (by omega), handle_continuation_bytes,
    if_pos ⟨by omega, by omega⟩, if_pos (fun h => hb ((isTail_iff b).mp h))]

theorem continuation_stop (htails : ∀ b ∈ tails, IsTail b)
    (hlt : input_bytes < s.expected_remaining_bytes) (hlen : tails.length = input_bytes) :
    handle_continuation_bytes input_bytes errno (tails ++ rest) 0 s =
      .ok ⟨incomplete, none, tails.foldl MbState.push s, errno⟩ := by
  rw [continuation_append htails (by omega) (by omega)]
  cases rest with
  | nil => rw [handle_continuation_bytes, if_neg (by omega)]
  | cons b rest => rw [handle_continuation_bytes, if_neg (by omega)]

theorem continuation_end (htails : ∀ b ∈ tails, IsTail b) (hpos : 0 < s.expected_remaining_bytes)
    (hlen : tails.length = s.expected_remaining_bytes) (hle : tails.length ≤ input_bytes) :
    handle_continuation_bytes input_bytes errno (tails ++ rest) 0 s =
      .ok (if (tails.foldl MbState.push s).error then
          ⟨invalid, none, tails.foldl MbState.push s, EILSEQ⟩
        else ⟨tails.length, some (tails.foldl MbState.push s).buffer, tails.foldl MbState.push s,
          errno⟩) := by
  induction tails using List.reverseRecOn with
  | nil => rw [List.length_nil] at hlen; omega
  | append_singleton tails b _ =>
    rw [List.length_append, List.length_singleton] at hlen hle
    have hb : b &&& 0b11000000 = 0b10000000 := (isTail_iff b).mpr (htails b (by simp))
    have hrem := remaining_foldl_push tails s
    have hlast : ((tails.foldl MbState.push s).push b).expected_remaining_bytes = 0 := by
      rw [MbState.push]
      dsimp only
      omega
    rw [List.append_assoc, continuation_append (fun b hb => htails b (by simp [hb])) (by omega)
      (by omega), List.singleton_append, handle_continuation_bytes, if_pos ⟨by omega, by omega⟩,
      if_neg (not_not.mpr hb)]
    dsimp only
    rw [if_pos hlast, List.foldl_append, List.foldl_cons, List.foldl_nil, List.length_append,
      List.length_singleton, Nat.zero_add]
    split <;> rfl

theorem continuation_overread (htails : ∀ b ∈ tails, IsTail b)
    (hlt : tails.length < s.expected_remaining_bytes) (hlt' : tails.length < input_bytes) :
    handle_continuation_bytes input_bytes errno tails 0 s = .error .overread := by
  have hrem := remaining_foldl_push tails s
  have happ : handle_continuation_bytes input_bytes errno (tails ++ []) 0 s =
      handle_continuation_bytes input_bytes errno [] (0 + tails.length)
        (tails.foldl MbState.push s) :=
    continuation_append htails hlt (by omega)
  rw [List.append_nil] at happ
  rw [happ, handle_continuation_bytes, if_pos ⟨by omega, by omega⟩]

end

/-- **How tail bytes end**: with another byte, with the bytes given, with the bytes needed, or
with the array. -/
theorem tails_cases (input : List UInt8) (given needed : Nat) :
    (∃ tails b rest, input = tails ++ b :: rest ∧ (∀ b ∈ tails, IsTail b) ∧ ¬ IsTail b ∧
      tails.length < needed ∧ tails.length < given) ∨
    (∃ tails rest, input = tails ++ rest ∧ (∀ b ∈ tails, IsTail b) ∧ tails.length = given ∧
      given < needed) ∨
    (∃ tails rest, input = tails ++ rest ∧ (∀ b ∈ tails, IsTail b) ∧ tails.length = needed ∧
      needed ≤ given) ∨
    ((∀ b ∈ input, IsTail b) ∧ input.length < given ∧ input.length < needed) := by
  have htake : ∀ b ∈ input.takeWhile (IsTail ·), IsTail b := fun b hb => of_mem_run hb
  have hsplit : input.takeWhile (IsTail ·) ++ input.dropWhile (IsTail ·) = input :=
    List.takeWhile_append_dropWhile
  by_cases hshort : (input.takeWhile (IsTail ·)).length < min given needed
  · rcases hdrop : input.dropWhile (IsTail ·) with _ | ⟨b, rest⟩
    · rw [run_eq_self hdrop] at htake hshort
      exact Or.inr (Or.inr (Or.inr ⟨htake, by omega, by omega⟩))
    · exact Or.inl ⟨_, b, rest, (run_append_cons hdrop).symm, htake, not_of_run_end hdrop,
        by omega, by omega⟩
  · have htails (n : Nat) : ∀ b ∈ (input.takeWhile (IsTail ·)).take n, IsTail b :=
      fun b hb => htake b (List.mem_of_mem_take hb)
    have hcut (n : Nat) : input = (input.takeWhile (IsTail ·)).take n ++
        ((input.takeWhile (IsTail ·)).drop n ++ input.dropWhile (IsTail ·)) := by
      rw [← List.append_assoc, List.take_append_drop, hsplit]
    by_cases hlt : given < needed
    · exact Or.inr (Or.inl ⟨_, _, hcut given, htails given, by rw [List.length_take]; omega, hlt⟩)
    · exact Or.inr (Or.inr (Or.inl ⟨_, _, hcut needed, htails needed,
        by rw [List.length_take]; omega, by omega⟩))

/-! ### What the state knows -/

/-- The state after the lead byte `lead` of `n` bytes and the tail bytes `tails`. -/
structure Holds (n : Nat) (lead : UInt8) (tails : List UInt8) (s : MbState) : Prop where
  two_le : 2 ≤ n
  le_four : n ≤ 4
  isLead : IsLead n lead
  isTail : ∀ b ∈ tails, IsTail b
  length_le : tails.length ≤ n - 1
  expected_length : s.expected_length = n
  remaining : s.expected_remaining_bytes = n - 1 - tails.length
  buffer : s.buffer.toNat = assemble (payload n lead) tails

theorem holds_lead {n : Nat} {b : UInt8} (hn : 2 ≤ n) (hn4 : n ≤ 4) (h : IsLead n b) :
    Holds n b [] (.lead n b) :=
  ⟨hn, hn4, h, by simp, by simp, rfl, rfl, lead_buffer hn hn4 b⟩

namespace Holds

variable {n : Nat} {lead b : UInt8} {tails : List UInt8} {s : MbState}

theorem buffer_lt (h : Holds n lead tails s) (hlt : tails.length < n - 1) :
    s.buffer.toNat < 2 ^ 26 := by
  obtain ⟨hn, hn4, -, -, -, -, -, hbuffer⟩ := h
  have hpayload : payload n lead < 32 := by
    rw [payload]
    interval_cases n <;> omega
  have hlt' := assemble_lt tails hpayload
  have hpow : 64 ^ tails.length ≤ 64 ^ 2 := Nat.pow_le_pow_right (by decide) (by omega)
  rw [hbuffer]
  omega

/-- **One more tail byte is known.** -/
theorem push (h : Holds n lead tails s) (hb : IsTail b) (hlt : tails.length < n - 1) :
    Holds n lead (tails ++ [b]) (s.push b) := by
  refine ⟨h.two_le, h.le_four, h.isLead, ?_, ?_, h.expected_length, ?_, ?_⟩
  · intro c hc
    rcases List.mem_append.mp hc with hc | hc
    · exact h.isTail c hc
    · exact List.mem_singleton.mp hc ▸ hb
  · rw [List.length_append, List.length_singleton]
    omega
  · have := h.remaining
    rw [MbState.push, List.length_append, List.length_singleton]
    dsimp only
    omega
  · rw [push_buffer (h.buffer_lt hlt), h.buffer, assemble_append]
    rfl

theorem foldl_push {more : List UInt8} (h : Holds n lead tails s) (hmore : ∀ b ∈ more, IsTail b)
    (hle : tails.length + more.length ≤ n - 1) :
    Holds n lead (tails ++ more) (more.foldl MbState.push s) := by
  induction more generalizing tails s with
  | nil => rwa [List.append_nil, List.foldl_nil]
  | cons b more ih =>
    rw [List.length_cons] at hle
    rw [List.foldl_cons, List.append_cons]
    apply ih (h.push (hmore b (by simp)) (by omega)) (fun b hb => hmore b (by simp [hb]))
    rw [List.length_append, List.length_singleton]
    omega

/-- **The switch checks the range.** -/
theorem error_iff (h : Holds n lead tails s) :
    s.error = false ↔ InRange n (assemble (payload n lead) tails) := by
  obtain ⟨hn, hn4, -, -, -, hlength, -, hbuffer⟩ := h
  rw [← hbuffer, MbState.error, hlength]
  interval_cases n
  · simp only [InRange, Bool.or_eq_false_iff, decide_eq_false_iff_not, gt_iff_lt,
      UInt32.lt_iff_toNat_lt, UInt32.reduceToNat]
    omega
  · simp only [InRange, Bool.or_eq_false_iff, decide_eq_false_iff_not, gt_iff_lt,
      UInt32.lt_iff_toNat_lt, UInt32.reduceToNat]
    omega
  · simp only [InRange, maxValue, Bool.or_eq_false_iff, decide_eq_false_iff_not, gt_iff_lt,
      UInt32.lt_iff_toNat_lt, UInt32.reduceToNat]
    omega

end Holds

end Stuos.Libc
