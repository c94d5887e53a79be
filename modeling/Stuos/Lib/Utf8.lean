import Mathlib.Algebra.Order.Ring.Int
import Mathlib.Data.List.Basic
import Mathlib.Tactic.IntervalCases
import Mathlib.Tactic.Ring

/-!
# UTF-8

A value of at most `0x10FFFF` is encoded in one byte below `0x80`, or in a lead byte that says how
many bytes there are and tail bytes of six bits each (`encode`).  `assemble` puts the bits together
again.

* `encode_char`: for the characters this is the encoding of the core library.
* `exists_parts`, `encode_assemble`: **the encodings of more than one byte** are the lead and tail
  bytes whose value is in the range of their number.
* `surrogate_iff`: the encodings of the surrogates, which are no characters.
-/

namespace Stuos.Lib.Utf8

/-- The greatest value there is. -/
def maxValue : Nat := 0x10FFFF

/-- A tail byte: the bits `10` and six more. -/
def IsTail (b : UInt8) : Prop := b.toNat / 64 = 2

instance (b : UInt8) : Decidable (IsTail b) := inferInstanceAs (Decidable (_ = _))

/-- A lead byte of `n` bytes: `n` bits `1`, a `0` and the rest of the bits. -/
def IsLead (n : Nat) (b : UInt8) : Prop := b.toNat / 2 ^ (7 - n) = 2 ^ (n + 1) - 2

instance (n : Nat) (b : UInt8) : Decidable (IsLead n b) := inferInstanceAs (Decidable (_ = _))

/-- The bits of a lead byte of `n` bytes. -/
def payload (n : Nat) (b : UInt8) : Nat := b.toNat % 2 ^ (7 - n)

/-- The value with six more bits for every tail byte. -/
def assemble (v : Nat) (tails : List UInt8) : Nat :=
  tails.foldl (fun v b => v * 64 + b.toNat % 64) v

/-- The values of `n` bytes. -/
def InRange : Nat → Nat → Prop
  | 1, v => v < 0x80
  | 2, v => 0x80 ≤ v ∧ v < 0x800
  | 3, v => 0x800 ≤ v ∧ v < 0x10000
  | 4, v => 0x10000 ≤ v ∧ v ≤ maxValue
  | _, _ => False

/-- The last `k` tail bytes. -/
def tailBytes : Nat → Nat → List UInt8
  | 0, _ => []
  | k + 1, v => UInt8.ofNat (0x80 + v / 64 ^ k % 64) :: tailBytes k v

/-- The number of bytes. -/
def width (v : Nat) : Nat :=
  if v < 0x80 then 1 else if v < 0x800 then 2 else if v < 0x10000 then 3 else 4

/-- The lead byte of `n` bytes. -/
def leadByte (n v : Nat) : UInt8 := UInt8.ofNat (2 ^ 8 - 2 ^ (8 - n) + v / 64 ^ (n - 1))

/-- **The encoding of a value.** -/
def encode (v : Nat) : List UInt8 :=
  if v < 0x80 then [UInt8.ofNat v] else leadByte (width v) v :: tailBytes (width v - 1) v

/-! ### Tail bytes -/

@[simp] theorem tailBytes_length (k v : Nat) : (tailBytes k v).length = k := by
  induction k with
  | zero => rfl
  | succ k ih => rw [tailBytes, List.length_cons, ih]

theorem toNat_tail (v : Nat) : (UInt8.ofNat (0x80 + v % 64)).toNat = 0x80 + v % 64 := by
  rw [UInt8.toNat_ofNat']
  omega

theorem isTail_of_mem {k v : Nat} {b : UInt8} (h : b ∈ tailBytes k v) : IsTail b := by
  induction k with
  | zero => cases h
  | succ k ih =>
    rcases List.mem_cons.mp h with rfl | h
    · rw [IsTail, toNat_tail]
      omega
    · exact ih h

@[simp] theorem assemble_nil (v : Nat) : assemble v [] = v := rfl

theorem assemble_cons (v : Nat) (b : UInt8) (l : List UInt8) :
    assemble v (b :: l) = assemble (v * 64 + b.toNat % 64) l := rfl

theorem assemble_append (v : Nat) (l l' : List UInt8) :
    assemble v (l ++ l') = assemble (assemble v l) l' := List.foldl_append

/-- **The tail bytes carry the low bits.** -/
theorem assemble_tailBytes (k v : Nat) : assemble (v / 64 ^ k) (tailBytes k v) = v := by
  induction k with
  | zero => rw [tailBytes, assemble_nil, pow_zero, Nat.div_one]
  | succ k ih =>
    have hbits : (UInt8.ofNat (0x80 + v / 64 ^ k % 64)).toNat % 64 = v / 64 ^ k % 64 := by
      rw [toNat_tail]
      omega
    have hstep : v / 64 ^ (k + 1) * 64 + v / 64 ^ k % 64 = v / 64 ^ k := by
      rw [pow_succ, ← Nat.div_div_eq_div_mul]
      omega
    rw [tailBytes, assemble_cons, hbits, hstep, ih]

theorem assemble_div (v : Nat) (l : List UInt8) : assemble v l / 64 ^ l.length = v := by
  induction l generalizing v with
  | nil => rw [assemble_nil, List.length_nil, pow_zero, Nat.div_one]
  | cons b l ih =>
    rw [assemble_cons, List.length_cons, pow_succ, ← Nat.div_div_eq_div_mul, ih]
    omega

theorem byte_of_isTail {b : UInt8} (h : IsTail b) : UInt8.ofNat (0x80 + b.toNat % 64) = b := by
  have hlt := b.toNat_lt
  apply UInt8.toNat_inj.mp
  rw [toNat_tail]
  rw [IsTail] at h
  omega

/-- **Tail bytes are those of their value.** -/
theorem tailBytes_assemble {l : List UInt8} (h : ∀ b ∈ l, IsTail b) (v : Nat) :
    tailBytes l.length (assemble v l) = l := by
  induction l generalizing v with
  | nil => rfl
  | cons b l ih =>
    have hrest : ∀ b ∈ l, IsTail b := fun b hb => h b (by simp [hb])
    have hhead : (v * 64 + b.toNat % 64) % 64 = b.toNat % 64 := by omega
    rw [List.length_cons, tailBytes, assemble_cons, assemble_div, ih hrest, hhead,
      byte_of_isTail (h b (by simp))]

theorem assemble_lt {v m : Nat} (l : List UInt8) (h : v < m) :
    assemble v l < m * 64 ^ l.length := by
  have hdiv := assemble_div v l
  by_contra hge
  have hle : m ≤ assemble v l / 64 ^ l.length :=
    (Nat.le_div_iff_mul_le (Nat.pos_of_ne_zero (by positivity))).mpr (by omega)
  omega

/-! ### Lead bytes -/

theorem width_cases {v : Nat} (h : 0x80 ≤ v) (hmax : v ≤ maxValue) :
    2 ≤ width v ∧ width v ≤ 4 ∧ InRange (width v) v := by
  rw [maxValue] at hmax
  unfold width
  split_ifs
  · omega
  · exact ⟨by decide, by decide, h, by assumption⟩
  · exact ⟨by decide, by decide, by omega, by assumption⟩
  · exact ⟨by decide, by decide, by omega, hmax⟩

theorem width_of_inRange {n v : Nat} (hn : 2 ≤ n) (h : InRange n v) :
    width v = n ∧ 0x80 ≤ v ∧ v ≤ maxValue ∧ n ≤ 4 := by
  rw [width, maxValue]
  match n, hn, h with
  | 2, _, h =>
    obtain ⟨h1, h2⟩ := h
    rw [if_neg (by omega), if_pos h2]
    omega
  | 3, _, h =>
    obtain ⟨h1, h2⟩ := h
    rw [if_neg (by omega), if_neg (by omega), if_pos h2]
    omega
  | 4, _, h =>
    obtain ⟨h1, h2⟩ := h
    rw [maxValue] at h2
    rw [if_neg (by omega), if_neg (by omega), if_neg (by omega)]
    omega

theorem payload_leadByte {n v : Nat} (hn : 2 ≤ n) (h : InRange n v) :
    IsLead n (leadByte n v) ∧ payload n (leadByte n v) = v / 64 ^ (n - 1) := by
  have hmax : v ≤ 0x10FFFF := (width_of_inRange hn h).2.2.1
  rw [IsLead, payload, leadByte, UInt8.toNat_ofNat']
  match n, hn, h with
  | 2, _, h => obtain ⟨h1, h2⟩ := h; omega
  | 3, _, h => obtain ⟨h1, h2⟩ := h; omega
  | 4, _, h => obtain ⟨h1, h2⟩ := h; omega

theorem leadByte_of_isLead {n v : Nat} {b : UInt8} (hn : 2 ≤ n) (hn4 : n ≤ 4) (h : IsLead n b)
    (hv : v / 64 ^ (n - 1) = payload n b) : leadByte n v = b := by
  have hlt := b.toNat_lt
  apply UInt8.toNat_inj.mp
  rw [leadByte, UInt8.toNat_ofNat', hv]
  rw [IsLead] at h
  rw [payload]
  interval_cases n <;> omega

theorem isLead_unique {n m : Nat} {b : UInt8} (hn : 2 ≤ n) (hn4 : n ≤ 4) (hm : 2 ≤ m) (hm4 : m ≤ 4)
    (h : IsLead n b) (h' : IsLead m b) : n = m := by
  rw [IsLead] at h h'
  interval_cases n <;> interval_cases m <;> omega

theorem not_isTail_of_isLead {n : Nat} {b : UInt8} (hn : 2 ≤ n) (hn4 : n ≤ 4) (h : IsLead n b) :
    ¬ IsTail b ∧ 0x80 ≤ b.toNat := by
  rw [IsLead] at h
  rw [IsTail]
  interval_cases n <;> omega

/-! ### Encodings -/

theorem encode_of_lt {v : Nat} (h : v < 0x80) : encode v = [UInt8.ofNat v] := if_pos h

theorem encode_of_inRange {n v : Nat} (hn : 2 ≤ n) (h : InRange n v) :
    encode v = leadByte n v :: tailBytes (n - 1) v := by
  obtain ⟨hw, h80, -⟩ := width_of_inRange hn h
  rw [encode, if_neg (by omega), hw]

/-- **An encoding of more than one byte**, taken apart. -/
theorem exists_parts {v : Nat} (h : 0x80 ≤ v) (hmax : v ≤ maxValue) :
    ∃ lead tails, encode v = lead :: tails ∧ IsLead (width v) lead ∧
      tails.length = width v - 1 ∧ (∀ b ∈ tails, IsTail b) ∧
      assemble (payload (width v) lead) tails = v := by
  obtain ⟨hw, -, hrange⟩ := width_cases h hmax
  obtain ⟨hlead, hpayload⟩ := payload_leadByte hw hrange
  refine ⟨_, _, encode_of_inRange hw hrange, hlead, tailBytes_length _ _, fun b => isTail_of_mem, ?_⟩
  rw [hpayload, assemble_tailBytes]

/-- **Lead and tail bytes with a value in their range** are its encoding. -/
theorem encode_assemble {n : Nat} {lead : UInt8} {tails : List UInt8} (hn : 2 ≤ n) (hn4 : n ≤ 4)
    (hlead : IsLead n lead) (hlen : tails.length = n - 1) (htails : ∀ b ∈ tails, IsTail b)
    (hrange : InRange n (assemble (payload n lead) tails)) :
    encode (assemble (payload n lead) tails) = lead :: tails := by
  have hdiv : assemble (payload n lead) tails / 64 ^ (n - 1) = payload n lead := by
    rw [← hlen, assemble_div]
  rw [encode_of_inRange hn hrange, leadByte_of_isLead hn hn4 hlead hdiv, ← hlen,
    tailBytes_assemble htails]

theorem encode_ne_nil (v : Nat) : encode v ≠ [] := by
  rw [encode]
  split <;> exact List.cons_ne_nil _ _

/-- **More than one byte** encodes a high value. -/
theorem le_of_encode_append {v : Nat} {front back : List UInt8} (h : encode v = front ++ back)
    (hfront : front ≠ []) (hback : back ≠ []) : 0x80 ≤ v := by
  by_contra hlt
  have hlen := congrArg List.length h
  have h1 := List.length_pos_of_ne_nil hfront
  have h2 := List.length_pos_of_ne_nil hback
  rw [encode_of_lt (by omega), List.length_singleton, List.length_append] at hlen
  omega

theorem toNat_ofNat_of_le {v : Nat} (h : v ≤ maxValue) : (UInt32.ofNat v).toNat = v := by
  rw [maxValue] at h
  rw [UInt32.toNat_ofNat']
  omega

theorem encode_length {v : Nat} (h : 0x80 ≤ v) : (encode v).length = width v := by
  rw [encode, if_neg (by omega), List.length_cons, tailBytes_length, width]
  split_ifs <;> omega

theorem width_le (v : Nat) : width v ≤ 4 := by
  unfold width
  split_ifs <;> decide

theorem encode_length_le (v : Nat) : (encode v).length ≤ 4 := by
  by_cases h : v < 0x80
  · rw [encode_of_lt h, List.length_singleton]
    decide
  · rw [encode_length (by omega)]
    exact width_le v

/-- **The characters** are encoded as in the core library. -/
theorem encode_char (c : Char) : encode c.toNat = String.utf8EncodeChar c := by
  have hmax : c.val.toNat < 0x110000 := by
    rcases c.valid with h | h <;> omega
  simp only [encode, width, leadByte, String.utf8EncodeChar, Char.toNat]
  split_ifs
  · rfl
  all_goals try omega
  all_goals
    simp only [tailBytes, List.cons.injEq, and_true, Nat.add_one_sub_one, pow_zero, pow_one,
      Nat.div_one]
    refine ⟨congrArg UInt8.ofNat (by omega), ?_⟩
    grind

/-- The encodings of the values between the two ranges of characters. -/
def IsSurrogate (bytes : List UInt8) : Prop :=
  ∃ b c, bytes = [0xED, b, c] ∧ 0xA0 ≤ b.toNat ∧ b.toNat ≤ 0xBF

/-- A Unicode scalar value. -/
def IsScalar (v : Nat) : Prop := v < 0xD800 ∨ 0xE000 ≤ v ∧ v ≤ maxValue

theorem surrogate_iff {v : Nat} (hmax : v ≤ maxValue) :
    IsSurrogate (encode v) ↔ ¬ IsScalar v := by
  rw [maxValue] at hmax
  have hthree (h1 : 0x800 ≤ v) (h2 : v < 0x10000) : encode v =
      [UInt8.ofNat (0xE0 + v / 4096), UInt8.ofNat (0x80 + v / 64 % 64),
        UInt8.ofNat (0x80 + v % 64)] := by
    rw [encode_of_inRange (n := 3) (by decide) ⟨h1, h2⟩]
    simp [leadByte, tailBytes]
  rw [IsScalar, maxValue]
  constructor
  · rintro ⟨b, c, hbytes, hb, -⟩
    have hlen := congrArg List.length hbytes
    have hw : 0x800 ≤ v ∧ v < 0x10000 := by
      by_contra hnot
      unfold encode at hlen
      split_ifs at hlen
      · simp at hlen
      · rw [List.length_cons, tailBytes_length, width] at hlen
        split_ifs at hlen with h1 h2
        · cases hlen
        · exact hnot ⟨by omega, h2⟩
        · cases hlen
    rw [hthree hw.1 hw.2] at hbytes
    simp only [List.cons.injEq, and_true] at hbytes
    obtain ⟨hlead, rfl, -⟩ := hbytes
    have hlead' := congrArg UInt8.toNat hlead
    rw [UInt8.toNat_ofNat'] at hlead' hb
    simp only [UInt8.reduceToNat] at hlead'
    omega
  · intro hnot
    refine ⟨UInt8.ofNat (0x80 + v / 64 % 64), UInt8.ofNat (0x80 + v % 64), ?_, ?_, ?_⟩
    · rw [hthree (by omega) (by omega), show v / 4096 = 13 by omega]
      rfl
    · rw [UInt8.toNat_ofNat']
      omega
    · rw [UInt8.toNat_ofNat']
      omega

end Stuos.Lib.Utf8
