import Stuos.Libc.Mbrtowc

/-!
# After an error

A byte that begins no character and a value out of range leave the initial state behind, but a
byte that should be a tail byte and is none leaves the state waiting for one
(`mbrtowc_recovers`).  Then every call fails that gives no tail byte first (`stuck_of_not_isTail`).
-/

namespace Stuos.Libc

open Stuos.Lib Stuos.Lib.Utf8

/-- The tail bytes that a byte at the front of a character announces. -/
def announced (b : UInt8) : Nat :=
  if leading_ones b < 2 ∨ leading_ones b > 4 then 0 else leading_ones b - 1

/-- The bytes that a call reads as tail bytes. -/
def tailsRead (s : MbState) (input : List UInt8) : List UInt8 :=
  if s.expected_remaining_bytes > 0 then input.take s.expected_remaining_bytes
  else match input with
    | [] => []
    | b :: rest => rest.take (announced b)

section

variable {input_bytes : Nat} {errno : Int} {s : MbState} {d : Decoded}

theorem continuation_recovers_iff {input : List UInt8} (hpos : 0 < s.expected_remaining_bytes)
    (hd : handle_continuation_bytes input_bytes errno input 0 s = .ok d)
    (hinvalid : d.result = invalid) : d.state.expected_remaining_bytes = 0 ↔
      ∀ b ∈ (input.take input_bytes).take s.expected_remaining_bytes, IsTail b := by
  rcases tails_cases input input_bytes s.expected_remaining_bytes with
    ⟨more, b, rest, rfl, hmore, hb, hlt1, hlt2⟩ | ⟨more, rest, rfl, hmore, hlen, hlt1⟩ |
    ⟨more, rest, rfl, hmore, hlen, hle⟩ | ⟨hall, hlt1, hlt2⟩
  · rw [continuation_bad hmore hb hlt1 hlt2, Except.ok.injEq] at hd
    have hmem : b ∈ ((more ++ b :: rest).take input_bytes).take s.expected_remaining_bytes := by
      rw [List.take_take, List.mem_take_iff_getElem]
      refine ⟨more.length, by rw [List.length_append, List.length_cons]; omega, ?_⟩
      rw [List.getElem_append_right le_rfl]
      simp
    rw [← hd, remaining_foldl_push]
    constructor
    · omega
    · exact fun h => absurd (h b hmem) hb
  · rw [continuation_stop hmore hlt1 hlen, Except.ok.injEq] at hd
    rw [← hd] at hinvalid
    exact absurd hinvalid (show incomplete ≠ invalid by decide)
  · have htake : ((more ++ rest).take input_bytes).take s.expected_remaining_bytes = more := by
      rw [List.take_take, Nat.min_eq_left hle, List.take_left' hlen]
    rw [continuation_end hmore hpos hlen (by omega), Except.ok.injEq] at hd
    rw [htake, ← hd]
    split
    · simp only [remaining_foldl_push, hlen, Nat.sub_self, true_iff]
      exact hmore
    · simp only [remaining_foldl_push, hlen, Nat.sub_self, true_iff]
      exact hmore
  · rw [continuation_overread hall hlt2 hlt1] at hd
    cases hd

/-- **A state that waits for a tail byte** fails on any other byte, and stays as it is. -/
theorem stuck_of_not_isTail {b : UInt8} {rest : List UInt8} (hs : 0 < s.expected_remaining_bytes)
    (hN : 0 < input_bytes) (hb : ¬ IsTail b) :
    mbrtowc (some (b :: rest)) input_bytes s errno = .ok ⟨invalid, none, s, EILSEQ⟩ := by
  have hbad : handle_continuation_bytes input_bytes errno ([] ++ b :: rest) 0 s =
      .ok ⟨invalid, none, s, EILSEQ⟩ :=
    continuation_bad (by simp) hb hs hN
  rw [mbrtowc_part hN hs, ← hbad, List.nil_append]

end

/-- **Recovery.**  A call that fails leaves the initial state exactly if all bytes it read as tail
bytes were tail bytes. -/
theorem mbrtowc_recovers (s : MbState) (input : Ptr) (input_bytes : Nat) (errno : Int) (d : Decoded)
    (hd : mbrtowc (some input) input_bytes s errno = .ok d) (hinvalid : d.result = invalid) :
    d.state.expected_remaining_bytes = 0 ↔
      ∀ b ∈ tailsRead s (input.take input_bytes), IsTail b := by
  rcases Nat.eq_zero_or_pos input_bytes with hN | hN
  · rw [mbrtowc_none hN, Except.ok.injEq] at hd
    rw [← hd] at hinvalid
    exact absurd hinvalid (show incomplete ≠ invalid by decide)
  · by_cases hs : s.expected_remaining_bytes > 0
    · rw [mbrtowc_part hN hs] at hd
      unfold tailsRead
      rw [if_pos hs]
      exact continuation_recovers_iff hs hd hinvalid
    · have hs0 : s.expected_remaining_bytes = 0 := by omega
      unfold tailsRead
      rw [if_neg hs]
      cases input with
      | nil => rw [mbrtowc_nil hN hs0] at hd; cases hd
      | cons b rest =>
        have htake : (b :: rest).take input_bytes = b :: rest.take (input_bytes - 1) := by
          rw [← List.take_succ_cons, Nat.sub_add_cancel hN]
        rw [htake]
        rcases lead_cases b with hb | ⟨n, hn, hn4, hb⟩ | ⟨hb, hones⟩
        · rw [mbrtowc_ascii hN hs0 hb, Except.ok.injEq] at hd
          rw [← hd] at hinvalid
          dsimp only [invalid] at hinvalid
          split at hinvalid <;> omega
        · have hones : leading_ones b = n := (leading_ones_iff hn hn4 b).mpr hb
          rw [mbrtowc_lead hN hs0 hn hn4 hb, map_eq_ok] at hd
          obtain ⟨r, hr, rfl⟩ := hd
          have hr' : r.result = invalid := by
            rw [Decoded.counted] at hinvalid
            dsimp only at hinvalid
            by_cases hpos : toLong r.result > 0
            · rw [if_pos hpos, invalid] at hinvalid
              rw [show r.result = 2 ^ 64 - 2 by omega] at hpos
              exact absurd hpos (by decide)
            · rwa [if_neg hpos] at hinvalid
          have hlead : (MbState.lead n b).expected_remaining_bytes = n - 1 := rfl
          have hann : announced b = n - 1 := by rw [announced, hones, if_neg (by omega)]
          have hiff := continuation_recovers_iff (by omega) hr hr'
          rw [hlead] at hiff
          dsimp only
          rw [hann]
          exact hiff
        · rw [mbrtowc_bad_lead hN hs0 hb hones, Except.ok.injEq] at hd
          have hann : announced b = 0 := if_pos hones
          rw [← hd]
          dsimp only
          rw [hann, List.take_zero]
          simp

/-- An overlong encoding of `/` is refused and leaves the initial state. -/
theorem mbrtowc_recovers_overlong :
    ((⟨0x2F, 2, 0⟩ : MbState).expected_remaining_bytes = 0 ↔
      ∀ b ∈ tailsRead {} (([0xC0, 0xAF] : List UInt8).take 2), IsTail b) :=
  mbrtowc_recovers {} [0xC0, 0xAF] 2 0 ⟨invalid, none, ⟨0x2F, 2, 0⟩, EILSEQ⟩ (by decide) rfl

/-- After a lead byte and `(` the state waits for a tail byte, and no ASCII character is read any
more. -/
theorem mbrtowc_stuck :
    ∃ d, mbrtowc (some [0xC3, 0x28]) 2 {} 0 = .ok d ∧ d.result = invalid ∧
      d.state.expected_remaining_bytes ≠ 0 ∧
      ∀ (b : UInt8) (rest : List UInt8) (n : Nat) (errno : Int), b.toNat < 0x80 → 0 < n →
        mbrtowc (some (b :: rest)) n d.state errno = .ok ⟨invalid, none, d.state, EILSEQ⟩ := by
  refine ⟨⟨invalid, none, ⟨3, 2, 1⟩, EILSEQ⟩, by decide, rfl, by decide, ?_⟩
  intro b rest n errno hb hn
  refine stuck_of_not_isTail (by decide) hn ?_
  rw [IsTail]
  omega

end Stuos.Libc
