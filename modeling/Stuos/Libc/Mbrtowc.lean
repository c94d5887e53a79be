import Stuos.Libc.Wchar

/-!
# Characters in pieces

`Pending s pend` says that the state `s` waits for the rest of a character that begins with the
bytes `pend`.  `mbrtowc_complete` and `mbrtowc_incomplete` say what a call does with more bytes of
an encoding, and `mbrtowc_cases` that a call does nothing else.
-/

namespace Stuos.Libc

open Stuos.Lib Stuos.Lib.Utf8

/-- The bytes `pend` have been read. -/
inductive Pending : MbState → List UInt8 → Prop
  | initial {s} (h : s.expected_remaining_bytes = 0) : Pending s []
  | part {n lead tails s} (h : Holds n lead tails s) (hlt : tails.length < n - 1) :
      Pending s (lead :: tails)

/-- The state after the value `v` is stored. -/
def finished (s : MbState) (v : Nat) : MbState :=
  if v < 0x80 then s
  else { buffer := UInt32.ofNat v, expected_length := width v, expected_remaining_bytes := 0 }

theorem finished_remaining {s : MbState} (hs : s.expected_remaining_bytes = 0) (v : Nat) :
    (finished s v).expected_remaining_bytes = 0 := by
  rw [finished]
  split
  · exact hs
  · rfl

section

variable {input_bytes n v : Nat} {errno : Int} {s : MbState} {b lead : UInt8}
  {pend tails c rest : List UInt8}

/-! ### The branches -/

theorem lead_cases (b : UInt8) : b.toNat < 0x80 ∨ (∃ n, 2 ≤ n ∧ n ≤ 4 ∧ IsLead n b) ∨
    (0x80 ≤ b.toNat ∧ (leading_ones b < 2 ∨ leading_ones b > 4)) := by
  by_cases hb : b.toNat < 0x80
  · exact Or.inl hb
  · by_cases hn : 2 ≤ leading_ones b ∧ leading_ones b ≤ 4
    · exact Or.inr (Or.inl ⟨_, hn.1, hn.2, (leading_ones_iff hn.1 hn.2 b).mp rfl⟩)
    · exact Or.inr (Or.inr ⟨by omega, by omega⟩)

theorem mbrtowc_none (hN : input_bytes = 0) (input : Ptr) :
    mbrtowc (some input) input_bytes s errno = .ok ⟨incomplete, none, s, errno⟩ := by
  rw [mbrtowc, if_pos hN]

theorem mbrtowc_part (hN : 0 < input_bytes) (hs : 0 < s.expected_remaining_bytes) (input : Ptr) :
    mbrtowc (some input) input_bytes s errno =
      handle_continuation_bytes input_bytes errno input 0 s := by
  rw [mbrtowc, if_neg (by omega), if_pos hs]

theorem mbrtowc_nil (hN : 0 < input_bytes) (hs : s.expected_remaining_bytes = 0) :
    mbrtowc (some []) input_bytes s errno = .error .overread := by
  rw [mbrtowc, if_neg (by omega), if_neg (by omega)]
  rfl

theorem mbrtowc_ascii (hN : 0 < input_bytes) (hs : s.expected_remaining_bytes = 0)
    (hb : b.toNat < 0x80) : mbrtowc (some (b :: rest)) input_bytes s errno =
      .ok ⟨if b ≠ 0 then 1 else 0, some b.toUInt32, s, errno⟩ := by
  rw [mbrtowc, if_neg (by omega), if_neg (by omega), deref_cons, ok_bind,
    if_neg (not_not.mpr ((high_bit_iff b).mpr hb))]
  rfl

theorem mbrtowc_bad_lead (hN : 0 < input_bytes) (hs : s.expected_remaining_bytes = 0)
    (hb : 0x80 ≤ b.toNat) (hones : leading_ones b < 2 ∨ leading_ones b > 4) :
    mbrtowc (some (b :: rest)) input_bytes s errno = .ok ⟨invalid, none, {}, EILSEQ⟩ := by
  rw [mbrtowc, if_neg (by omega), if_neg (by omega), deref_cons, ok_bind,
    if_pos (fun h => absurd ((high_bit_iff b).mp h) (by omega))]
  dsimp only
  rw [if_pos hones]
  rfl

/-- The lead byte is counted, too. -/
def Decoded.counted (d : Decoded) : Decoded :=
  { d with result := if toLong d.result > 0 then d.result + 1 else d.result }

theorem mbrtowc_lead (hN : 0 < input_bytes) (hs : s.expected_remaining_bytes = 0) (hn : 2 ≤ n)
    (hn4 : n ≤ 4) (hb : IsLead n b) : mbrtowc (some (b :: rest)) input_bytes s errno =
      (handle_continuation_bytes (input_bytes - 1) errno rest 0 (.lead n b)).map
        Decoded.counted := by
  have hones : leading_ones b = n := (leading_ones_iff hn hn4 b).mpr hb
  have hhigh : 0x80 ≤ b.toNat := (not_isTail_of_isLead hn hn4 hb).2
  rw [mbrtowc, if_neg (by omega), if_neg (by omega), deref_cons, ok_bind,
    if_pos (fun h => absurd ((high_bit_iff b).mp h) (by omega))]
  dsimp only
  rw [hones, if_neg (by omega), List.tail_cons]
  cases handle_continuation_bytes (input_bytes - 1) errno rest 0 (.lead n b) <;> rfl

theorem counted_result (d : Decoded) (h : d.result < 2 ^ 63) (hpos : 0 < d.result) :
    d.counted = { d with result := d.result + 1 } := by
  rw [Decoded.counted, if_pos]
  rw [toLong, if_pos h]
  omega

theorem counted_invalid (stored : Option UInt32) (s : MbState) (errno : Int) :
    Decoded.counted ⟨invalid, stored, s, errno⟩ = ⟨invalid, stored, s, errno⟩ := by
  have hneg : ¬ toLong invalid > 0 := by decide
  rw [Decoded.counted, if_neg hneg]

theorem counted_incomplete (stored : Option UInt32) (s : MbState) (errno : Int) :
    Decoded.counted ⟨incomplete, stored, s, errno⟩ = ⟨incomplete, stored, s, errno⟩ := by
  have hneg : ¬ toLong incomplete > 0 := by decide
  rw [Decoded.counted, if_neg hneg]

/-! ### What a call does -/

theorem Holds.eq_finished {s' : MbState} (h : Holds n lead tails s') (hlen : tails.length = n - 1)
    (hrange : InRange n (assemble (payload n lead) tails)) (s : MbState) :
    s' = finished s (assemble (payload n lead) tails) := by
  obtain ⟨hw, h80, -, -⟩ := width_of_inRange h.two_le hrange
  have hbuffer : s'.buffer = UInt32.ofNat (assemble (payload n lead) tails) := by
    rw [← h.buffer, UInt32.ofNat_toNat]
  have hrem : s'.expected_remaining_bytes = 0 := by rw [h.remaining]; omega
  rw [finished, if_neg (by omega), hw, ← hbuffer, ← hrem, ← h.expected_length]

theorem continuation_complete (rest : List UInt8) (errno : Int) {more : List UInt8}
    (h : Holds n lead tails s) (hmore : ∀ b ∈ more, IsTail b) (hpos : 0 < more.length)
    (hlen : tails.length + more.length = n - 1) (hle : more.length ≤ input_bytes)
    (hrange : InRange n (assemble (payload n lead) (tails ++ more))) (s₀ : MbState) :
    handle_continuation_bytes input_bytes errno (more ++ rest) 0 s =
      .ok ⟨more.length, some (UInt32.ofNat (assemble (payload n lead) (tails ++ more))),
        finished s₀ (assemble (payload n lead) (tails ++ more)), errno⟩ := by
  have hrem := h.remaining
  have hholds := h.foldl_push hmore (by omega)
  have hfin := hholds.eq_finished (by rw [List.length_append]; omega) hrange s₀
  have herror := hholds.error_iff.mpr hrange
  have hbuffer := hholds.buffer
  rw [continuation_end hmore (by omega) (by omega) hle, herror, if_neg Bool.false_ne_true,
    ← hbuffer, UInt32.ofNat_toNat, hbuffer, ← hfin]

/-- **The rest of an encoding completes its character.** -/
theorem mbrtowc_complete (rest : List UInt8) (errno : Int) (hp : Pending s pend)
    (hv : v ≤ maxValue) (henc : encode v = pend ++ c) (hc : c ≠ [])
    (hle : c.length ≤ input_bytes) :
    mbrtowc (some (c ++ rest)) input_bytes s errno =
      .ok ⟨if v = 0 then 0 else c.length, some (UInt32.ofNat v), finished s v, errno⟩ := by
  have hpos : 0 < c.length := List.length_pos_of_ne_nil hc
  cases hp with
  | initial hs =>
    rw [List.nil_append] at henc
    by_cases h80 : v < 0x80
    · have hbyte : (UInt8.ofNat v).toNat = v := by
        rw [UInt8.toNat_ofNat']
        omega
      have hzero : UInt8.ofNat v = 0 ↔ v = 0 := by
        rw [← UInt8.toNat_inj, hbyte]
        rfl
      have hstored : (UInt8.ofNat v).toUInt32 = UInt32.ofNat v := by
        rw [← UInt32.toNat_inj, UInt8.toNat_toUInt32, hbyte, UInt32.toNat_ofNat']
        omega
      rw [encode_of_lt h80] at henc
      rw [← henc, List.singleton_append, mbrtowc_ascii (by omega) hs (by omega), hstored, finished,
        if_pos h80]
      simp only [ne_eq, hzero, ite_not, List.length_singleton]
    · obtain ⟨lead, tails, hsplit, hlead, hlen, htails, hval⟩ := exists_parts (by omega) hv
      obtain ⟨hw, hw4, hrange⟩ := width_cases (by omega) hv
      rw [henc] at hsplit
      subst hsplit
      rw [List.length_cons] at hle
      rw [List.cons_append, mbrtowc_lead (by omega) hs hw hw4 hlead]
      have hcont := continuation_complete rest errno (holds_lead hw hw4 hlead) htails (by omega)
        (by rw [List.length_nil]; omega) (show tails.length ≤ input_bytes - 1 by omega)
        (by rw [List.nil_append, hval]; exact hrange) s
      rw [hcont, List.nil_append, hval, Except.map, counted_result _ (by dsimp only; omega)
        (by dsimp only; omega), if_neg (by omega), List.length_cons]
  | @part n lead tails s h hlt =>
    have h80 : 0x80 ≤ v := le_of_encode_append henc (List.cons_ne_nil _ _) hc
    obtain ⟨lead', tails', hsplit, hlead, hlen, htails, hval⟩ := exists_parts h80 hv
    obtain ⟨hw, hw4, hrange⟩ := width_cases h80 hv
    rw [henc, List.cons_append, List.cons.injEq] at hsplit
    obtain ⟨rfl, rfl⟩ := hsplit
    have hn : width v = n := isLead_unique hw hw4 h.two_le h.le_four hlead h.isLead
    rw [hn] at hlen hval hrange
    rw [List.length_append] at hlen
    have hrem := h.remaining
    rw [mbrtowc_part (by omega) (by omega), continuation_complete rest errno h
      (fun b hb => htails b (List.mem_append_right _ hb)) hpos hlen hle
      (by rw [hval]; exact hrange) s, hval, if_neg (by omega)]

/-- **More of an encoding, but not the rest of it**, is remembered. -/
theorem mbrtowc_incomplete (rest : List UInt8) (errno : Int) {more : List UInt8}
    (hp : Pending s pend) (hv : v ≤ maxValue) (henc : encode v = pend ++ (c ++ more))
    (hc : c ≠ []) (hmore : more ≠ []) :
    ∃ s', mbrtowc (some (c ++ rest)) c.length s errno = .ok ⟨incomplete, none, s', errno⟩ ∧
      Pending s' (pend ++ c) := by
  have hpos : 0 < c.length := List.length_pos_of_ne_nil hc
  have hpos' : 0 < more.length := List.length_pos_of_ne_nil hmore
  have h80 : 0x80 ≤ v := by
    rw [← List.append_assoc] at henc
    exact le_of_encode_append henc (List.append_ne_nil_of_right_ne_nil _ hc) hmore
  obtain ⟨lead', tails', hsplit, hlead, hlen, htails, -⟩ := exists_parts h80 hv
  obtain ⟨hw, hw4, -⟩ := width_cases h80 hv
  cases hp with
  | initial hs =>
    obtain ⟨b, c, rfl⟩ := List.exists_cons_of_ne_nil hc
    rw [henc, List.nil_append, List.cons_append, List.cons.injEq] at hsplit
    obtain ⟨rfl, rfl⟩ := hsplit
    rw [List.length_append] at hlen
    have hstop : handle_continuation_bytes c.length errno (c ++ rest) 0 (.lead (width v) b) =
        .ok ⟨incomplete, none, c.foldl MbState.push (.lead (width v) b), errno⟩ :=
      continuation_stop (fun b hb => htails b (List.mem_append_left _ hb))
        (show c.length < width v - 1 by omega) rfl
    refine ⟨_, ?_, .part ((holds_lead hw hw4 hlead).foldl_push
      (fun b hb => htails b (List.mem_append_left _ hb))
      (by rw [List.length_nil]; omega)) (show c.length < width v - 1 by omega)⟩
    rw [List.cons_append, mbrtowc_lead hpos hs hw hw4 hlead, List.length_cons, Nat.add_sub_cancel,
      hstop, Except.map, counted_incomplete]
  | @part n lead tails s h hlt =>
    rw [henc, List.cons_append, List.cons.injEq] at hsplit
    obtain ⟨rfl, rfl⟩ := hsplit
    have hn : width v = n := isLead_unique hw hw4 h.two_le h.le_four hlead h.isLead
    rw [hn, List.length_append, List.length_append] at hlen
    have hrem := h.remaining
    have hctails : ∀ b ∈ c, IsTail b := fun b hb =>
      htails b (List.mem_append_right _ (List.mem_append_left _ hb))
    have hlt' : (tails ++ c).length < n - 1 := by rw [List.length_append]; omega
    refine ⟨_, ?_, .part (h.foldl_push hctails (by omega)) hlt'⟩
    rw [mbrtowc_part hpos (by omega), continuation_stop hctails (by omega) rfl]

/-- The bytes in front that are taken into a character, if the next one breaks it off. -/
def taken (s : MbState) (input : List UInt8) : List UInt8 :=
  if s.expected_remaining_bytes = 0 then input.take 1 ++ input.tail.takeWhile (IsTail ·)
  else input.takeWhile (IsTail ·)

/-- **What the loop over the tail bytes does**, and nothing else. -/
theorem continuation_cases {input : List UInt8} {d : Decoded} (h : Holds n lead tails s)
    (hlt : tails.length < n - 1)
    (hd : handle_continuation_bytes input_bytes errno input 0 s = .ok d) (s₀ : MbState) :
    (∃ more rest, input = more ++ rest ∧ 0 < more.length ∧ more.length ≤ input_bytes ∧
      tails.length + more.length = n - 1 ∧
      encode (assemble (payload n lead) (tails ++ more)) = lead :: (tails ++ more) ∧
      InRange n (assemble (payload n lead) (tails ++ more)) ∧
      d = ⟨more.length, some (UInt32.ofNat (assemble (payload n lead) (tails ++ more))),
        finished s₀ (assemble (payload n lead) (tails ++ more)), errno⟩) ∨
    (∃ more rest s', input = more ++ rest ∧ more.length = input_bytes ∧
      d = ⟨incomplete, none, s', errno⟩ ∧ Pending s' (lead :: (tails ++ more))) ∨
    ∃ s', d = ⟨invalid, none, s', EILSEQ⟩ ∧ (s'.expected_remaining_bytes = 0 ∨
      Pending s' (lead :: (tails ++ input.takeWhile (IsTail ·)))) := by
  have hrem := h.remaining
  rcases tails_cases input input_bytes s.expected_remaining_bytes with
    ⟨more, b, rest, rfl, hmore, hb, hlt1, hlt2⟩ | ⟨more, rest, rfl, hmore, hlen, hlt1⟩ |
    ⟨more, rest, rfl, hmore, hlen, hle⟩ | ⟨hall, hlt1, hlt2⟩
  · rw [continuation_bad hmore hb hlt1 hlt2, Except.ok.injEq] at hd
    have hwhile : (more ++ b :: rest).takeWhile (IsTail ·) = more := by
      rw [List.takeWhile_append_of_pos (by simpa using hmore),
        List.takeWhile_cons_of_neg (by simpa using hb), List.append_nil]
    have hlt' : (tails ++ more).length < n - 1 := by rw [List.length_append]; omega
    refine Or.inr (Or.inr ⟨_, hd.symm, Or.inr ?_⟩)
    rw [hwhile]
    exact .part (h.foldl_push hmore (by omega)) hlt'
  · rw [continuation_stop hmore hlt1 hlen, Except.ok.injEq] at hd
    have hlt' : (tails ++ more).length < n - 1 := by rw [List.length_append]; omega
    exact Or.inr (Or.inl ⟨more, rest, _, rfl, hlen, hd.symm,
      .part (h.foldl_push hmore (by omega)) hlt'⟩)
  · have hfull : (tails ++ more).length = n - 1 := by rw [List.length_append]; omega
    have hholds := h.foldl_push hmore (by omega)
    by_cases herror : (more.foldl MbState.push s).error = true
    · rw [continuation_end hmore (by omega) hlen (by omega), if_pos herror, Except.ok.injEq] at hd
      refine Or.inr (Or.inr ⟨_, hd.symm, Or.inl ?_⟩)
      rw [hholds.remaining]
      omega
    · have hrange := hholds.error_iff.mp (by simpa using herror)
      rw [continuation_complete rest errno h hmore (by omega) (by omega) (by omega) hrange s₀,
        Except.ok.injEq] at hd
      exact Or.inl ⟨more, rest, rfl, by omega, by omega, by omega,
        encode_assemble h.two_le h.le_four h.isLead hfull hholds.isTail hrange, hrange, hd.symm⟩
  · rw [continuation_overread hall hlt2 hlt1] at hd
    cases hd

/-- **What a call does**, and nothing else: it completes a character, remembers its bytes, or
fails. -/
theorem mbrtowc_cases {input : List UInt8} {d : Decoded} (hp : Pending s pend)
    (hd : mbrtowc (some input) input_bytes s errno = .ok d) :
    (∃ v c rest, v ≤ maxValue ∧ input = c ++ rest ∧ c ≠ [] ∧ c.length ≤ input_bytes ∧
      encode v = pend ++ c ∧
      d = ⟨if v = 0 then 0 else c.length, some (UInt32.ofNat v), finished s v, errno⟩) ∨
    (∃ c rest s', input = c ++ rest ∧ c.length = input_bytes ∧
      d = ⟨incomplete, none, s', errno⟩ ∧ Pending s' (pend ++ c)) ∨
    ∃ s', d = ⟨invalid, none, s', EILSEQ⟩ ∧
      (s'.expected_remaining_bytes = 0 ∨ Pending s' (pend ++ taken s input)) := by
  rcases Nat.eq_zero_or_pos input_bytes with hN | hN
  · rw [mbrtowc_none hN, Except.ok.injEq] at hd
    exact Or.inr (Or.inl ⟨[], input, s, rfl, hN.symm, hd.symm, by rwa [List.append_nil]⟩)
  · cases hp with
    | initial hs =>
      cases input with
      | nil => rw [mbrtowc_nil hN hs] at hd; cases hd
      | cons b rest =>
        rcases lead_cases b with hb | ⟨n, hn, hn4, hb⟩ | ⟨hb, hones⟩
        · have hbyte : encode b.toNat = [] ++ [b] := by
            rw [encode_of_lt hb, UInt8.ofNat_toNat, List.nil_append]
          have hmax : b.toNat ≤ maxValue := by rw [maxValue]; omega
          have hcomplete := mbrtowc_complete rest errno (.initial hs) hmax
            hbyte (List.cons_ne_nil _ _) hN
          rw [List.singleton_append, hd, Except.ok.injEq] at hcomplete
          exact Or.inl ⟨b.toNat, [b], rest, hmax, rfl, List.cons_ne_nil _ _, hN, hbyte, hcomplete⟩
        · rw [mbrtowc_lead hN hs hn hn4 hb, map_eq_ok] at hd
          obtain ⟨r, hr, rfl⟩ := hd
          rcases continuation_cases (holds_lead hn hn4 hb) (show 0 < n - 1 by omega) hr s with
            ⟨more, rest, rfl, hpos, hle, hlen, henc, hrange, rfl⟩ |
            ⟨more, rest, s', rfl, hlen, rfl, hpend⟩ | ⟨s', rfl, hs'⟩
          · obtain ⟨-, h80, hmax, -⟩ := width_of_inRange hn hrange
            rw [List.length_nil, Nat.zero_add] at hlen
            refine Or.inl ⟨_, b :: more, rest, hmax, rfl, List.cons_ne_nil _ _,
              by rw [List.length_cons]; omega, henc, ?_⟩
            rw [counted_result _ (by dsimp only; omega) hpos, if_neg (by omega), List.length_cons]
          · exact Or.inr (Or.inl ⟨b :: more, rest, s', rfl, by rw [List.length_cons]; omega,
              counted_incomplete _ _ _, hpend⟩)
          · refine Or.inr (Or.inr ⟨s', counted_invalid _ _ _, ?_⟩)
            rw [taken, if_pos hs]
            exact hs'
        · rw [mbrtowc_bad_lead hN hs hb hones, Except.ok.injEq] at hd
          exact Or.inr (Or.inr ⟨{}, hd.symm, Or.inl rfl⟩)
    | @part n lead tails s h hlt =>
      have hrem := h.remaining
      rw [mbrtowc_part hN (by omega)] at hd
      rcases continuation_cases h hlt hd s with
        ⟨more, rest, rfl, hpos, hle, hlen, henc, hrange, rfl⟩ |
        ⟨more, rest, s', rfl, hlen, rfl, hpend⟩ | ⟨s', rfl, hs'⟩
      · obtain ⟨-, h80, hmax, -⟩ := width_of_inRange h.two_le hrange
        exact Or.inl ⟨_, more, rest, hmax, rfl, List.ne_nil_of_length_pos hpos, hle, henc,
          by rw [if_neg (by omega)]⟩
      · exact Or.inr (Or.inl ⟨more, rest, s', rfl, hlen, rfl, hpend⟩)
      · refine Or.inr (Or.inr ⟨s', rfl, ?_⟩)
        rw [taken, if_neg (by omega)]
        exact hs'

end

/-! ### Any division into chunks -/

/-- A call for each chunk, all with the same state. -/
def calls : MbState → Int → List (List UInt8) → Except Fault (List Decoded)
  | _, _, [] => .ok []
  | state, errno, chunk :: chunks => do
    let d ← mbrtowc (some chunk) chunk.length state errno
    let ds ← calls d.state d.errno chunks
    return d :: ds

theorem calls_cons {state : MbState} {errno : Int} {chunk : List UInt8}
    {chunks : List (List UInt8)} {d : Decoded} {ds : List Decoded}
    (hd : mbrtowc (some chunk) chunk.length state errno = .ok d)
    (hds : calls d.state d.errno chunks = .ok ds) :
    calls state errno (chunk :: chunks) = .ok (d :: ds) := by
  rw [calls, hd, ok_bind, hds]
  rfl

/-- **All calls but the last remember their chunk**, and the last completes the character. -/
theorem calls_chunks (errno : Int) {v : Nat} {last : List UInt8} {chunks : List (List UInt8)}
    (hv : v ≤ maxValue) (hne : ∀ chunk ∈ chunks, chunk ≠ []) (hlast : last ≠ []) {s : MbState}
    {pend : List UInt8} (hp : Pending s pend) (henc : encode v = pend ++ (chunks.flatten ++ last)) :
    ∃ ds, calls s errno (chunks ++ [last]) = .ok (ds ++
        [⟨if v = 0 then 0 else last.length, some (UInt32.ofNat v), finished s v, errno⟩]) ∧
      ds.length = chunks.length ∧ ∀ d ∈ ds, d.result = incomplete ∧ d.stored = none := by
  induction chunks generalizing s pend with
  | nil =>
    rw [List.flatten_nil, List.nil_append] at henc
    have hcomplete := mbrtowc_complete [] errno hp hv henc hlast le_rfl
    rw [List.append_nil] at hcomplete
    exact ⟨[], calls_cons hcomplete rfl, rfl, by simp⟩
  | cons chunk chunks ih =>
    have hmore : chunks.flatten ++ last ≠ [] := fun h => hlast (List.append_eq_nil_iff.mp h).2
    rw [List.flatten_cons, List.append_assoc] at henc
    obtain ⟨s', hcall, hp'⟩ := mbrtowc_incomplete [] errno hp hv henc
      (hne chunk (by simp)) hmore
    rw [List.append_nil] at hcall
    obtain ⟨ds, hds, hlen, hall⟩ := ih (fun chunk h => hne chunk (by simp [h])) hp'
      (by rw [henc, List.append_assoc])
    -- more than one byte, so that the state before does not matter
    have h80 : 0x80 ≤ v := by
      rw [← List.append_assoc] at henc
      exact le_of_encode_append henc
        (List.append_ne_nil_of_right_ne_nil _ (hne chunk (by simp))) hmore
    rw [finished, if_neg (show ¬ v < 0x80 by omega)] at hds ⊢
    refine ⟨⟨incomplete, none, s', errno⟩ :: ds, calls_cons hcall hds, ?_, ?_⟩
    · rw [List.length_cons, hlen, List.length_cons]
    · intro d hd
      rcases List.mem_cons.mp hd with rfl | hd
      · exact ⟨rfl, rfl⟩
      · exact hall d hd

theorem calls_cons_eq_ok {state : MbState} {errno : Int} {chunk : List UInt8}
    {chunks : List (List UInt8)} {ds : List Decoded}
    (h : calls state errno (chunk :: chunks) = .ok ds) :
    ∃ d ds', mbrtowc (some chunk) chunk.length state errno = .ok d ∧
      calls d.state d.errno chunks = .ok ds' ∧ ds = d :: ds' := by
  rw [calls, bind_eq_ok] at h
  obtain ⟨d, hd, h⟩ := h
  rw [bind_eq_ok] at h
  obtain ⟨ds', hds', h⟩ := h
  exact ⟨d, ds', hd, hds', (Except.ok.inj h).symm⟩

theorem calls_length {state : MbState} {errno : Int} {chunks : List (List UInt8)}
    {ds : List Decoded} (h : calls state errno chunks = .ok ds) : ds.length = chunks.length := by
  induction chunks generalizing state errno ds with
  | nil => cases h; rfl
  | cons chunk chunks ih =>
    obtain ⟨d, ds', -, hds', rfl⟩ := calls_cons_eq_ok h
    rw [List.length_cons, List.length_cons, ih hds']

/-- **What is accepted is an encoding.** -/
theorem encode_of_calls {v : UInt32} {last : List UInt8} {chunks : List (List UInt8)} {d : Decoded}
    (hstored : d.stored = some v) {s : MbState} {errno : Int} {pend : List UInt8}
    {ds : List Decoded} (hp : Pending s pend)
    (hcalls : calls s errno (chunks ++ [last]) = .ok (ds ++ [d]))
    (hds : ∀ d ∈ ds, d.result = incomplete) :
    ∃ c rest, last = c ++ rest ∧ pend ++ (chunks.flatten ++ c) = encode v.toNat ∧
      v.toNat ≤ maxValue ∧ d.result = if v = 0 then 0 else c.length := by
  induction chunks generalizing s errno pend ds with
  | nil =>
    obtain ⟨d', ds', hd', hds', heq⟩ := calls_cons_eq_ok hcalls
    cases hds'
    obtain ⟨rfl, heq⟩ := List.append_inj' (show ds ++ [d] = [] ++ [d'] from heq) rfl
    cases heq
    rcases mbrtowc_cases hp hd' with ⟨w, c, rest, hw, rfl, hc, -, henc, rfl⟩ |
      ⟨c, rest, s', -, -, rfl, -⟩ | ⟨s', rfl, -⟩
    · obtain rfl := Option.some.inj hstored
      have hto : (UInt32.ofNat w).toNat = w := toNat_ofNat_of_le hw
      have hzero : UInt32.ofNat w = 0 ↔ w = 0 := by
        rw [← UInt32.toNat_inj, hto]
        rfl
      refine ⟨c, rest, rfl, by rw [hto, henc, List.flatten_nil, List.nil_append], by rwa [hto], ?_⟩
      simp only [hzero]
    · cases hstored
    · cases hstored
  | cons chunk chunks ih =>
    obtain ⟨d', ds', hd', hds', heq⟩ := calls_cons_eq_ok hcalls
    have hlen : ds'.length = (chunks ++ [last]).length := calls_length hds'
    cases ds with
    | nil =>
      have := congrArg List.length heq
      rw [List.length_append] at hlen
      simp only [List.nil_append, List.length_cons, List.length_nil] at this hlen
      omega
    | cons d₀ ds =>
      rw [List.cons_append, List.cons.injEq] at heq
      obtain ⟨rfl, rfl⟩ := heq
      have hres := hds d₀ (by simp)
      rcases mbrtowc_cases hp hd' with ⟨w, c, rest, -, -, -, -, henc, rfl⟩ |
        ⟨c, rest, s', hchunk, hclen, rfl, hp'⟩ | ⟨s', rfl, -⟩
      · have hle := encode_length_le w
        rw [henc, List.length_append] at hle
        dsimp only [incomplete] at hres
        split at hres <;> omega
      · have hrest : rest = [] := by
          rw [hchunk, List.length_append] at hclen
          exact List.eq_nil_of_length_eq_zero (by omega)
        rw [hrest, List.append_nil] at hchunk
        rw [← hchunk] at hp'
        obtain ⟨c', rest', hlast, henc, hmax, hresult⟩ := ih hp' hds'
          (fun d hd => hds d (by simp [hd]))
        refine ⟨c', rest', hlast, ?_, hmax, hresult⟩
        rw [← henc, List.flatten_cons, List.append_assoc, List.append_assoc]
      · exact absurd hres (show invalid ≠ incomplete by decide)

/-- **`mbrtowc` decodes UTF-8 in any division into chunks**: a character is read from the chunks of
its encoding as by one call, and what is read as a character is an encoding. -/
theorem mbrtowc_decodes (s : MbState) (hs : s.expected_remaining_bytes = 0) (errno : Int) :
    (∀ (c : Char) (chunks : List (List UInt8)) (last : List UInt8),
      (∀ chunk ∈ chunks ++ [last], chunk ≠ []) →
      (chunks ++ [last]).flatten = String.utf8EncodeChar c →
      ∃ ds s', s'.expected_remaining_bytes = 0 ∧
        calls s errno (chunks ++ [last]) =
          .ok (ds ++ [⟨if c.toNat = 0 then 0 else last.length, some c.val, s', errno⟩]) ∧
        (ds.length = chunks.length ∧ ∀ d ∈ ds, d.result = incomplete ∧ d.stored = none) ∧
        ∀ rest n, (String.utf8EncodeChar c).length ≤ n →
          mbrtowc (some (String.utf8EncodeChar c ++ rest)) n s errno =
            .ok ⟨if c.toNat = 0 then 0 else (String.utf8EncodeChar c).length, some c.val, s',
              errno⟩) ∧
    ∀ (chunks : List (List UInt8)) (last : List UInt8) (ds : List Decoded) (d : Decoded)
      (v : UInt32), calls s errno (chunks ++ [last]) = .ok (ds ++ [d]) →
      (∀ d ∈ ds, d.result = incomplete) → d.stored = some v →
      ∃ c rest, last = c ++ rest ∧ chunks.flatten ++ c = encode v.toNat ∧ v.toNat ≤ maxValue ∧
        d.result = if v = 0 then 0 else c.length := by
  constructor
  · intro c chunks last hne hflat
    have hmax : c.toNat ≤ maxValue := by
      rw [maxValue, Char.toNat]
      rcases c.valid with h | h <;> omega
    have hval : UInt32.ofNat c.toNat = c.val := UInt32.ofNat_toNat
    rw [List.flatten_append, List.flatten_singleton, ← encode_char] at hflat
    obtain ⟨ds, hds, hlen, hall⟩ := calls_chunks errno hmax
      (fun chunk h => hne chunk (List.mem_append_left _ h)) (hne last (by simp)) (.initial hs)
      (by rw [List.nil_append, hflat])
    rw [hval] at hds
    refine ⟨ds, finished s c.toNat, finished_remaining hs _, hds, ⟨hlen, hall⟩, ?_⟩
    intro rest n hn
    rw [← encode_char] at hn ⊢
    rw [mbrtowc_complete rest errno (.initial hs) hmax (List.nil_append _).symm (encode_ne_nil _)
      hn, hval]
  · intro chunks last ds d v hcalls hds hstored
    exact encode_of_calls hstored (.initial hs) hcalls hds

/-- The euro sign in three calls. -/
theorem mbrtowc_decodes_euro :
    ∃ ds s', s'.expected_remaining_bytes = 0 ∧
      calls {} 0 ([[0xE2], [0x82]] ++ [[0xAC]]) = .ok (ds ++ [⟨1, some 0x20AC, s', 0⟩]) := by
  obtain ⟨ds, s', hs', hcalls, -⟩ := (mbrtowc_decodes {} rfl 0).1 (Char.ofNat 0x20AC)
    [[0xE2], [0x82]] [0xAC] (by decide) (by decide)
  exact ⟨ds, s', hs', hcalls⟩

end Stuos.Libc
