import Stuos.Lib.Loop
import Stuos.Libc.Mbrtowc

/-!
# Strings of characters

`mbsrtowcs` reads characters until `len` of them are written or the terminator is.  The characters
of a string end at the terminator or at the first that is ill-formed (`exists_decoding`); one
call with enough room gets there, and so do repeated calls with less room each
(`mbsrtowcs_resumable`).
-/

namespace Stuos.Libc

open Stuos.Lib Stuos.Lib.Utf8

/-- `(size_t)-1` -/
def SIZE_MAX : Nat := 2 ^ 64 - 1

/-! ### The source -/

/-- What a call leaves behind: the characters written, unless `dest` is `NULL`, and `*src`. -/
structure Converted where
  result : Nat
  dest : Option (List UInt32)
  src : Option Ptr
  state : MbState
  errno : Int
  deriving DecidableEq, Repr

/-- The loop with `rounds` rounds to go before `i` is `len`. -/
def mbsrtowcs_loop (src : Ptr) (len : Nat) :
    Nat → Nat → Ptr → Option (List UInt32) → MbState → Int → Except Fault Converted
  | 0, _, curr, dest, ps, errno =>
    -- len reached
    .ok ⟨len, dest, if dest.isSome then some curr else some src, ps, errno⟩
  | rounds + 1, i, curr, dest, ps, errno => do
    -- parse one wchar
    let res ← mbrtowc (some curr) SIZE_MAX ps errno
    if res.result = invalid then return ⟨invalid, dest, some curr, {}, EILSEQ⟩
    else if res.result = incomplete then throw .abort
    else
      let curr := curr.drop res.result
      let dest := dest.map (· ++ res.stored.toList)
      if res.result = 0 then
        -- null char found, so all done
        return ⟨i, dest, if dest.isSome then none else some src, res.state, res.errno⟩
      else mbsrtowcs_loop src len rounds (i + 1) curr dest res.state res.errno

/-- `dest` says whether there is room for the characters. -/
def mbsrtowcs (dest : Bool) (src : Ptr) (len : Nat) (ps : MbState) (errno : Int) :
    Except Fault Converted :=
  let len := if dest then len else SIZE_MAX
  mbsrtowcs_loop src len len 0 src (if dest then some [] else none) ps errno

example : mbsrtowcs true [0x61, 0xFF, 0x62, 0] 10 {} 0 =
    .ok ⟨invalid, some [0x61], some [0xFF, 0x62, 0], {}, EILSEQ⟩ := by
  decide

/-! ### One character -/

/-- No encoding is in front. -/
def IllFormed (p : List UInt8) : Prop := ∀ v ≤ maxValue, ¬ encode v <+: p

theorem IllFormed.ne_terminator {p : List UInt8} (h : IllFormed p) : p ≠ [0] := by
  rintro rfl
  exact h 0 (Nat.zero_le _) ⟨[], rfl⟩

theorem Pending.length_le {s : MbState} {pend : List UInt8} (h : Pending s pend) :
    pend.length ≤ 3 := by
  cases h with
  | initial => exact Nat.zero_le _
  | part h hlt =>
    have := h.le_four
    rw [List.length_cons]
    omega

/-- **The terminator ends every character**: no byte behind it is read. -/
theorem mbrtowc_isOk {p : Ptr} (hp : 0 ∈ p) {s : MbState} (hs : s.expected_remaining_bytes = 0)
    (errno : Int) : ∃ d, mbrtowc (some p) SIZE_MAX s errno = .ok d := by
  have hN : 0 < SIZE_MAX := by decide
  obtain ⟨b, rest, rfl⟩ := List.exists_cons_of_ne_nil (List.ne_nil_of_mem hp)
  rcases lead_cases b with hb | ⟨n, hn, hn4, hb⟩ | ⟨hb, hones⟩
  · exact ⟨_, mbrtowc_ascii hN hs hb⟩
  · have hrest : 0 ∈ rest := by
      rcases List.mem_cons.mp hp with rfl | h
      · exact absurd (not_isTail_of_isLead hn hn4 hb).2 (by decide)
      · exact h
    rw [mbrtowc_lead hN hs hn hn4 hb]
    rcases tails_cases rest (SIZE_MAX - 1) (n - 1) with
      ⟨more, c, rest, rfl, hmore, hc, hlt1, hlt2⟩ | ⟨more, rest, rfl, hmore, hlen, hlt1⟩ |
      ⟨more, rest, rfl, hmore, hlen, hle⟩ | ⟨hall, -, -⟩
    · rw [continuation_bad hmore hc hlt1 hlt2]
      exact ⟨_, rfl⟩
    · rw [continuation_stop hmore hlt1 hlen]
      exact ⟨_, rfl⟩
    · rw [continuation_end hmore (show 0 < n - 1 by omega) hlen (by omega)]
      exact ⟨_, rfl⟩
    · exact absurd (hall 0 hrest) (by decide)
  · exact ⟨_, mbrtowc_bad_lead hN hs hb hones⟩

section

variable {s : MbState} {errno : Int} {p : Ptr}

/-- **A character is in front**, or an ill-formed one. -/
theorem char_or_illFormed (errno : Int) (hp : 0 ∈ p) (hs : s.expected_remaining_bytes = 0) :
    (∃ v : UInt32, ∃ rest, v.toNat ≤ maxValue ∧ p = encode v.toNat ++ rest) ∨
      IllFormed p ∧ ∃ s', mbrtowc (some p) SIZE_MAX s errno = .ok ⟨invalid, none, s', EILSEQ⟩ := by
  obtain ⟨d, hd⟩ := mbrtowc_isOk hp hs errno
  rcases mbrtowc_cases (.initial hs) hd with ⟨v, c, rest, hv, rfl, -, -, henc, -⟩ |
    ⟨c, rest, s', -, hlen, -, hpend⟩ | ⟨s', rfl, -⟩
  · have hto : (UInt32.ofNat v).toNat = v := toNat_ofNat_of_le hv
    exact Or.inl ⟨UInt32.ofNat v, rest, by rwa [hto], by rw [hto, henc, List.nil_append]⟩
  · have := hpend.length_le
    rw [List.nil_append, hlen, SIZE_MAX] at this
    omega
  · refine Or.inr ⟨?_, s', hd⟩
    rintro v hv ⟨rest, rfl⟩
    have hle := encode_length_le v
    have hcomplete := mbrtowc_complete rest errno (.initial hs) hv (List.nil_append _).symm
      (encode_ne_nil v) (show (encode v).length ≤ SIZE_MAX by rw [SIZE_MAX]; omega)
    rw [hd, Except.ok.injEq] at hcomplete
    have hresult := congrArg Decoded.result hcomplete
    dsimp only [invalid] at hresult
    split at hresult <;> omega

/-! ### The loop -/

/-- Characters that can be encoded, none of them the terminator. -/
def AreChars (chars : List UInt32) : Prop := ∀ v ∈ chars, v ≠ 0 ∧ v.toNat ≤ maxValue

/-- The text of the characters. -/
def encodeAll (chars : List UInt32) : List UInt8 := chars.flatMap fun v => encode v.toNat

theorem encodeAll_cons (v : UInt32) (chars : List UInt32) :
    encodeAll (v :: chars) = encode v.toNat ++ encodeAll chars := rfl

variable {src : Ptr} {len rounds i : Nat} {dest : Option (List UInt32)}

theorem mbrtowc_char {v : UInt32} (hs : s.expected_remaining_bytes = 0) (hv : v.toNat ≤ maxValue) :
    mbrtowc (some (encode v.toNat ++ p)) SIZE_MAX s errno =
      .ok ⟨if v = 0 then 0 else (encode v.toNat).length, some v, finished s v.toNat, errno⟩ := by
  have hle := encode_length_le v.toNat
  have hzero : v.toNat = 0 ↔ v = 0 := by rw [← UInt32.toNat_inj]; rfl
  rw [mbrtowc_complete p errno (.initial hs) hv (List.nil_append _).symm (encode_ne_nil _)
    (by rw [SIZE_MAX]; omega), UInt32.ofNat_toNat]
  simp only [hzero]

/-- **The characters in front are written.** -/
theorem loop_chars (src : Ptr) (len rounds i : Nat) (p : Ptr) (dest : Option (List UInt32))
    (errno : Int) {chars : List UInt32} (hchars : AreChars chars)
    (hs : s.expected_remaining_bytes = 0) :
    ∃ s', s'.expected_remaining_bytes = 0 ∧
      mbsrtowcs_loop src len (chars.length + rounds) i (encodeAll chars ++ p) dest s errno =
        mbsrtowcs_loop src len rounds (i + chars.length) p (dest.map (· ++ chars)) s' errno := by
  induction chars generalizing i dest s with
  | nil =>
    refine ⟨s, hs, ?_⟩
    rw [List.length_nil, Nat.zero_add]
    cases dest <;> simp [encodeAll]
  | cons v chars ih =>
    obtain ⟨hv0, hv⟩ := hchars v (by simp)
    obtain ⟨s', hs', hloop⟩ := ih (i + 1) (dest.map (· ++ [v]))
      (fun w hw => hchars w (by simp [hw])) (finished_remaining hs v.toNat)
    have hlen := encode_length_le v.toNat
    have hpos := List.length_pos_of_ne_nil (encode_ne_nil v.toNat)
    have hinvalid : (encode v.toNat).length ≠ invalid := by rw [invalid]; omega
    have hincomplete : (encode v.toNat).length ≠ incomplete := by rw [incomplete]; omega
    refine ⟨s', hs', ?_⟩
    rw [List.length_cons, Nat.add_right_comm, mbsrtowcs_loop, encodeAll_cons, List.append_assoc,
      mbrtowc_char hs hv, ok_bind]
    dsimp only
    rw [if_neg hv0, if_neg hinvalid, if_neg hincomplete, if_neg (by omega), List.drop_left,
      Option.toList_some, hloop, Option.map_map]
    congr 1
    · omega
    · congr 1
      funext l
      simp

theorem loop_end (hs : s.expected_remaining_bytes = 0) :
    mbsrtowcs_loop src len (rounds + 1) i [0] dest s errno =
      .ok ⟨i, dest.map (· ++ [0]), if dest.isSome then none else some src, s, errno⟩ := by
  have hcall : mbrtowc (some [0]) SIZE_MAX s errno = .ok ⟨0, some 0, s, errno⟩ :=
    mbrtowc_ascii (by decide) hs (by decide)
  rw [mbsrtowcs_loop, hcall, ok_bind]
  dsimp only
  rw [if_neg (by decide), if_neg (by decide), if_pos rfl]
  cases dest <;> rfl

theorem loop_illFormed (hp : 0 ∈ p) (hill : IllFormed p) (hs : s.expected_remaining_bytes = 0) :
    mbsrtowcs_loop src len (rounds + 1) i p dest s errno =
      .ok ⟨invalid, dest, some p, {}, EILSEQ⟩ := by
  rcases char_or_illFormed errno hp hs with ⟨v, rest, hv, hsplit⟩ | ⟨-, s', hcall⟩
  · exact absurd ⟨rest, hsplit.symm⟩ (hill v.toNat hv)
  · rw [mbsrtowcs_loop, hcall, ok_bind]
    dsimp only
    rw [if_pos rfl]
    rfl

end

/-- **A string is made of characters**, up to its end or up to the first that is ill-formed. -/
theorem exists_decoding (text : List UInt8) (hzero : ∀ c ∈ text, c ≠ 0) :
    ∃ chars p, AreChars chars ∧ text ++ [0] = encodeAll chars ++ p ∧
      (p = [0] ∨ 0 ∈ p ∧ IllFormed p) := by
  induction hn : text.length using Nat.strong_induction_on generalizing text with
  | _ n ih =>
    rcases char_or_illFormed 0 (show 0 ∈ text ++ [0] by simp)
        (show ({} : MbState).expected_remaining_bytes = 0 from rfl) with
      ⟨v, rest, hv, hsplit⟩ | ⟨hill, -⟩
    · rcases List.eq_nil_or_concat rest with rfl | ⟨rest, z, rfl⟩
      · -- the terminator is the only byte there is
        rw [List.append_nil] at hsplit
        refine ⟨[], [0], by simp [AreChars], ?_, Or.inl rfl⟩
        have hlast := congrArg List.getLast? hsplit
        rw [List.getLast?_concat] at hlast
        by_cases h80 : v.toNat < 0x80
        · rw [encode_of_lt h80, List.getLast?_singleton, Option.some.injEq] at hlast
          rw [hsplit, encode_of_lt h80, ← hlast]
          rfl
        · obtain ⟨lead, tails, henc, -, hlen, htails, -⟩ := exists_parts (by omega) hv
          have hw := (width_cases (v := v.toNat) (by omega) hv).1
          have hne : tails ≠ [] := List.ne_nil_of_length_pos (by omega)
          rw [henc, List.getLast?_cons, List.getLast?_eq_getLast_of_ne_nil hne, Option.getD_some,
            Option.some.injEq] at hlast
          exact absurd (htails 0 (hlast ▸ List.getLast_mem hne)) (by decide)
      · rw [List.concat_eq_append, ← List.append_assoc] at hsplit
        obtain ⟨htext, hz⟩ := List.append_inj' hsplit rfl
        have hpos := List.length_pos_of_ne_nil (encode_ne_nil v.toNat)
        have hlen := congrArg List.length htext
        rw [List.length_append] at hlen
        obtain ⟨chars, p, hchars, hrest, hp⟩ := ih rest.length (by omega) rest
          (fun c hc => hzero c (by rw [htext]; exact List.mem_append_right _ hc)) rfl
        have hv0 : v ≠ 0 := by
          rintro rfl
          exact hzero 0 (by rw [htext]; exact List.mem_append_left _ (by decide)) rfl
        refine ⟨v :: chars, p, ?_, ?_, hp⟩
        · intro w hw
          rcases List.mem_cons.mp hw with rfl | hw
          · exact ⟨hv0, hv⟩
          · exact hchars w hw
        · rw [encodeAll_cons, htext, List.append_assoc, hrest, List.append_assoc]
    · exact ⟨[], text ++ [0], by simp [AreChars], rfl, Or.inr ⟨by simp, hill⟩⟩

/-! ### One call and many -/

theorem encodeAll_append (chars chars' : List UInt32) :
    encodeAll (chars ++ chars') = encodeAll chars ++ encodeAll chars' := List.flatMap_append

theorem AreChars.length_le {chars : List UInt32} (h : AreChars chars) :
    chars.length ≤ (encodeAll chars).length := by
  induction chars with
  | nil => exact Nat.zero_le _
  | cons v chars ih =>
    have hpos := List.length_pos_of_ne_nil (encode_ne_nil v.toNat)
    have := ih fun w hw => h w (by simp [hw])
    rw [encodeAll_cons, List.length_append, List.length_cons]
    omega

section

variable {chars : List UInt32} {s : MbState} {errno : Int} {len : Nat} {p : Ptr}

theorem mbsrtowcs_chars (errno : Int) (hchars : AreChars chars)
    (hs : s.expected_remaining_bytes = 0) (hlt : chars.length < len) :
    ∃ rounds s', s'.expected_remaining_bytes = 0 ∧
      mbsrtowcs true (encodeAll chars ++ p) len s errno =
        mbsrtowcs_loop (encodeAll chars ++ p) len (rounds + 1) chars.length p (some chars) s'
          errno := by
  obtain ⟨rounds, rfl⟩ : ∃ rounds, len = chars.length + (rounds + 1) :=
    ⟨len - chars.length - 1, by omega⟩
  obtain ⟨s', hs', hloop⟩ := loop_chars (encodeAll chars ++ p)
    (chars.length + (rounds + 1)) (rounds + 1) 0 p (some []) errno hchars hs
  refine ⟨rounds, s', hs', ?_⟩
  simp only [mbsrtowcs, if_true, hloop, Option.map_some, List.nil_append, Nat.zero_add]

theorem mbsrtowcs_end (errno : Int) (hchars : AreChars chars) (hs : s.expected_remaining_bytes = 0)
    (hlt : chars.length < len) :
    ∃ s', mbsrtowcs true (encodeAll chars ++ [0]) len s errno =
      .ok ⟨chars.length, some (chars ++ [0]), none, s', errno⟩ := by
  obtain ⟨rounds, s', hs', hcall⟩ := mbsrtowcs_chars (p := [0]) errno hchars hs hlt
  refine ⟨s', ?_⟩
  rw [hcall, loop_end hs']
  rfl

theorem mbsrtowcs_illFormed (errno : Int) (hchars : AreChars chars)
    (hs : s.expected_remaining_bytes = 0) (hlt : chars.length < len) (hp : 0 ∈ p)
    (hill : IllFormed p) : mbsrtowcs true (encodeAll chars ++ p) len s errno =
      .ok ⟨invalid, some chars, some p, {}, EILSEQ⟩ := by
  obtain ⟨rounds, s', hs', hcall⟩ := mbsrtowcs_chars (p := p) errno hchars hs hlt
  rw [hcall, loop_illFormed hp hill hs']

theorem mbsrtowcs_full (errno : Int) (hchars : AreChars chars)
    (hs : s.expected_remaining_bytes = 0) :
    ∃ s', s'.expected_remaining_bytes = 0 ∧
      mbsrtowcs true (encodeAll chars ++ p) chars.length s errno =
        .ok ⟨chars.length, some chars, some p, s', errno⟩ := by
  obtain ⟨s', hs', hloop⟩ := loop_chars (encodeAll chars ++ p) chars.length 0 0 p (some [])
    errno hchars hs
  refine ⟨s', hs', ?_⟩
  rw [Nat.add_zero] at hloop
  simp only [mbsrtowcs, if_true, hloop, mbsrtowcs_loop, Option.map_some, List.nil_append,
    Option.isSome_some]

end

/-- A caller that calls again until `*src` is `NULL`. -/
structure Caller where
  src : Ptr
  state : MbState
  errno : Int
  round : Nat := 0
  written : List UInt32 := []
  total : Nat := 0

/-- How the caller ends. -/
inductive Stop
  | finished (written : List UInt32) (total : Nat)
  | failed (src : Option Ptr) (written : List UInt32)

/-- One call with room for `sizes round` characters. -/
def call_again (sizes : Nat → Nat) (caller : Caller) : Except Fault (Loop.Step Caller Stop) := do
  let r ← mbsrtowcs true caller.src (sizes caller.round) caller.state caller.errno
  let written := caller.written ++ r.dest.getD []
  if r.result = invalid then return .done (.failed r.src written)
  else match r.src with
    | none => return .done (.finished written (caller.total + r.result))
    | some src =>
      return .again ⟨src, r.state, r.errno, caller.round + 1, written, caller.total + r.result⟩

/-- What is left to read ends in the terminator or in an ill-formed character. -/
def stop_at (caller : Caller) (chars : List UInt32) (p : Ptr) : Stop :=
  if p = [0] then .finished (caller.written ++ chars ++ [0]) (caller.total + chars.length)
  else .failed (some p) (caller.written ++ chars)

section

variable {sizes : Nat → Nat} {p : Ptr} {chars : List UInt32} {caller : Caller}

/-- **The last call** has room for all that is left. -/
theorem call_again_last (hp : p = [0] ∨ 0 ∈ p ∧ IllFormed p) (hchars : AreChars chars)
    (hfits : chars.length < invalid) (hsrc : caller.src = encodeAll chars ++ p)
    (hs : caller.state.expected_remaining_bytes = 0) (hroom : chars.length < sizes caller.round) :
    call_again sizes caller = .ok (.done (stop_at caller chars p)) := by
  rcases hp with rfl | ⟨hzero, hill⟩
  · obtain ⟨s', hcall⟩ := mbsrtowcs_end caller.errno hchars hs hroom
    rw [call_again, hsrc, hcall, ok_bind]
    dsimp only
    rw [if_neg (by omega), stop_at, if_pos rfl, Option.getD_some, List.append_assoc]
    rfl
  · have hcall := mbsrtowcs_illFormed caller.errno hchars hs hroom hzero hill
    rw [call_again, hsrc, hcall, ok_bind]
    dsimp only
    rw [if_pos rfl, stop_at, if_neg hill.ne_terminator]
    rfl

/-- **A call whose room is used up** leaves the rest to the next. -/
theorem call_again_full (hchars : AreChars chars) (hfits : chars.length < invalid)
    (hsrc : caller.src = encodeAll chars ++ p) (hs : caller.state.expected_remaining_bytes = 0)
    (hroom : sizes caller.round ≤ chars.length) :
    ∃ next, call_again sizes caller = .ok (.again next) ∧
      next.src = encodeAll (chars.drop (sizes caller.round)) ++ p ∧
      next.state.expected_remaining_bytes = 0 ∧
      stop_at next (chars.drop (sizes caller.round)) p = stop_at caller chars p := by
  have htake : (chars.take (sizes caller.round)).length = sizes caller.round := by
    rw [List.length_take, Nat.min_eq_left hroom]
  have hsplit : encodeAll chars ++ p = encodeAll (chars.take (sizes caller.round)) ++
      (encodeAll (chars.drop (sizes caller.round)) ++ p) := by
    rw [← List.append_assoc, ← encodeAll_append, List.take_append_drop]
  obtain ⟨s', hs', hcall⟩ := mbsrtowcs_full caller.errno
    (p := encodeAll (chars.drop (sizes caller.round)) ++ p)
    (fun v hv => hchars v (List.mem_of_mem_take hv)) hs
  rw [htake] at hcall
  refine ⟨⟨encodeAll (chars.drop (sizes caller.round)) ++ p, s', caller.errno, caller.round + 1,
    caller.written ++ chars.take (sizes caller.round), caller.total + sizes caller.round⟩,
    ?_, rfl, hs', ?_⟩
  · rw [call_again, hsrc, hsplit, hcall, ok_bind]
    dsimp only
    rw [if_neg (by omega)]
    rfl
  · rw [stop_at, stop_at]
    dsimp only
    rw [List.append_assoc caller.written, List.take_append_drop, List.length_drop, Nat.add_assoc,
      Nat.add_sub_cancel' hroom]

/-- **Repeated calls get to the end**, whatever the room. -/
theorem ends_call_again (hsizes : ∀ i, 0 < sizes i) (hp : p = [0] ∨ 0 ∈ p ∧ IllFormed p)
    (hchars : AreChars chars) (hfits : chars.length < invalid)
    (hsrc : caller.src = encodeAll chars ++ p) (hs : caller.state.expected_remaining_bytes = 0) :
    Loop.Ends (call_again sizes) caller (.ok (stop_at caller chars p)) := by
  induction hn : chars.length using Nat.strong_induction_on generalizing chars caller with
  | _ n ih =>
    by_cases hroom : chars.length < sizes caller.round
    · exact (Loop.ends_done (call_again_last hp hchars hfits hsrc hs hroom)).mpr rfl
    · obtain ⟨next, hround, hsrc', hs', hstop⟩ :=
        call_again_full hchars hfits hsrc hs (Nat.le_of_not_lt hroom)
      have hpos := hsizes caller.round
      have hdrop : (chars.drop (sizes caller.round)).length = chars.length - sizes caller.round :=
        List.length_drop
      rw [← hstop]
      exact (Loop.ends_again hround).mpr (ih _ (by omega)
        (fun v hv => hchars v (List.mem_of_mem_drop hv)) (by omega) hsrc' hs' rfl)

end

/-! ### The result -/

theorem zero_notMem_encode {v : Nat} (h0 : v ≠ 0) (hv : v ≤ maxValue) : (0 : UInt8) ∉ encode v := by
  by_cases h80 : v < 0x80
  · rw [encode_of_lt h80, List.mem_singleton, ← UInt8.toNat_inj, UInt8.toNat_ofNat']
    simp only [UInt8.reduceToNat]
    omega
  · obtain ⟨lead, tails, henc, hlead, -, htails, -⟩ := exists_parts (by omega) hv
    obtain ⟨hw, hw4, -⟩ := width_cases (v := v) (by omega) hv
    rw [henc]
    intro hmem
    rcases List.mem_cons.mp hmem with rfl | hmem
    · exact absurd (not_isTail_of_isLead hw hw4 hlead).2 (by decide)
    · exact absurd (htails 0 hmem) (by decide)

/-- **No call aborts**, and none reads behind the terminator. -/
theorem loop_isOk {src : Ptr} {len rounds i : Nat} {curr : Ptr} {dest : Option (List UInt32)}
    {s : MbState} {errno : Int} (hcurr : 0 ∈ curr) (hs : s.expected_remaining_bytes = 0) :
    ∃ r, mbsrtowcs_loop src len rounds i curr dest s errno = .ok r := by
  induction rounds generalizing i curr dest s errno with
  | zero => exact ⟨_, rfl⟩
  | succ rounds ih =>
    rcases char_or_illFormed errno hcurr hs with ⟨v, rest, hv, rfl⟩ | ⟨hill, -⟩
    · have hlen := encode_length_le v.toNat
      have hpos := List.length_pos_of_ne_nil (encode_ne_nil v.toNat)
      rw [mbsrtowcs_loop, mbrtowc_char hs hv, ok_bind]
      dsimp only
      by_cases hv0 : v = 0
      · rw [if_pos hv0, if_neg (by decide), if_neg (by decide), if_pos rfl]
        exact ⟨_, rfl⟩
      · have hrest : 0 ∈ rest := by
          rcases List.mem_append.mp hcurr with h | h
          · exact absurd h (zero_notMem_encode (fun h => hv0 (UInt32.toNat_inj.mp h)) hv)
          · exact h
        rw [if_neg hv0, if_neg (by rw [invalid]; omega), if_neg (by rw [incomplete]; omega),
          if_neg (by omega), List.drop_left]
        exact ih hrest (finished_remaining hs _)
    · exact ⟨_, loop_illFormed hcurr hill hs⟩

/-- **`mbsrtowcs` is resumable and total.**  It neither aborts nor reads behind the terminator; the
characters of a string and their number are the same in one call and in many, and so is the place
of the first that is ill-formed. -/
theorem mbsrtowcs_resumable (s : CString) (ps : MbState) (hps : ps.expected_remaining_bytes = 0)
    (errno : Int) :
    (∀ dest len, ∃ r, mbsrtowcs dest s.bytes len ps errno = .ok r) ∧
    ((∃ chars, AreChars chars ∧ s.text = encodeAll chars ∧
      (∀ len, chars.length < len → ∃ ps', mbsrtowcs true s.bytes len ps errno =
        .ok ⟨chars.length, some (chars ++ [0]), none, ps', errno⟩) ∧
      ∀ sizes : Nat → Nat, (∀ i, 0 < sizes i) →
        Loop.Ends (call_again sizes) { src := s.bytes, state := ps, errno := errno }
          (.ok (.finished (chars ++ [0]) chars.length))) ∨
    ∃ chars p, AreChars chars ∧ s.bytes = encodeAll chars ++ p ∧ IllFormed p ∧
      (∀ len, chars.length < len → mbsrtowcs true s.bytes len ps errno =
        .ok ⟨invalid, some chars, some p, {}, EILSEQ⟩) ∧
      ∀ sizes : Nat → Nat, (∀ i, 0 < sizes i) →
        Loop.Ends (call_again sizes) { src := s.bytes, state := ps, errno := errno }
          (.ok (.failed (some p) chars))) := by
  have hzero : 0 ∈ s.bytes := by rw [CString.bytes]; simp
  refine ⟨fun dest len => loop_isOk hzero hps, ?_⟩
  obtain ⟨chars, p, hchars, hsplit, hp⟩ := exists_decoding s.text s.nonzero
  have hfits : chars.length < invalid := by
    have hlen := congrArg List.length hsplit
    have hle := hchars.length_le
    have hfits := s.fits
    have hpos : 0 < p.length := by
      rcases hp with rfl | hp
      · decide
      · exact List.length_pos_of_mem hp.1
    rw [List.length_append, List.length_append, List.length_singleton] at hlen
    rw [invalid]
    omega
  have hbytes : s.bytes = encodeAll chars ++ p := hsplit
  have hends (sizes : Nat → Nat) (hsizes : ∀ i, 0 < sizes i) :=
    ends_call_again hsizes hp hchars hfits
      (show (⟨s.bytes, ps, errno, 0, [], 0⟩ : Caller).src = _ from hbytes) hps
  rcases hp with rfl | hp
  · refine Or.inl ⟨chars, hchars, (List.append_inj' hsplit rfl).1, ?_, ?_⟩
    · intro len hlen
      rw [hbytes]
      exact mbsrtowcs_end errno hchars hps hlen
    · intro sizes hsizes
      have h := hends sizes hsizes
      rwa [stop_at, if_pos rfl, List.nil_append, Nat.zero_add] at h
  · refine Or.inr ⟨chars, p, hchars, hbytes, hp.2, ?_, ?_⟩
    · intro len hlen
      rw [hbytes]
      exact mbsrtowcs_illFormed errno hchars hps hlen hp.1 hp.2
    · intro sizes hsizes
      have h := hends sizes hsizes
      rwa [stop_at, if_neg hp.2.ne_terminator, List.nil_append] at h

/-- `"aé"` and a character that is cut off. -/
def cutOff : CString := ⟨[0x61, 0xC3, 0xA9, 0xE2, 0x82], by simp, by decide⟩

/-- Read one character at a time, the third call fails. -/
theorem mbsrtowcs_resumable_cutOff :
    Loop.Ends (call_again fun _ => 1) { src := cutOff.bytes, state := {}, errno := 0 }
      (.ok (.failed (some [0xE2, 0x82, 0]) [0x61, 0xE9])) := by
  have hcall : mbsrtowcs true cutOff.bytes 10 {} 0 =
      .ok ⟨invalid, some [0x61, 0xE9], some [0xE2, 0x82, 0], {}, EILSEQ⟩ := by decide
  rcases (mbsrtowcs_resumable cutOff {} rfl 0).2 with
    ⟨chars, hchars, htext, hone, -⟩ | ⟨chars, p, hchars, hbytes, -, hone, hmany⟩
  · have hle := hchars.length_le
    rw [← htext] at hle
    obtain ⟨ps', h⟩ := hone 10 (Nat.lt_of_le_of_lt hle (by decide))
    rw [hcall, Except.ok.injEq, Converted.mk.injEq] at h
    exact absurd h.2.2.1 (by simp)
  · have hle : chars.length ≤ cutOff.bytes.length := by
      rw [hbytes, List.length_append]
      exact Nat.le_add_right_of_le hchars.length_le
    have h := hone 10 (Nat.lt_of_le_of_lt hle (by decide))
    rw [hcall, Except.ok.injEq, Converted.mk.injEq] at h
    obtain ⟨-, hdest, hsrc, -⟩ := h
    have hends := hmany (fun _ => 1) fun _ => Nat.one_pos
    rwa [← Option.some.inj hdest, ← hsrc] at hends

end Stuos.Libc
