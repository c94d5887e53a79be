import Stuos.Lib.Lts
import Stuos.Libc.Mbsrtowcs

/-!
# Surrogates

Between the calls of `mbrtowc` the decoder is its state and, for the proofs, the bytes of the
character under way (`Tracked`).  In every run what a call completes is the encoding of the
value it stores (`run_completes`).  The range of three bytes includes the surrogates, so the values
are scalar values only as long as no surrogate is encoded (`decoder_scalars`).
-/

namespace Stuos.Libc

open Stuos.Lib Stuos.Lib.Utf8

/-- The conversion state, and the bytes of the character under way. -/
structure Tracked where
  state : MbState := {}
  read : List UInt8 := []
  deriving DecidableEq, Repr

/-- The bytes of a character, and the value stored for it. -/
abbrev Completion := List UInt8 × UInt32

/-- The bytes under way after a call. -/
def track (t : Tracked) (input : Ptr) (input_bytes : Nat) (d : Decoded) : List UInt8 :=
  if d.state.expected_remaining_bytes = 0 then []
  else if d.result = invalid then t.read ++ taken t.state input
  else t.read ++ input.take input_bytes

/-- What a call completes; the terminator counts as one byte. -/
def completed (t : Tracked) (input : Ptr) (d : Decoded) : List Completion :=
  d.stored.toList.map fun v => (t.read ++ input.take (max 1 d.result), v)

/-- What can be done with a conversion state, and what it completes. -/
inductive DecoderStep : Tracked → List Completion → Tracked → Prop
  | call {t input input_bytes errno d}
      (h : mbrtowc (some input) input_bytes t.state errno = .ok d) :
      DecoderStep t (completed t input d) ⟨d.state, track t input input_bytes d⟩
  | null {t input_bytes errno d} (h : mbrtowc none input_bytes t.state errno = .ok d) :
      DecoderStep t [] ⟨d.state, if d.state.expected_remaining_bytes = 0 then [] else t.read⟩
  | reset {t} : DecoderStep t [] {}

/-- Any calls in any order, from the initial state. -/
def decoder : Lts Tracked (List Completion) where
  init t := t = {}
  step := DecoderStep

/-- Any steps. -/
def anyStep : Tracked → List Completion → Prop := fun _ _ => True

theorem Pending.remaining_of_nil {s : MbState} (h : Pending s []) :
    s.expected_remaining_bytes = 0 := by
  cases h with
  | initial hs => exact hs

/-- An encoding, and its value. -/
def IsEncoding (c : Completion) : Prop := c.1 = encode c.2.toNat ∧ c.2.toNat ≤ maxValue

/-- **A call keeps track**, and completes encodings only. -/
theorem mbrtowc_tracked {t : Tracked} (ht : Pending t.state t.read) {input : Ptr}
    {input_bytes : Nat} {errno : Int} {d : Decoded}
    (hd : mbrtowc (some input) input_bytes t.state errno = .ok d) :
    Pending d.state (track t input input_bytes d) ∧ ∀ c ∈ completed t input d, IsEncoding c := by
  rcases mbrtowc_cases ht hd with ⟨v, c, rest, hv, rfl, hc, -, henc, rfl⟩ |
    ⟨c, rest, s', rfl, hlen, rfl, hp⟩ | ⟨s', rfl, hs'⟩
  · have hpos := List.length_pos_of_ne_nil hc
    have hto : (UInt32.ofNat v).toNat = v := toNat_ofNat_of_le hv
    -- only an initial state keeps what it was
    have hone (h80 : v < 0x80) : t.read = [] ∧ c.length = 1 := by
      have hnil : t.read = [] := by
        by_contra hne
        have := le_of_encode_append henc hne hc
        omega
      rw [hnil, encode_of_lt h80, List.nil_append] at henc
      exact ⟨hnil, by rw [← henc, List.length_singleton]⟩
    have hrem : (finished t.state v).expected_remaining_bytes = 0 := by
      rw [finished]
      split
      · rename_i h80
        exact Pending.remaining_of_nil ((hone h80).1 ▸ ht)
      · rfl
    constructor
    · rw [track, if_pos hrem]
      exact .initial hrem
    · intro e he
      simp only [completed, Option.toList_some, List.map_cons, List.map_nil,
        List.mem_singleton] at he
      have htake : (c ++ rest).take (max 1 (if v = 0 then 0 else c.length)) = c := by
        have hmax : max 1 (if v = 0 then 0 else c.length) = c.length := by
          split
          · have := (hone (by omega)).2
            omega
          · omega
        rw [hmax, List.take_left]
      rw [he, IsEncoding, htake, hto]
      exact ⟨henc.symm, hv⟩
  · refine ⟨?_, by simp [completed]⟩
    rw [track]
    dsimp only
    split
    · rename_i hs
      exact .initial hs
    · rw [if_neg (show incomplete ≠ invalid by decide), ← hlen, List.take_left]
      exact hp
  · refine ⟨?_, by simp [completed]⟩
    rw [track]
    dsimp only
    split
    · rename_i hs
      exact .initial hs
    · rename_i hs
      rw [if_pos rfl]
      exact hs'.resolve_left hs

theorem DecoderStep.tracked {t t' : Tracked} {l : List Completion} (h : DecoderStep t l t')
    (ht : Pending t.state t.read) : Pending t'.state t'.read ∧ ∀ c ∈ l, IsEncoding c := by
  cases h with
  | call h => exact mbrtowc_tracked ht h
  | null h =>
    refine ⟨?_, by simp⟩
    rw [mbrtowc] at h
    dsimp only at h ⊢
    split at h
    · cases h
      exact .initial rfl
    · cases h
      dsimp only
      rwa [if_neg (by assumption)]
  | reset => exact ⟨.initial rfl, by simp⟩

/-- **In every run** what is completed is an encoding. -/
theorem run_completes {t t' : Tracked} {ls : List (List Completion)}
    (h : decoder.Run anyStep t ls t') (ht : Pending t.state t.read) :
    Pending t'.state t'.read ∧ ∀ c ∈ ls.flatten, IsEncoding c := by
  refine h.invariant (P := fun ls t => Pending t.state t.read ∧ ∀ c ∈ ls.flatten, IsEncoding c)
    ?_ ⟨ht, by simp⟩
  rintro ls s l s' ⟨hs, hls⟩ - hstep
  obtain ⟨hs', hl⟩ := DecoderStep.tracked hstep hs
  refine ⟨hs', fun c hc => ?_⟩
  rw [List.flatten_append, List.flatten_singleton] at hc
  rcases List.mem_append.mp hc with hc | hc
  · exact hls c hc
  · exact hl c hc

theorem scalars_iff {l : List Completion} (h : ∀ c ∈ l, IsEncoding c) :
    (∀ c ∈ l, IsScalar c.2.toNat) ↔ ∀ c ∈ l, ¬ IsSurrogate c.1 := by
  have hiff (c) (hc : c ∈ l) : IsSurrogate c.1 ↔ ¬ IsScalar c.2.toNat := by
    rw [(h c hc).1, surrogate_iff (h c hc).2]
  constructor
  · intro hscalar c hc hsur
    exact (hiff c hc).mp hsur (hscalar c hc)
  · intro hnot c hc
    by_contra hscalar
    exact hnot c hc ((hiff c hc).mpr hscalar)

/-- **`mbsrtowcs` is a run** of `mbrtowc`. -/
theorem loop_run {src : Ptr} {len rounds i : Nat} {curr : Ptr} {dest : List UInt32} {errno : Int}
    {r : Converted} {t : Tracked}
    (h : mbsrtowcs_loop src len rounds i curr (some dest) t.state errno = .ok r) :
    ∃ ls t', decoder.Run anyStep t ls t' ∧ t'.state = r.state ∧
      r.dest = some (dest ++ ls.flatten.map Prod.snd) := by
  induction rounds generalizing i curr dest errno t with
  | zero =>
    rw [mbsrtowcs_loop] at h
    cases h
    exact ⟨[], t, .nil t, rfl, by simp⟩
  | succ rounds ih =>
    rw [mbsrtowcs_loop, bind_eq_ok] at h
    obtain ⟨d, hd, h⟩ := h
    have hrun : decoder.Run anyStep t ([] ++ [completed t curr d])
        ⟨d.state, track t curr SIZE_MAX d⟩ :=
      (Lts.Run.nil t).snoc trivial (.call hd)
    have hvalues : (completed t curr d).map Prod.snd = d.stored.toList := by
      rw [completed, List.map_map]
      exact List.map_id _
    dsimp only at h
    split at h
    · cases h
      exact ⟨[] ++ [[]], {}, (Lts.Run.nil t).snoc trivial .reset, rfl, by simp⟩
    · split at h
      · cases h
      · split at h
        · cases h
          exact ⟨_, _, hrun, rfl, by simp [hvalues]⟩
        · obtain ⟨ls, t', hls, hstate, hdest⟩ :=
            ih (t := ⟨d.state, track t curr SIZE_MAX d⟩) h
          exact ⟨_, t', hrun.append hls, hstate, by simp [hdest, hvalues]⟩

/-- **Only scalar values are stored, as long as no surrogate is encoded**, by `mbrtowc` and by
`mbsrtowcs` through it. -/
theorem decoder_scalars {ls : List (List Completion)} {t : Tracked}
    (h : decoder.Run anyStep {} ls t) :
    ((∀ c ∈ ls.flatten, IsScalar c.2.toNat) ↔ ∀ c ∈ ls.flatten, ¬ IsSurrogate c.1) ∧
    ∀ src len errno r, mbsrtowcs true src len t.state errno = .ok r →
      ∃ ls' t', decoder.Run anyStep t ls' t' ∧ t'.state = r.state ∧
        r.dest = some (ls'.flatten.map Prod.snd) ∧
        ((∀ c ∈ ls'.flatten, IsScalar c.2.toNat) ↔ ∀ c ∈ ls'.flatten, ¬ IsSurrogate c.1) := by
  obtain ⟨ht, hls⟩ := run_completes h (.initial rfl)
  refine ⟨scalars_iff hls, ?_⟩
  intro src len errno r hr
  obtain ⟨ls', t', hrun, hstate, hdest⟩ := loop_run hr
  refine ⟨ls', t', hrun, hstate, ?_, scalars_iff (run_completes hrun ht).2⟩
  rw [hdest, List.nil_append]

theorem run_surrogate :
    decoder.Run anyStep {} [[([0xED, 0xA0, 0x80], 0xD800)]] ⟨⟨0xD800, 3, 0⟩, []⟩ := by
  have hd : mbrtowc (some [0xED, 0xA0, 0x80]) 3 ({} : Tracked).state 0 =
      .ok ⟨3, some 0xD800, ⟨0xD800, 3, 0⟩, 0⟩ := by decide
  have hstep : DecoderStep {} [([0xED, 0xA0, 0x80], 0xD800)] ⟨⟨0xD800, 3, 0⟩, []⟩ := .call hd
  exact (Lts.Run.nil _).snoc trivial hstep

theorem decoder_scalars_surrogate :
    ((∀ c ∈ [([0xED, 0xA0, 0x80], 0xD800)], IsScalar (Prod.snd (c : Completion)).toNat) ↔
      ∀ c ∈ [([0xED, 0xA0, 0x80], 0xD800)], ¬ IsSurrogate (Prod.fst (c : Completion))) :=
  (decoder_scalars run_surrogate).1

/-- The surrogate is stored. -/
theorem not_scalars_surrogate :
    ∃ ls t, decoder.Run anyStep {} ls t ∧ ¬ ∀ c ∈ ls.flatten, IsScalar c.2.toNat := by
  refine ⟨_, _, run_surrogate, fun h => ?_⟩
  have hscalar := h ([0xED, 0xA0, 0x80], 0xD800) (List.mem_singleton.mpr rfl)
  rcases hscalar with h | ⟨h, -⟩
  · exact absurd h (by decide)
  · exact absurd h (by decide)

end Stuos.Libc
