import Stuos.Lib.Runs
import Stuos.Libc.CString

/-!
# Taking a string apart

`strtok` keeps the place behind the last token in `strtok_next`.  A call skips the delimiters there,
ends the token behind them with a zero and goes on from the next byte.

`nextToken` says on the text itself which token a call takes, `tokens` which the calls take with
one set of delimiters after the other, and `strtok_tokenises` that the calls take these, and change
nothing but the bytes behind them.
-/

namespace Stuos.Libc

open Stuos.Lib

/-! ### The source -/

def skip_delimiters (delimiters : Ptr) : Ptr → Except Fault (Option Ptr)
  | [] => .error .overread
  | b :: p =>
    if char b ≠ 0 then do
      let found ← strchr delimiters (char b)
      if found.isNone then return some (b :: p)
      else skip_delimiters delimiters p
    else .ok none

/-- `while (*end != '\\0' && strchr(delimiters, *end) == NULL) ++end;` -/
def find_delimiter (delimiters : Ptr) : Ptr → Except Fault Ptr
  | [] => .error .overread
  | b :: p =>
    if char b ≠ 0 then do
      let found ← strchr delimiters (char b)
      if found.isNone then find_delimiter delimiters p
      else return b :: p
    else .ok (b :: p)

/-- What a call leaves behind; pointers into the string are its indices. -/
structure Tokenised where
  token : Option Nat
  string : List UInt8
  strtok_next : Option Nat
  deriving DecidableEq, Repr

/-- `string` is the array that `str` and `strtok_next` point into. -/
def strtok (string : List UInt8) (strtok_next str : Option Nat) (delimiters : Ptr) :
    Except Fault Tokenised := do
  -- if new string is passed, start parsing that instead
  let strtok_next := if str.isSome then str else strtok_next
  match strtok_next with
  | none => return ⟨none, string, none⟩
  | some next =>
    let c ← deref (string.drop next)
    if char c = 0 then return ⟨none, string, some next⟩
    else
      -- skip delimiters
      let start ← skip_delimiters delimiters (string.drop next)
      match start with
      | none => return ⟨none, string, none⟩
      | some start =>
        -- walk the string until I reach a delimiter
        let stop ← find_delimiter delimiters start
        let c ← deref stop
        let token := string.length - start.length
        let stop := string.length - stop.length
        if char c = 0 then return ⟨some token, string, none⟩
        else return ⟨some token, string.set stop 0, some (stop + 1)⟩

example : strtok [97, 44, 98, 0] none (some 0) [44, 0] = .ok ⟨some 0, [97, 0, 98, 0], some 2⟩ := by
  decide

/-! ### Tokens -/

/-- Where the next token begins and where it ends. -/
def nextToken (text delimiters : List UInt8) (position : Nat) : Option (Nat × Nat) :=
  let start := position + ((text.drop position).takeWhile (· ∈ delimiters)).length
  let stop := start + ((text.drop start).takeWhile (· ∉ delimiters)).length
  if start < text.length then some (start, stop) else none

/-- One past the delimiter that ended the token, or the end of the text. -/
def positionAfter (text : List UInt8) : Option (Nat × Nat) → Nat
  | none => text.length
  | some (_, stop) => min (stop + 1) text.length

/-- The tokens that are taken with one set of delimiters after the other. -/
def tokens (text : List UInt8) : Nat → List CString → List (Option (Nat × Nat))
  | _, [] => []
  | position, delimiters :: sets =>
    let token := nextToken text delimiters.text position
    token :: tokens text (positionAfter text token) sets

/-! ### One call -/

section

variable {text string : List UInt8} {delimiters : CString}

theorem strchr_isNone (delimiters : CString) {b : UInt8} (hb : b ≠ 0) :
    ∃ found, strchr delimiters.bytes (char b) = .ok found ∧
      found.isNone = decide (b ∉ delimiters.text) := by
  refine ⟨_, strchr_eq delimiters.nonzero hb [], ?_⟩
  by_cases h : b ∈ delimiters.text
  · rw [if_pos h, decide_eq_false (not_not.mpr h)]
    rfl
  · rw [if_neg h, decide_eq_true h]
    rfl

theorem skip_delimiters_eq (htext : ∀ b ∈ text, b ≠ 0) :
    skip_delimiters delimiters.bytes (text ++ [0]) =
      .ok (if text.dropWhile (· ∈ delimiters.text) = [] then none
        else some (text.dropWhile (· ∈ delimiters.text) ++ [0])) := by
  induction text with
  | nil => rfl
  | cons b text ih =>
    have hb : b ≠ 0 := htext b (by simp)
    obtain ⟨found, hfound, hnone⟩ := strchr_isNone delimiters hb
    rw [List.cons_append, skip_delimiters, if_pos (fun h => hb (char_eq_zero.mp h)), hfound, ok_bind,
      hnone]
    by_cases hmem : b ∈ delimiters.text
    · rw [decide_eq_false (not_not.mpr hmem), if_neg Bool.false_ne_true,
        ih fun b hb => htext b (by simp [hb]), List.dropWhile_cons_of_pos (by simpa using hmem)]
    · rw [decide_eq_true hmem, if_pos rfl, List.dropWhile_cons_of_neg (by simpa using hmem),
        if_neg (List.cons_ne_nil _ _)]
      rfl

theorem find_delimiter_eq (htext : ∀ b ∈ text, b ≠ 0) :
    find_delimiter delimiters.bytes (text ++ [0]) =
      .ok (text.dropWhile (· ∉ delimiters.text) ++ [0]) := by
  induction text with
  | nil => rfl
  | cons b text ih =>
    have hb : b ≠ 0 := htext b (by simp)
    obtain ⟨found, hfound, hnone⟩ := strchr_isNone delimiters hb
    rw [List.cons_append, find_delimiter, if_pos (fun h => hb (char_eq_zero.mp h)), hfound, ok_bind,
      hnone]
    by_cases hmem : b ∈ delimiters.text
    · rw [decide_eq_false (not_not.mpr hmem), if_neg Bool.false_ne_true,
        List.dropWhile_cons_of_neg (by simpa using hmem)]
      rfl
    · rw [decide_eq_true hmem, if_pos rfl, ih fun b hb => htext b (by simp [hb]),
        List.dropWhile_cons_of_pos (by simpa using hmem)]

/-- The string with the end of the token set to zero. -/
def terminated (string : List UInt8) : Option (Nat × Nat) → List UInt8
  | none => string
  | some (_, stop) => string.set stop 0

/-- The place to go on from, `NULL` at the end of the text at the latest. -/
def Goes (text : List UInt8) (next : Option Nat) (position : Nat) : Prop :=
  next = some position ∨ next = none ∧ position = text.length

theorem nextToken_of_eq_nil (delimiters : CString) {position : Nat} (hle : position ≤ text.length)
    (h : (text.drop position).dropWhile (· ∈ delimiters.text) = []) :
    nextToken text delimiters.text position = none := by
  have hlen := length_run (· ∈ delimiters.text) (text.drop position)
  rw [h, List.length_nil, List.length_drop] at hlen
  exact if_neg (by omega)

theorem nextToken_bounds {set : List UInt8} {position start stop : Nat}
    (h : nextToken text set position = some (start, stop)) :
    position ≤ start ∧ start ≤ stop ∧ stop ≤ text.length := by
  rw [nextToken] at h
  split at h
  · rw [Option.some.injEq, Prod.mk.injEq] at h
    have hlen := (List.takeWhile_sublist (· ∉ set) (l := text.drop start)).length_le
    rw [List.length_drop, ← h.1] at hlen
    omega
  · cases h

/-- **Where the token is**: behind the delimiters, up to the next one. -/
theorem nextToken_of_ne_nil {set : List UInt8} {position : Nat}
    (h : (text.drop position).dropWhile (· ∈ set) ≠ []) :
    ∃ start stop, nextToken text set position = some (start, stop) ∧ start < text.length ∧
      (text.drop position).dropWhile (· ∈ set) = text.drop start ∧
      (text.drop start).dropWhile (· ∉ set) = text.drop stop := by
  have hstart : text.drop (position + ((text.drop position).takeWhile (· ∈ set)).length) =
      (text.drop position).dropWhile (· ∈ set) := by
    rw [← List.drop_drop, drop_run]
  have hlt : position + ((text.drop position).takeWhile (· ∈ set)).length < text.length := by
    by_contra hge
    rw [← hstart, List.drop_eq_nil_of_le (by omega)] at h
    exact h rfl
  refine ⟨_, _, if_pos hlt, hlt, hstart.symm, ?_⟩
  exact (drop_run (· ∉ set) _).symm.trans List.drop_drop

theorem set_terminator (hlen : string.length = text.length + 1) {position : Nat}
    (hle : position ≤ text.length) (hrest : string.drop position = text.drop position ++ [0]) :
    string.set text.length 0 = string := by
  have hlast : string[text.length]? = some 0 := by
    have h := congrArg (fun l => l[text.length - position]?) hrest
    rwa [List.getElem?_drop, Nat.add_sub_cancel' hle, List.getElem?_append_right
      (by rw [List.length_drop]), List.length_drop, Nat.sub_self] at h
  apply List.ext_getElem?
  intro i
  rw [List.getElem?_set]
  split
  · rename_i hi
    rw [if_pos (by omega), ← hi, hlast]
  · rfl

section

variable {position start stop : Nat} {strtok_next str : Option Nat}

/-- **Only delimiters are left**, or nothing. -/
theorem strtok_of_eq_nil (htext : ∀ b ∈ text, b ≠ 0) (hle : position ≤ text.length)
    (hrest : string.drop position = text.drop position ++ [0])
    (hnext : (if str.isSome then str else strtok_next) = some position)
    (hnil : (text.drop position).dropWhile (· ∈ delimiters.text) = []) :
    ∃ next, strtok string strtok_next str delimiters.bytes = .ok ⟨none, string, next⟩ ∧
      Goes text next text.length := by
  have hnonzero : ∀ b ∈ text.drop position, b ≠ 0 := fun b hb =>
    htext b (List.mem_of_mem_drop hb)
  rw [strtok, hnext]
  dsimp only
  rw [hrest, skip_delimiters_eq hnonzero, if_pos hnil]
  rcases hcases : text.drop position with _ | ⟨b, rest⟩
  · have := List.drop_eq_nil_iff.mp hcases
    exact ⟨_, rfl, Or.inl (congrArg some (by omega))⟩
  · have hb : b ≠ 0 := hnonzero b (by rw [hcases]; simp)
    rw [List.cons_append, deref_cons, ok_bind, if_neg (fun h => hb (char_eq_zero.mp h))]
    exact ⟨_, rfl, Or.inr ⟨rfl, rfl⟩⟩

/-- **There is a token.** -/
theorem strtok_of_ne_nil (htext : ∀ b ∈ text, b ≠ 0) (hlen : string.length = text.length + 1)
    (hle : position ≤ text.length) (hrest : string.drop position = text.drop position ++ [0])
    (hnext : (if str.isSome then str else strtok_next) = some position)
    (hnil : (text.drop position).dropWhile (· ∈ delimiters.text) ≠ [])
    (hlt : start < text.length) (hstop : stop ≤ text.length)
    (hskip : (text.drop position).dropWhile (· ∈ delimiters.text) = text.drop start)
    (hfind : (text.drop start).dropWhile (· ∉ delimiters.text) = text.drop stop) :
    ∃ next, strtok string strtok_next str delimiters.bytes =
        .ok ⟨some start, string.set stop 0, next⟩ ∧
      Goes text next (min (stop + 1) text.length) := by
  have hnonzero (k : Nat) : ∀ b ∈ text.drop k, b ≠ 0 := fun b hb =>
    htext b (List.mem_of_mem_drop hb)
  have hoffset (k : Nat) (hk : k ≤ text.length) :
      string.length - (text.drop k ++ [0]).length = k := by
    rw [List.length_append, List.length_drop, List.length_singleton]
    omega
  obtain ⟨b, rest, hcons⟩ : ∃ b rest, text.drop position = b :: rest := by
    refine List.exists_cons_of_ne_nil fun h => hnil ?_
    rw [h]
    rfl
  have hb : b ≠ 0 := hnonzero position b (by rw [hcons]; simp)
  rw [strtok, hnext]
  dsimp only
  rw [hrest, skip_delimiters_eq (hnonzero position), if_neg hnil, hskip, hcons, List.cons_append,
    deref_cons, ok_bind, if_neg (fun h => hb (char_eq_zero.mp h)), ok_bind]
  dsimp only
  rw [find_delimiter_eq (hnonzero start), ok_bind, hfind, hoffset start (by omega),
    hoffset stop hstop]
  rcases hcases : text.drop stop with _ | ⟨c, rest'⟩
  · -- the terminator ends the token, and no byte is set
    have hfull : stop = text.length := by
      have := List.drop_eq_nil_iff.mp hcases
      omega
    rw [hfull, set_terminator hlen hle hrest]
    exact ⟨_, rfl, Or.inr ⟨rfl, by omega⟩⟩
  · have hc : c ≠ 0 := hnonzero stop c (by rw [hcases]; simp)
    have hmin : stop + 1 ≤ text.length := by
      have := congrArg List.length hcases
      rw [List.length_drop, List.length_cons] at this
      omega
    rw [List.cons_append, deref_cons, ok_bind, if_neg (fun h => hc (char_eq_zero.mp h)),
      Nat.min_eq_left hmin]
    exact ⟨_, rfl, Or.inl rfl⟩

/-- **One call** takes the next token. -/
theorem strtok_step (htext : ∀ b ∈ text, b ≠ 0) (hle : position ≤ text.length)
    (hlen : string.length = text.length + 1)
    (hrest : string.drop position = text.drop position ++ [0]) (delimiters : CString)
    (hgoes : Goes text (if str.isSome then str else strtok_next) position) :
    ∃ next, strtok string strtok_next str delimiters.bytes =
        .ok ⟨(nextToken text delimiters.text position).map Prod.fst,
          terminated string (nextToken text delimiters.text position), next⟩ ∧
      Goes text next (positionAfter text (nextToken text delimiters.text position)) := by
  by_cases hnil : (text.drop position).dropWhile (· ∈ delimiters.text) = []
  · rw [nextToken_of_eq_nil delimiters hle hnil]
    rcases hgoes with hnext | ⟨hnext, -⟩
    · exact strtok_of_eq_nil htext hle hrest hnext hnil
    · rw [strtok, hnext]
      exact ⟨_, rfl, Or.inr ⟨rfl, rfl⟩⟩
  · obtain ⟨start, stop, htoken, hlt, hskip, hfind⟩ := nextToken_of_ne_nil hnil
    obtain ⟨-, -, hstop⟩ := nextToken_bounds htoken
    rw [htoken]
    rcases hgoes with hnext | ⟨-, hend⟩
    · exact strtok_of_ne_nil htext hlen hle hrest hnext hnil hlt hstop hskip hfind
    · rw [hend, List.drop_length] at hnil
      exact absurd rfl hnil

end

/-! ### All calls -/

theorem drop_rest {position position' : Nat} (hle : position ≤ position')
    (hle' : position' ≤ text.length) (hrest : string.drop position = text.drop position ++ [0]) :
    string.drop position' = text.drop position' ++ [0] := by
  obtain ⟨d, rfl⟩ := Nat.exists_eq_add_of_le hle
  rw [← List.drop_drop, hrest, List.drop_append_of_le_length (by rw [List.length_drop]; omega),
    List.drop_drop]

theorem terminated_getElem? {set : List UInt8} {position : Nat}
    (hlen : string.length = text.length + 1) (i : Nat) :
    (terminated string (nextToken text set position))[i]? =
      if i ∈ ((nextToken text set position).map Prod.snd).toList then some 0 else string[i]? := by
  rcases htoken : nextToken text set position with _ | ⟨start, stop⟩
  · rfl
  · obtain ⟨-, -, hstop⟩ := nextToken_bounds htoken
    simp only [terminated, Option.map_some, Option.toList_some, List.mem_singleton,
      List.getElem?_set]
    by_cases hi : stop = i
    · rw [if_pos hi, if_pos (by omega), if_pos hi.symm]
    · rw [if_neg hi, if_neg (Ne.symm hi)]

/-- **What is left to take apart** is not changed. -/
theorem terminated_drop {set : List UInt8} {position : Nat} (hle : position ≤ text.length)
    (hlen : string.length = text.length + 1)
    (hrest : string.drop position = text.drop position ++ [0]) :
    (terminated string (nextToken text set position)).drop
        (positionAfter text (nextToken text set position)) =
      text.drop (positionAfter text (nextToken text set position)) ++ [0] := by
  rcases htoken : nextToken text set position with _ | ⟨start, stop⟩
  · exact drop_rest hle le_rfl hrest
  · obtain ⟨h1, h2, hstop⟩ := nextToken_bounds htoken
    rw [terminated, positionAfter]
    rcases Nat.lt_or_ge stop text.length with hlt | hge
    · rw [Nat.min_eq_left hlt, List.drop_set_of_lt (Nat.lt_succ_self stop)]
      exact drop_rest (by omega) hlt hrest
    · rw [Nat.min_eq_right (by omega), Nat.le_antisymm hstop hge, set_terminator hlen hle hrest]
      exact drop_rest hle le_rfl hrest

/-- **The token is there**, and a zero behind it. -/
theorem terminated_token {set : List UInt8} {position start stop : Nat}
    (hrest : string.drop position = text.drop position ++ [0])
    (htoken : nextToken text set position = some (start, stop)) :
    ∃ rest, (terminated string (nextToken text set position)).drop start =
      (text.drop start).take (stop - start) ++ 0 :: rest := by
  obtain ⟨h1, h2, hstop⟩ := nextToken_bounds htoken
  have hsplit : (text.drop start ++ [0]).set (stop - start) 0 =
      (text.drop start).take (stop - start) ++
        0 :: (text.drop start ++ [0]).drop (stop - start + 1) := by
    rw [List.set_eq_take_append_cons_drop, if_pos (by
      rw [List.length_append, List.length_drop, List.length_singleton]; omega),
      List.take_append_of_le_length (by rw [List.length_drop]; omega)]
  rw [htoken, terminated, List.drop_set, if_neg (by omega), drop_rest h1 (by omega) hrest]
  exact ⟨_, hsplit⟩

theorem terminated_length (string : List UInt8) (token : Option (Nat × Nat)) :
    (terminated string token).length = string.length := by
  rcases token with _ | ⟨start, stop⟩
  · rfl
  · exact List.length_set

theorem positionAfter_le (text : List UInt8) (token : Option (Nat × Nat)) :
    positionAfter text token ≤ text.length := by
  rcases token with _ | ⟨start, stop⟩
  · exact le_rfl
  · exact Nat.min_le_right _ _

/-- The calls with one set of delimiters after the other, the first of them with `str`. -/
def strtok_calls : List UInt8 → Option Nat → Option Nat → List CString →
    Except Fault (List (Option Nat × List UInt8))
  | _, _, _, [] => .ok []
  | string, strtok_next, str, delimiters :: sets => do
    let r ← strtok string strtok_next str delimiters.bytes
    let rs ← strtok_calls r.string r.strtok_next none sets
    return (r.token, r.string) :: rs

/-- The bytes behind the tokens. -/
def ends (taken : List (Option (Nat × Nat))) : List Nat :=
  taken.flatMap fun token => (token.map Prod.snd).toList

theorem calls_spec (htext : ∀ b ∈ text, b ≠ 0) (sets : List CString) {position : Nat}
    (hle : position ≤ text.length) (hlen : string.length = text.length + 1)
    (hrest : string.drop position = text.drop position ++ [0]) {strtok_next str : Option Nat}
    (hgoes : Goes text (if str.isSome then str else strtok_next) position) :
    ∃ rs, strtok_calls string strtok_next str sets = .ok rs ∧ rs.length = sets.length ∧
      ∀ k r, rs[k]? = some r → ∃ token, (tokens text position sets)[k]? = some token ∧
        r.1 = token.map Prod.fst ∧
        (∀ i, r.2[i]? = if i ∈ ends ((tokens text position sets).take (k + 1)) then some 0
          else string[i]?) ∧
        ∀ start stop, token = some (start, stop) →
          ∃ rest, r.2.drop start = (text.drop start).take (stop - start) ++ 0 :: rest := by
  induction sets generalizing string position strtok_next str with
  | nil => exact ⟨[], rfl, rfl, fun k r h => by cases h⟩
  | cons delimiters sets ih =>
    obtain ⟨next, hcall, hgoes'⟩ := strtok_step htext hle hlen hrest delimiters hgoes
    have hget (i : Nat) : (terminated string (nextToken text delimiters.text position))[i]? =
        if i ∈ ((nextToken text delimiters.text position).map Prod.snd).toList then some 0
        else string[i]? := terminated_getElem? hlen i
    obtain ⟨rs, hrs, hrslen, hspec⟩ :=
      ih (positionAfter_le text _) ((terminated_length string _).trans hlen)
        (terminated_drop hle hlen hrest)
        (show Goes text (if (none : Option Nat).isSome then none else next) _ from hgoes')
    refine ⟨((nextToken text delimiters.text position).map Prod.fst,
      terminated string (nextToken text delimiters.text position)) :: rs, ?_, ?_, ?_⟩
    · rw [strtok_calls, hcall, ok_bind]
      dsimp only
      rw [hrs]
      rfl
    · rw [List.length_cons, hrslen, List.length_cons]
    · intro k r hr
      have hcons (n : Nat) : ends ((tokens text position (delimiters :: sets)).take (n + 1)) =
          ((nextToken text delimiters.text position).map Prod.snd).toList ++
            ends ((tokens text (positionAfter text (nextToken text delimiters.text position))
              sets).take n) := rfl
      cases k with
      | zero =>
        rw [List.getElem?_cons_zero, Option.some.injEq] at hr
        refine ⟨_, rfl, by rw [← hr], ?_, ?_⟩
        · intro i
          rw [← hr, hget i, hcons 0, List.take_zero, ends, List.flatMap_nil, List.append_nil]
        · intro start stop htoken
          rw [← hr]
          exact terminated_token hrest htoken
      | succ k =>
        rw [List.getElem?_cons_succ] at hr
        obtain ⟨token, htoken, hfst, hbytes, hin⟩ := hspec k r hr
        refine ⟨token, htoken, hfst, ?_, hin⟩
        intro i
        rw [hbytes i, hget i, hcons (k + 1), ← ite_or]
        simp only [List.mem_append, or_comm]

theorem tokens_at_end (sets : List CString) :
    ∀ token ∈ tokens text text.length sets, token = none := by
  induction sets with
  | nil => intro token h; cases h
  | cons delimiters sets ih =>
    have htoken : nextToken text delimiters.text text.length = none :=
      nextToken_of_eq_nil delimiters le_rfl (by rw [List.drop_length]; rfl)
    intro token h
    rw [tokens, htoken] at h
    rcases List.mem_cons.mp h with rfl | h
    · rfl
    · exact ih token h

/-- **No token comes after the last.** -/
theorem tokens_none {sets : List CString} {position k j : Nat} {token : Option (Nat × Nat)}
    (hkj : k ≤ j) (hk : (tokens text position sets)[k]? = some none)
    (hj : (tokens text position sets)[j]? = some token) : token = none := by
  induction sets generalizing position k j with
  | nil => cases hj
  | cons delimiters sets ih =>
    rw [tokens] at hk hj
    cases k with
    | zero =>
      rw [List.getElem?_cons_zero, Option.some.injEq] at hk
      rw [hk] at hj
      rcases List.mem_cons.mp (List.mem_of_getElem? hj) with rfl | h
      · rfl
      · exact tokens_at_end sets token h
    | succ k =>
      obtain ⟨j, rfl⟩ : ∃ i, j = i + 1 := ⟨j - 1, by omega⟩
      rw [List.getElem?_cons_succ] at hk hj
      exact ih (by omega) hk hj

end

/-- **`strtok` takes a string apart.**  Each call returns the next token of the text and puts a zero
behind it, or returns `NULL` as all later calls do; no byte changes but those behind the tokens. -/
theorem strtok_tokenises (s : CString) (sets : List CString) (old : Option Nat) :
    ∃ rs, strtok_calls s.bytes old (some 0) sets = .ok rs ∧ rs.length = sets.length ∧
      (∀ k r, rs[k]? = some r → ∃ token, (tokens s.text 0 sets)[k]? = some token ∧
        r.1 = token.map Prod.fst ∧
        (∀ i, r.2[i]? = if i ∈ ends ((tokens s.text 0 sets).take (k + 1)) then some 0
          else s.bytes[i]?) ∧
        ∀ start stop, token = some (start, stop) →
          ∃ rest, r.2.drop start = (s.text.drop start).take (stop - start) ++ 0 :: rest) ∧
      ∀ (k j : Nat) (r r' : Option Nat × List UInt8), k ≤ j → rs[k]? = some r →
        rs[j]? = some r' → r.1 = none → r'.1 = none := by
  obtain ⟨rs, hrs, hlen, hspec⟩ := calls_spec s.nonzero sets (Nat.zero_le _)
    (show s.bytes.length = s.text.length + 1 by rw [CString.bytes, List.length_append]; rfl)
    (show s.bytes.drop 0 = s.text.drop 0 ++ [0] from rfl)
    (show Goes s.text (if (some 0).isSome then some 0 else old) 0 from Or.inl rfl)
  refine ⟨rs, hrs, hlen, hspec, ?_⟩
  intro k j r r' hkj hr hr' hnone
  obtain ⟨token, htoken, hfst, -⟩ := hspec k r hr
  obtain ⟨token', htoken', hfst', -⟩ := hspec j r' hr'
  have hk : token = none := by
    rw [hnone] at hfst
    exact Option.map_eq_none_iff.mp hfst.symm
  rw [hk] at htoken
  rw [hfst', tokens_none hkj htoken htoken', Option.map_none]

end Stuos.Libc
