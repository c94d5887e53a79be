import Mathlib.Data.List.Range
import Stuos.Tty.Cursor

/-!
# The input buffer

`tty.c`: `input_buffer` is an array, `next` points behind the last character in it, and a
read shuffles what is left down in place.  `arrays` is the terminal with that array;
`terminal`, whose input is a list, is what it amounts to.

* `shuffleDown_apply`: the shuffle is in place, but every character is read before it is
  overwritten.
* `arrays_simulates`: every step on the array is a step on the list.
* `returned_append_pending`: what was returned, and then what is pending, is what was typed.
* `line_at_a_time`: **the same of the array**, with what every read returns.
-/

namespace Stuos.Terminal

open Stuos.Lib

variable {t t' : Tty} {l : List TtyEvent}

/-- `input_buffer`, and `next` as an index into it. -/
structure InputArray where
  inputBuffer : Nat → UInt8
  next : Nat

namespace InputArray

/-- The loop of `find_newline_in_input_buffer` at index `i`, with `n` characters before
`next`. -/
def findNewlineFrom (chars : Nat → UInt8) (i : Nat) : Nat → Nat
  | 0 => 0
  | n + 1 =>
    -- the newline is included
    if chars i = newline then i + 1 else findNewlineFrom chars (i + 1) n

def findNewlineInInputBuffer (b : InputArray) : Nat := findNewlineFrom b.inputBuffer 0 b.next

/-- The loop that copies `num` characters to `out`. -/
def copyOut (chars : Nat → UInt8) (i : Nat) : Nat → List UInt8
  | 0 => []
  | n + 1 => chars i :: copyOut chars (i + 1) n

/-- The loop that shuffles the remaining data down, at index `j`. -/
def shuffleDown (chars : Nat → UInt8) (num j : Nat) : Nat → (Nat → UInt8)
  | 0 => chars
  | n + 1 => shuffleDown (Function.update chars j (chars (j + num))) num (j + 1) n

def backspaceChar (b : InputArray) : InputArray :=
  -- underflow
  if b.next = 0 then b else { b with next := b.next - 1 }

def storeChar (b : InputArray) (x : UInt8) : Except TtyHalt InputArray := do
  -- overflow
  ensure (b.next ≠ inputBufLength) .hcf
  return { inputBuffer := Function.update b.inputBuffer b.next x, next := b.next + 1 }

def readChars (b : InputArray) (num : Nat) : InputArray × List UInt8 :=
  let endPosition := b.findNewlineInInputBuffer
  let num := if endPosition < num then endPosition else num
  if num = 0 then (b, [])
  else
    let remaining := b.next - num
    ({ inputBuffer := shuffleDown b.inputBuffer num 0 remaining, next := b.next - num },
      copyOut b.inputBuffer 0 num)

/-- The characters before `next`. -/
def contents (b : InputArray) : List UInt8 := (List.range' 0 b.next).map b.inputBuffer

end InputArray

/-- The static state of `tty.c` with its input array; the list in `screen` is not used. -/
structure ArrayTty where
  screen : Tty
  input : InputArray

namespace ArrayTty

def ttyProvideStdin (a : ArrayTty) (x : UInt8) : Except TtyHalt ArrayTty := do
  if x = 0 then return a
  let screen ← writeFromMultipleSources a.screen x true
  if x = backspace ∧ screen.icanon then
    return { screen := screen, input := a.input.backspaceChar }
  else
    let input ← a.input.storeChar x
    return { screen := screen, input := input }

def ttyRead (a : ArrayTty) (num : Nat) : Except TtyHalt (ArrayTty × List UInt8) := do
  ensure (a.screen.icanon = true) .hcf
  let r := a.input.readChars num
  return ({ a with input := r.1 }, r.2)

def ttyWriteChar (a : ArrayTty) (c : UInt8) : Except TtyHalt ArrayTty := do
  let screen ← Terminal.ttyWriteChar a.screen c
  return { a with screen := screen }

end ArrayTty

/-- Any interleaving of typed characters, output and reads; the array is empty at first. -/
def arrays : Lts ArrayTty TtyEvent where
  init a := terminal.init a.screen ∧ a.input.next = 0
  step a ev a' := match ev with
    | .key x => a.ttyProvideStdin x = .ok a'
    | .output c => a.ttyWriteChar c = .ok a'
    | .read num bytes => a.ttyRead num = .ok (a', bytes)

/-! ### The loops -/

namespace InputArray

variable {chars : Nat → UInt8}

theorem copyOut_eq (chars : Nat → UInt8) (i n : Nat) :
    copyOut chars i n = (List.range' i n).map chars := by
  induction n generalizing i with
  | zero => rfl
  | succ n ih => rw [copyOut, ih, List.range'_succ, List.map_cons]

theorem findNewlineFrom_eq (chars : Nat → UInt8) (i n : Nat) :
    findNewlineFrom chars i n =
      match findNewline ((List.range' i n).map chars) with
      | 0 => 0
      | k + 1 => i + (k + 1) := by
  induction n generalizing i with
  | zero => rfl
  | succ n ih =>
    rw [findNewlineFrom, List.range'_succ, List.map_cons, findNewline]
    by_cases hc : chars i = newline
    · rw [if_pos hc, if_pos hc]
    · rw [if_neg hc, if_neg hc, ih]
      cases findNewline ((List.range' (i + 1) n).map chars) with
      | zero => rfl
      | succ k =>
        show i + 1 + (k + 1) = i + (k + 1 + 1)
        omega

theorem findNewline_contents (b : InputArray) :
    b.findNewlineInInputBuffer = findNewline b.contents := by
  rw [findNewlineInInputBuffer, findNewlineFrom_eq, contents]
  cases findNewline ((List.range' 0 b.next).map b.inputBuffer) with
  | zero => rfl
  | succ k => exact Nat.zero_add _

theorem shuffleDown_below (chars : Nat → UInt8) (num j n i : Nat) (h : i < j) :
    shuffleDown chars num j n i = chars i := by
  induction n generalizing chars j with
  | zero => rfl
  | succ n ih =>
    rw [shuffleDown, ih _ _ (by omega), Function.update_of_ne (Nat.ne_of_lt h)]

/-- **The shuffle moves the characters down**: the one at index `j` is overwritten after the
one that comes from it, `num` places below, has been written. -/
theorem shuffleDown_apply (chars : Nat → UInt8) (num j n i : Nat) (hnum : 0 < num) (hj : j ≤ i)
    (hi : i < j + n) : shuffleDown chars num j n i = chars (i + num) := by
  induction n generalizing chars j with
  | zero => omega
  | succ n ih =>
    rw [shuffleDown]
    by_cases hij : i = j
    · subst hij
      rw [shuffleDown_below _ _ _ _ _ (Nat.lt_succ_self i), Function.update_self]
    · rw [ih _ _ (by omega) (by omega), Function.update_of_ne (by omega)]

theorem length_contents (b : InputArray) : b.contents.length = b.next := by
  simp [contents]

theorem contents_backspace (b : InputArray) : b.backspaceChar.contents = b.contents.dropLast := by
  rw [backspaceChar]
  split
  · rename_i h
    simp [contents, h]
  · rename_i h
    obtain ⟨n, hn⟩ := Nat.exists_eq_succ_of_ne_zero h
    simp [contents, hn, List.range'_concat]

theorem contents_store (b : InputArray) (x : UInt8) :
    (⟨Function.update b.inputBuffer b.next x, b.next + 1⟩ : InputArray).contents =
      b.contents ++ [x] := by
  have hold : (List.range' 0 b.next).map (Function.update b.inputBuffer b.next x) =
      (List.range' 0 b.next).map b.inputBuffer := by
    refine List.map_congr_left fun i hi => Function.update_of_ne ?_ _ _
    have := List.mem_range'_1.mp hi
    omega
  rw [contents, List.range'_concat, List.map_append, hold]
  simp [contents]

/-- **A read** takes the first characters off the contents. -/
theorem readChars_eq (b : InputArray) (num : Nat) :
    (b.readChars num).1.contents = b.contents.drop (min num (findNewline b.contents)) ∧
      (b.readChars num).2 = b.contents.take (min num (findNewline b.contents)) := by
  have hmin : (if b.findNewlineInInputBuffer < num then b.findNewlineInInputBuffer else num) =
      min num (findNewline b.contents) := by
    rw [findNewline_contents]
    split <;> omega
  have hle : findNewline b.contents ≤ b.next := by
    have hle : findNewline (b.contents ++ []) ≤ b.contents.length := findNewline_le (by simp)
    rwa [List.append_nil, length_contents] at hle
  rw [readChars]
  simp only [hmin]
  generalize hn : min num (findNewline b.contents) = n
  have hnext : n ≤ b.next := by omega
  by_cases hzero : n = 0
  · rw [if_pos hzero, hzero]
    exact ⟨rfl, rfl⟩
  · rw [if_neg hzero]
    constructor
    · refine List.ext_getElem (by simp [contents]) fun i h1 h2 => ?_
      have hi : i < b.next - n := by simpa [contents] using h1
      simp only [contents, List.getElem_map, List.getElem_range', List.getElem_drop, Nat.one_mul,
        Nat.zero_add]
      rw [shuffleDown_apply _ _ _ _ _ (Nat.pos_of_ne_zero hzero) (Nat.zero_le i) (by omega),
        Nat.add_comm]
    · rw [copyOut_eq]
      refine List.ext_getElem (by simp [contents]; omega) fun i h1 h2 => ?_
      simp [contents]

end InputArray

/-! ### The array and the list -/

/-- The same state with another list. -/
def Tty.withInput (t : Tty) (input : List UInt8) : Tty := { t with inputBuffer := input }

theorem doNewline_withInput (t : Tty) (buffer : Nat → UInt8) (input : List UInt8) :
    doNewline (t.withInput input) buffer = (doNewline t buffer).map (·.withInput input) := by
  show (indexBuffer { t with cursorY := (t.cursorY + 1) % t.charsHeight, cursorX := 0 } 0
    ((t.cursorY + 1) % t.charsHeight) >>= _) = Except.map _ (_ >>= _)
  cases indexBuffer { t with cursorY := (t.cursorY + 1) % t.charsHeight, cursorX := 0 } 0
    ((t.cursorY + 1) % t.charsHeight) <;> rfl

theorem advance_withInput (t : Tty) (buffer : Nat → UInt8) (c : UInt8) (input : List UInt8) :
    advance (t.withInput input) buffer c = (advance t buffer c).map (·.withInput input) := by
  unfold advance
  split
  · exact doNewline_withInput { t with currentRunOfKeyboardInputs := 0 } buffer input
  · rfl

theorem wrapLine_withInput (t : Tty) (buffer : Nat → UInt8) (input : List UInt8) :
    wrapLine (t.withInput input) buffer = (wrapLine t buffer).map (·.withInput input) := by
  unfold wrapLine
  split
  · rename_i h
    rw [if_pos (show t.cursorX = t.charsWidth from h)]
    exact doNewline_withInput t buffer input
  · rename_i h
    rw [if_neg (show ¬ t.cursorX = t.charsWidth from h)]
    rfl

theorem retreat_withInput (t : Tty) (input : List UInt8) :
    retreat (t.withInput input) = (retreat t).withInput input := by
  unfold retreat
  split
  · rename_i h
    rw [if_pos (show t.cursorX = 0 from h)]
    rfl
  · rename_i h
    rw [if_neg (show ¬ t.cursorX = 0 from h)]
    rfl

/-- The backspace branch once the cursor has gone back. -/
def eraseAt (t : Tty) (buffer : Nat → UInt8) : Except TtyHalt Tty := do
  let idx ← indexBuffer t t.cursorX t.cursorY
  let buffer := Function.update buffer idx space
  let t := { t with buffer := some buffer, dirty := .allDirty }
  let display ← blit t buffer
  return { t with display := display }

theorem eraseAt_withInput (t : Tty) (buffer : Nat → UInt8) (input : List UInt8) :
    eraseAt (t.withInput input) buffer = (eraseAt t buffer).map (·.withInput input) := by
  unfold eraseAt
  show (indexBuffer t t.cursorX t.cursorY >>= _) =
    Except.map _ (indexBuffer t t.cursorX t.cursorY >>= _)
  cases indexBuffer t t.cursorX t.cursorY with
  | error e => rfl
  | ok idx =>
    simp only [ok_bind]
    let t₁ : Tty :=
      { t with buffer := some (Function.update buffer idx space), dirty := .allDirty }
    show (blit t₁ (Function.update buffer idx space) >>= _) =
      Except.map _ (blit t₁ (Function.update buffer idx space) >>= _)
    cases blit t₁ (Function.update buffer idx space) <;> rfl

theorem eraseChar_withInput (t : Tty) (buffer : Nat → UInt8) (input : List UInt8) :
    eraseChar (t.withInput input) buffer = (eraseChar t buffer).map (·.withInput input) := by
  let t₁ : Tty := { t with currentRunOfKeyboardInputs := t.currentRunOfKeyboardInputs - 1 }
  calc eraseChar (t.withInput input) buffer
      = eraseAt (retreat (t₁.withInput input)) buffer := rfl
    _ = eraseAt ((retreat t₁).withInput input) buffer := by rw [retreat_withInput]
    _ = (eraseAt (retreat t₁) buffer).map (·.withInput input) := eraseAt_withInput _ _ _

theorem putChar_withInput (t : Tty) (buffer : Nat → UInt8) (c : UInt8) (kb : Bool)
    (input : List UInt8) :
    putChar (t.withInput input) buffer c kb = (putChar t buffer c kb).map (·.withInput input) := by
  unfold putChar
  show (indexBuffer t t.cursorX t.cursorY >>= _) = Except.map _ (indexBuffer t _ _ >>= _)
  cases indexBuffer t t.cursorX t.cursorY with
  | error e => rfl
  | ok idx =>
    let buffer₁ := Function.update (if t.cursorX = 0 then blank buffer idx t.charsWidth else buffer)
      idx c
    let t₂ : Tty := { t with
      buffer := some buffer₁
      currentRunOfKeyboardInputs := if kb then t.currentRunOfKeyboardInputs + 1 else 0 }
    simp only [ok_bind]
    show (advance (t₂.withInput input) buffer₁ c >>= _) =
      Except.map _ (advance t₂ buffer₁ c >>= _)
    rw [advance_withInput]
    cases advance t₂ buffer₁ c with
    | error e => rfl
    | ok t₃ =>
      simp only [Except.map, ok_bind]
      show (wrapLine (t₃.withInput input) (t₃.buffer.getD buffer₁) >>= _) = _
      rw [wrapLine_withInput]
      cases wrapLine t₃ (t₃.buffer.getD buffer₁) with
      | error e => rfl
      | ok t₄ =>
        simp only [Except.map, ok_bind]
        show (blit { t₄ with cursorY := t₄.cursorY % t₄.charsHeight } (t₄.buffer.getD buffer₁) >>= _) = _
        cases blit { t₄ with cursorY := t₄.cursorY % t₄.charsHeight } (t₄.buffer.getD buffer₁) <;> rfl

/-- **Writing to the screen** does not look at the input. -/
theorem write_withInput (t : Tty) (c : UInt8) (kb : Bool) (input : List UInt8) :
    writeFromMultipleSources (t.withInput input) c kb =
      (writeFromMultipleSources t c kb).map (·.withInput input) := by
  unfold writeFromMultipleSources
  have hbuffer : (t.withInput input).buffer = t.buffer := rfl
  rw [hbuffer]
  cases t.buffer with
  | none => rfl
  | some buffer =>
    simp only
    generalize (if 128 ≤ c then questionMark else c) = c
    by_cases hbs : c = backspace ∧ kb = true ∧ t.icanon = true
    · rw [if_pos hbs,
        if_pos (show c = backspace ∧ kb = true ∧ (t.withInput input).icanon = true from hbs)]
      by_cases hrun : t.currentRunOfKeyboardInputs = 0
      · rw [if_pos hrun, if_pos (show (t.withInput input).currentRunOfKeyboardInputs = 0 from hrun)]
        rfl
      · rw [if_neg hrun, if_neg (show ¬ (t.withInput input).currentRunOfKeyboardInputs = 0 from hrun)]
        exact eraseChar_withInput t buffer input
    · rw [if_neg hbs,
        if_neg (show ¬ (c = backspace ∧ kb = true ∧ (t.withInput input).icanon = true) from hbs)]
      exact putChar_withInput t buffer c kb input

/-- The state on the list for a state on the array. -/
def ArrayTty.list (a : ArrayTty) : Tty := a.screen.withInput a.input.contents

/-- **Every step on the array is a step on the list**, with the same bytes. -/
theorem arrays_simulates :
    Lts.Simulation arrays terminal (fun _ _ => True) (fun a t => t = a.list) where
  step := by
    rintro a t ev a' rfl - hstep
    refine ⟨a'.list, ?_, rfl⟩
    cases ev with
    | key x =>
      have hkey : a.ttyProvideStdin x = .ok a' := hstep
      show ttyProvideStdin a.list x = .ok a'.list
      unfold ArrayTty.ttyProvideStdin at hkey
      unfold ttyProvideStdin
      split at hkey
      · cases hkey
        rw [if_pos ‹_›]
        rfl
      · rw [if_neg ‹_›]
        simp only [bind_eq_ok] at hkey
        obtain ⟨screen, hwrite, hkey⟩ := hkey
        rw [ArrayTty.list, write_withInput, hwrite]
        simp only [Except.map, ok_bind]
        split at hkey
        · rename_i hbs
          cases hkey
          rw [if_pos (show x = backspace ∧ (screen.withInput a.input.contents).icanon = true from hbs)]
          show Except.ok (screen.withInput a.input.contents.dropLast) = _
          rw [← InputArray.contents_backspace]
          rfl
        · rename_i hbs
          rw [if_neg (show ¬ (x = backspace ∧
            (screen.withInput a.input.contents).icanon = true) from hbs)]
          simp only [bind_eq_ok, InputArray.storeChar, ensure_eq_ok, pure_eq_ok,
            Except.ok.injEq] at hkey
          obtain ⟨_, ⟨_, hroom, rfl⟩, rfl⟩ := hkey
          have hlen : (screen.withInput a.input.contents).inputBuffer.length ≠ inputBufLength := by
            show a.input.contents.length ≠ _
            rwa [InputArray.length_contents]
          rw [ensure_of hlen, ok_bind]
          show Except.ok (screen.withInput (a.input.contents ++ [x])) = _
          rw [← InputArray.contents_store]
          rfl
    | output c =>
      have hout : a.ttyWriteChar c = .ok a' := hstep
      show writeFromMultipleSources a.list c false = .ok a'.list
      simp only [ArrayTty.ttyWriteChar, ttyWriteChar, bind_eq_ok, pure_eq_ok,
        Except.ok.injEq] at hout
      obtain ⟨screen, hwrite, rfl⟩ := hout
      rw [ArrayTty.list, write_withInput, hwrite]
      rfl
    | read num bytes =>
      have hread : a.ttyRead num = .ok (a', bytes) := hstep
      show ttyRead a.list num = .ok (a'.list, bytes)
      simp only [ArrayTty.ttyRead, bind_eq_ok, ensure_eq_ok, pure_eq_ok, Except.ok.injEq,
        Prod.mk.injEq] at hread
      obtain ⟨_, hic, rfl, rfl⟩ := hread
      obtain ⟨hrest, hbytes⟩ := a.input.readChars_eq num
      rw [ttyRead, ensure_of (show a.list.icanon = true from hic), ok_bind, hbytes]
      show _ = Except.ok (a.screen.withInput (a.input.readChars num).1.contents, _)
      rw [hrest]
      rfl

/-! ### Lines -/

def TtyEvent.typed : TtyEvent → List UInt8
  | .key x => [x]
  | _ => []

def TtyEvent.returned : TtyEvent → List UInt8
  | .read _ bytes => bytes
  | _ => []

/-- The characters that were typed, in order. -/
def typed (l : List TtyEvent) : List UInt8 := l.flatMap TtyEvent.typed

/-- Everything that reads have returned. -/
def returned (l : List TtyEvent) : List UInt8 := l.flatMap TtyEvent.returned

/-- The first complete line, with its newline; nothing if no line is complete. -/
def firstLine (input : List UInt8) : List UInt8 :=
  if newline ∈ input then input.takeWhile (· ≠ newline) ++ [newline] else []

/-- Neither a NUL nor a backspace was typed. -/
def PlainKeys (l : List TtyEvent) : Prop := ∀ x, .key x ∈ l → x ≠ 0 ∧ x ≠ backspace

theorem length_firstLine (input : List UInt8) : (firstLine input).length = findNewline input := by
  induction input with
  | nil => rfl
  | cons c cs ih =>
    rw [findNewline]
    by_cases hc : c = newline
    · rw [if_pos hc, firstLine, if_pos (by simp [hc])]
      simp [hc]
    · rw [if_neg hc, ← ih, firstLine, firstLine]
      by_cases hmem : newline ∈ cs
      · rw [if_pos (List.mem_cons_of_mem _ hmem), if_pos hmem]
        simp [hc]
      · rw [if_neg (by simp [hmem, Ne.symm hc]), if_neg hmem]
        rfl

theorem firstLine_isPrefix (input : List UInt8) : firstLine input <+: input := by
  unfold firstLine
  split
  · rename_i hmem
    obtain ⟨before, after, rfl, hbefore⟩ := List.eq_append_cons_of_mem hmem
    refine ⟨after, ?_⟩
    have htake : (before ++ newline :: after).takeWhile (· ≠ newline) = before := by
      rw [List.takeWhile_append_of_pos]
      · simp
      · intro c hc
        simpa using fun he : c = newline => hbefore (he ▸ hc)
    rw [htake, List.append_assoc]
    rfl
  · exact List.nil_prefix

theorem take_findNewline (input : List UInt8) (num : Nat) :
    input.take (min num (findNewline input)) = (firstLine input).take num := by
  have hline := List.prefix_iff_eq_take.mp (firstLine_isPrefix input)
  rw [length_firstLine] at hline
  rw [hline, List.take_take]

/-! ### Runs on the list -/

theorem OnScreen.init (h : terminal.init t) : OnScreen t := by
  obtain ⟨width, height, h⟩ := h
  unfold initialiseTty at h
  simp only [bind_eq_ok, pure_eq_ok, Except.ok.injEq] at h
  obtain ⟨display, -, rfl⟩ := h
  intro hb
  have hcells : width / charScreenSize * (height / charScreenSize) ≠ 0 := fun hzero => by
    simp [hzero] at hb
  exact ⟨Nat.pos_of_ne_zero (Nat.mul_ne_zero_iff.mp hcells).1,
    Nat.pos_of_ne_zero (Nat.mul_ne_zero_iff.mp hcells).2⟩

theorem step_input {ev : TtyEvent} (h : OnScreen t) (hic : t.icanon = true)
    (hstep : terminal.step t ev t') : OnScreen t' ∧ t'.icanon = true ∧
      match ev with
      | .key x => t'.inputBuffer =
          if x = 0 then t.inputBuffer
          else if x = backspace then t.inputBuffer.dropLast else t.inputBuffer ++ [x]
      | .output _ => t'.inputBuffer = t.inputBuffer
      | .read _ bytes => bytes ++ t'.inputBuffer = t.inputBuffer := by
  cases ev with
  | key x =>
    obtain ⟨t₁, hwrite, hon, hinput, hic₁⟩ := write_total x true h
    have hkey : ttyProvideStdin t x = .ok t' := hstep
    rw [ttyProvideStdin] at hkey
    dsimp only
    by_cases hx : x = 0
    · rw [if_pos hx, pure_eq_ok, Except.ok.injEq] at hkey
      subst hkey
      exact ⟨h, hic, (if_pos hx).symm⟩
    · rw [if_neg hx, hwrite, ok_bind] at hkey
      rw [if_neg hx]
      by_cases hbs : x = backspace
      · rw [if_pos ⟨hbs, hic₁.trans hic⟩] at hkey
        cases hkey
        exact ⟨hon, hic₁.trans hic, by rw [if_pos hbs, hinput]⟩
      · rw [if_neg fun hc => hbs hc.1, bind_eq_ok] at hkey
        obtain ⟨_, -, hkey⟩ := hkey
        cases hkey
        exact ⟨hon, hic₁.trans hic, by rw [if_neg hbs, hinput]⟩
  | output c =>
    obtain ⟨t₁, hwrite, hon, hinput, hic₁⟩ := write_total c false h
    obtain rfl : t₁ = t' := Except.ok.inj (hwrite.symm.trans hstep)
    exact ⟨hon, hic₁.trans hic, hinput⟩
  | read num bytes =>
    have hread : ttyRead t num = .ok (t', bytes) := hstep
    rw [ttyRead, ensure_of hic, ok_bind, pure_eq_ok, Except.ok.injEq, Prod.mk.injEq] at hread
    obtain ⟨rfl, rfl⟩ := hread
    exact ⟨h, hic, List.take_append_drop _ _⟩

theorem run_onScreen {t₀ : Tty} (h0 : terminal.init t₀)
    (hrun : terminal.Run (fun _ _ => True) t₀ l t) : OnScreen t ∧ t.icanon = true := by
  refine hrun.invariant (P := fun _ t => OnScreen t ∧ t.icanon = true) ?_
    ⟨.init h0, (Inv.init h0).icanon⟩
  rintro - t ev t' ⟨hon, hic⟩ - hstep
  obtain ⟨hon', hic', -⟩ := step_input hon hic hstep
  exact ⟨hon', hic'⟩

/-- **No character is lost or repeated**, however the reads cut the lines. -/
theorem returned_append_pending {t₀ : Tty} (h0 : terminal.init t₀)
    (hrun : terminal.Run (fun _ _ => True) t₀ l t) (hplain : PlainKeys l) :
    returned l ++ t.inputBuffer = typed l := by
  induction hrun with
  | nil => exact (Inv.init h0).input
  | snoc hrun _hok hstep ih =>
    rename_i s s' l ev
    obtain ⟨hon, hic⟩ := run_onScreen h0 hrun
    obtain ⟨-, -, hinput⟩ := step_input hon hic hstep
    have hprev := ih fun x hx => hplain x (List.mem_append_left _ hx)
    have htyped : typed (l ++ [ev]) = typed l ++ ev.typed := by simp [typed]
    have hreturned : returned (l ++ [ev]) = returned l ++ ev.returned := by simp [returned]
    rw [htyped, hreturned, ← hprev]
    cases ev with
    | key x =>
      obtain ⟨hx, hbs⟩ := hplain x (by simp)
      dsimp only at hinput
      rw [hinput, if_neg hx, if_neg hbs]
      simp [TtyEvent.typed, TtyEvent.returned]
    | output c =>
      dsimp only at hinput
      rw [hinput]
      simp [TtyEvent.typed, TtyEvent.returned]
    | read num bytes =>
      dsimp only at hinput
      rw [← hinput]
      simp [TtyEvent.typed, TtyEvent.returned]

/-! ### Runs on the array -/

/-- **Line-at-a-time delivery.**  After every run without backspaces, what was returned and
what is pending are the typed characters, in order; a read returns the start of the first
complete line, as much of it as was asked for; and a character is taken as long as there is
room. -/
theorem line_at_a_time {a₀ a : ArrayTty} (h0 : arrays.init a₀)
    (hrun : arrays.Run (fun _ _ => True) a₀ l a) (hplain : PlainKeys l) :
    returned l ++ a.input.contents = typed l ∧
    (∀ num, ∃ a' bytes, a.ttyRead num = .ok (a', bytes) ∧
      bytes = (firstLine a.input.contents).take num ∧
      bytes.length = min num (firstLine a.input.contents).length ∧
      (newline ∉ a.input.contents → bytes.length = 0)) ∧
    ∀ x, a.input.next < inputBufLength → ∃ a', a.ttyProvideStdin x = .ok a' := by
  obtain ⟨hscreen, hempty⟩ := h0
  have hinit : terminal.init a₀.list := by
    obtain ⟨width, height, h⟩ := hscreen
    refine ⟨width, height, ?_⟩
    have hnone : a₀.screen.inputBuffer = [] := (Inv.init ⟨width, height, h⟩).input
    have hlist : a₀.list = a₀.screen := by
      rw [ArrayTty.list, InputArray.contents, hempty]
      show a₀.screen.withInput [] = _
      rw [← hnone]
      rfl
    rw [hlist]
    exact h
  obtain ⟨t, hrun', rfl⟩ := arrays_simulates.run hrun rfl
  obtain ⟨hon, hic⟩ := run_onScreen hinit hrun'
  refine ⟨returned_append_pending hinit hrun' hplain, fun num => ?_, fun x hroom => ?_⟩
  · obtain ⟨-, hbytes⟩ := a.input.readChars_eq num
    rw [take_findNewline] at hbytes
    refine ⟨{ a with input := (a.input.readChars num).1 }, _, ?_, hbytes, ?_, ?_⟩
    · rw [ArrayTty.ttyRead, ensure_of (show a.screen.icanon = true from hic)]
      rfl
    · rw [hbytes, List.length_take]
    · intro hnone
      rw [hbytes, firstLine, if_neg hnone, List.take_nil]
      rfl
  · have honScreen : OnScreen a.screen := hon
    obtain ⟨screen, hwrite, -⟩ := write_total x true honScreen
    rw [ArrayTty.ttyProvideStdin, hwrite]
    split
    · exact ⟨a, rfl⟩
    · rw [ok_bind]
      split
      · exact ⟨_, rfl⟩
      · rw [InputArray.storeChar, ensure_of (Nat.ne_of_lt hroom)]
        exact ⟨_, rfl⟩

/-- One line, of which one character is read. -/
theorem line_at_a_time_one_letter :
    ∃ a₀ a a', arrays.init a₀ ∧
      arrays.Run (fun _ _ => True) a₀ [.key 97, .key newline] a ∧
      a.input.contents = [97, newline] ∧ a.ttyRead 1 = .ok (a', [97]) := by
  have hok : (initialiseTty 32 32 >>= fun t =>
      ArrayTty.ttyProvideStdin ⟨t, fun _ => 0, 0⟩ 97 >>= fun a =>
        a.ttyProvideStdin newline).isOk = true := by decide
  obtain ⟨a, ha⟩ := exists_of_isOk hok
  simp only [bind_eq_ok] at ha
  obtain ⟨t, h0, a₁, h₁, h₂⟩ := ha
  have hinit : arrays.init ⟨t, fun _ => 0, 0⟩ := ⟨⟨32, 32, h0⟩, rfl⟩
  have hstep₁ : arrays.step ⟨t, fun _ => 0, 0⟩ (.key 97) a₁ := h₁
  have hstep₂ : arrays.step a₁ (.key newline) a := h₂
  have hrun : arrays.Run (fun _ _ => True) ⟨t, fun _ => 0, 0⟩ [.key 97, .key newline] a :=
    .snoc (.snoc (.nil _) trivial hstep₁) trivial hstep₂
  have hplain : PlainKeys [.key 97, .key newline] := by
    intro x hx
    rcases List.mem_cons.mp hx with he | hx
    · cases he
      decide
    · cases List.mem_singleton.mp hx
      decide
  obtain ⟨hall, hread, -⟩ := line_at_a_time hinit hrun hplain
  have hcontents : a.input.contents = [97, newline] := hall
  obtain ⟨a', bytes, hbytes, hline, -⟩ := hread 1
  rw [hline, hcontents] at hbytes
  exact ⟨_, a, a', hinit, hrun, hcontents, hbytes⟩

end Stuos.Terminal
