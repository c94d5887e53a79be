import Stuos.Lib.Lts
import Stuos.Tty.Terminal

/-!
# Editing a line

What a typed backspace does to the screen and to the pending input.

* `backspace_agrees_iff`: after any run, a typed backspace does the same to the screen and
  to the input exactly when nothing is pending, or when the last pending character was
  typed after the last newline and after the last output of a process.
* `backspace_takes_newline`: a backspace right after a newline leaves the screen alone and
  takes the newline off the input.
-/

namespace Stuos.Terminal

open Stuos.Lib

/-! ### Runs -/

inductive TtyEvent
  | key (x : UInt8)
  | output (c : UInt8)
  | read (num : Nat) (bytes : List UInt8)
  deriving DecidableEq, Repr

/-- Any interleaving of typed characters, characters written by processes and reads, which
carry what they returned. -/
def terminal : Lts Tty TtyEvent where
  init t := ∃ width height, initialiseTty width height = .ok t
  step t ev t' := match ev with
    | .key x => ttyProvideStdin t x = .ok t'
    | .output c => ttyWriteChar t c = .ok t'
    | .read num bytes => ttyRead t num = .ok (t', bytes)

/-- The pending input, as a user sees it: `editable` is what was typed after the last
newline and after the last output of a process. -/
structure Line where
  settled : List UInt8
  editable : List UInt8
  deriving DecidableEq, Repr

def Line.pending (line : Line) : List UInt8 := line.settled ++ line.editable

def Line.step (line : Line) : TtyEvent → Line
  | .key x =>
    if x = 0 then line
    else if x = backspace then
      if line.editable = [] then { line with settled := line.settled.dropLast }
      else { line with editable := line.editable.dropLast }
    else if x = newline then { settled := line.pending ++ [x], editable := [] }
    else { line with editable := line.editable ++ [x] }
  | .output _ => { settled := line.pending, editable := [] }
  | .read _ bytes => { line with settled := line.settled.drop bytes.length }

/-- The line after these events. -/
def lineAfter (l : List TtyEvent) : Line :=
  l.foldl Line.step { settled := [], editable := [] }

/-- A character is taken off `input_buffer`. -/
def Removes (t t' : Tty) : Prop :=
  t.inputBuffer ≠ [] ∧ t'.inputBuffer = t.inputBuffer.dropLast

/-- A character is erased on the screen: the cursor goes back one cell, the cell is
blanked, and one character fewer can be erased. -/
def Erases (t t' : Tty) : Prop :=
  ∃ buffer, t.buffer = some buffer ∧
    t'.buffer = some (Function.update buffer (t'.cursorX + t.charsWidth * t'.cursorY) space) ∧
    t'.cursorX = (retreat t).cursorX ∧ t'.cursorY = (retreat t).cursorY ∧
    t'.currentRunOfKeyboardInputs + 1 = t.currentRunOfKeyboardInputs

/-- The cursor is on the screen. -/
def Inside (t : Tty) : Prop := t.cursorX < t.charsWidth ∧ t.cursorY < t.charsHeight

/-- The terminal after a run: the input is the line, and what can be erased is its editable
part. -/
structure Inv (l : List TtyEvent) (t : Tty) : Prop where
  icanon : t.icanon = true
  input : t.inputBuffer = (lineAfter l).pending
  noNewline : newline ∉ (lineAfter l).editable
  run : t.currentRunOfKeyboardInputs =
    if t.buffer.isSome then (lineAfter l).editable.length else 0
  inside : t.currentRunOfKeyboardInputs ≠ 0 → Inside t

variable {t t' : Tty} {buffer : Nat → UInt8} {l : List TtyEvent}

@[simp] theorem lineAfter_snoc (l : List TtyEvent) (ev : TtyEvent) :
    lineAfter (l ++ [ev]) = (lineAfter l).step ev := by
  simp [lineAfter]

/-! ### What a write does -/

theorem indexBuffer_eq_ok {x y i : Nat} :
    indexBuffer t x y = .ok i ↔
      (x < t.charsWidth ∧ y < t.charsHeight) ∧ x + t.charsWidth * y = i := by
  unfold indexBuffer
  simp only [bind_eq_ok, ensure_eq_ok, pure_eq_ok, Except.ok.injEq]
  constructor
  · rintro ⟨_, hy, _, hx, hi⟩
    exact ⟨⟨hx, hy⟩, hi⟩
  · rintro ⟨⟨hx, hy⟩, hi⟩
    exact ⟨(), hy, (), hx, hi⟩

/-- `t'` has the input of `t` and a cursor on the screen, and `run` of its characters can
be erased. -/
structure Put (t t' : Tty) (run : Nat) : Prop where
  icanon : t'.icanon = t.icanon
  input : t'.inputBuffer = t.inputBuffer
  buffer : t'.buffer.isSome = true
  run : t'.currentRunOfKeyboardInputs = run
  inside : Inside t'

theorem doNewline_ok (h : doNewline t buffer = .ok t') :
    Put t t' t.currentRunOfKeyboardInputs := by
  unfold doNewline at h
  simp only [bind_eq_ok, indexBuffer_eq_ok, pure_eq_ok, Except.ok.injEq] at h
  obtain ⟨start, ⟨⟨hx, hy⟩, -⟩, rfl⟩ := h
  exact ⟨rfl, rfl, rfl, rfl, hx, hy⟩

theorem wrapLine_ok (h : wrapLine t buffer = .ok t') (hx : t.cursorX ≤ t.charsWidth)
    (hy : t.cursorY < t.charsHeight) (hb : t.buffer.isSome = true) :
    Put t t' t.currentRunOfKeyboardInputs := by
  unfold wrapLine at h
  split at h
  · exact doNewline_ok h
  · cases h
    exact ⟨rfl, rfl, hb, rfl, Nat.lt_of_le_of_ne hx ‹_›, hy⟩

theorem advance_ok {c : UInt8} (h : advance t buffer c = .ok t') (hin : Inside t)
    (hb : t.buffer.isSome = true) :
    t'.icanon = t.icanon ∧ t'.inputBuffer = t.inputBuffer ∧ t'.buffer.isSome = true ∧
      t'.currentRunOfKeyboardInputs = (if c = newline then 0 else t.currentRunOfKeyboardInputs) ∧
      t'.cursorX ≤ t'.charsWidth ∧ t'.cursorY < t'.charsHeight := by
  unfold advance at h
  by_cases hc : c = newline
  · rw [if_pos hc] at h ⊢
    have hput := doNewline_ok h
    exact ⟨hput.icanon, hput.input, hput.buffer, hput.run, Nat.le_of_lt hput.inside.1,
      hput.inside.2⟩
  · rw [if_neg hc] at h ⊢
    cases h
    exact ⟨rfl, rfl, hb, rfl, hin⟩

/-- **A character is put on the screen**: a typed one can be erased again, and a newline or
a character of a process settles what was typed before. -/
theorem putChar_ok {c : UInt8} {kb : Bool} (h : putChar t buffer c kb = .ok t') :
    Put t t' (if c = newline then 0 else if kb then t.currentRunOfKeyboardInputs + 1 else 0) := by
  unfold putChar at h
  simp only [bind_eq_ok, indexBuffer_eq_ok, pure_eq_ok, Except.ok.injEq] at h
  obtain ⟨idx, ⟨hin, -⟩, t1, h1, t2, h2, display, -, rfl⟩ := h
  obtain ⟨hic, hinput, hb, hrun, hx, hy⟩ := advance_ok h1 hin rfl
  have hput := wrapLine_ok h2 hx hy hb
  exact ⟨hput.icanon.trans hic, hput.input.trans hinput, hput.buffer, hput.run.trans hrun,
    hput.inside.1, Nat.mod_lt _ (Nat.zero_lt_of_lt hput.inside.2)⟩

theorem retreat_inside (h : Inside t) : Inside (retreat t) := by
  obtain ⟨hx, hy⟩ := h
  unfold retreat
  split
  · refine ⟨Nat.sub_lt (Nat.zero_lt_of_lt hx) Nat.one_pos, ?_⟩
    show (if t.cursorY = 0 then t.charsHeight - 1 else t.cursorY - 1) < t.charsHeight
    split <;> omega
  · exact ⟨Nat.lt_of_le_of_lt (Nat.sub_le _ _) hx, hy⟩

theorem blit_allDirty (hdirty : t.dirty = .allDirty) (hw : 0 < t.charsWidth) :
    ∃ display, blit t buffer = .ok display := by
  unfold blit
  rw [hdirty]
  apply foldlM_total
  intro line hline display
  rw [List.mem_range] at hline
  have hi := (indexBuffer_eq_ok (t := t)).mpr
    ⟨⟨hw, Nat.mod_lt (line + t.cursorY + 1) (Nat.zero_lt_of_lt hline)⟩, rfl⟩
  exact ⟨_, by rw [hi]; rfl⟩

/-- **A character is erased on the screen.** -/
theorem eraseChar_ok (hb : t.buffer = some buffer) (hin : Inside t)
    (hrun : t.currentRunOfKeyboardInputs ≠ 0) :
    ∃ t', eraseChar t buffer = .ok t' ∧ Erases t t' ∧
      Put t t' (t.currentRunOfKeyboardInputs - 1) := by
  let t1 := retreat { t with currentRunOfKeyboardInputs := t.currentRunOfKeyboardInputs - 1 }
  have hin1 : Inside t1 := retreat_inside hin
  have hidx := (indexBuffer_eq_ok (t := t1)).mpr ⟨hin1, rfl⟩
  let buffer1 := Function.update buffer (t1.cursorX + t1.charsWidth * t1.cursorY) space
  let t2 := { t1 with buffer := some buffer1, dirty := .allDirty }
  obtain ⟨display, hblit⟩ : ∃ display, blit t2 buffer1 = .ok display :=
    blit_allDirty rfl (Nat.zero_lt_of_lt hin1.1)
  have hfields : t1.charsWidth = t.charsWidth ∧ t1.icanon = t.icanon ∧
      t1.inputBuffer = t.inputBuffer ∧ t1.cursorX = (retreat t).cursorX ∧
      t1.cursorY = (retreat t).cursorY ∧
      t1.currentRunOfKeyboardInputs = t.currentRunOfKeyboardInputs - 1 := by
    simp only [t1, retreat]
    split <;> exact ⟨rfl, rfl, rfl, rfl, rfl, rfl⟩
  obtain ⟨hw, hic, hinput, hx, hy, hr⟩ := hfields
  refine ⟨{ t2 with display := display }, ?_, ⟨buffer, hb, ?_, hx, hy, ?_⟩,
    ⟨hic, hinput, rfl, hr, hin1⟩⟩
  · show (indexBuffer t1 t1.cursorX t1.cursorY >>= _) = _
    rw [hidx, ok_bind]
    show (blit t2 buffer1 >>= _) = _
    rw [hblit]
    rfl
  · show some (Function.update buffer (t1.cursorX + t1.charsWidth * t1.cursorY) space) = _
    rw [hw]
  · show t1.currentRunOfKeyboardInputs + 1 = t.currentRunOfKeyboardInputs
    omega

theorem not_erases_self (h : t'.currentRunOfKeyboardInputs = t.currentRunOfKeyboardInputs) :
    ¬ Erases t t' := by
  rintro ⟨_, _, _, _, _, hrun⟩
  omega

/-- What a typed backspace does: the input loses its last character, if there is one; the
screen loses one if there is one to erase, and is left alone otherwise. -/
structure Backspaced (t t' : Tty) : Prop where
  icanon : t'.icanon = true
  buffer : t'.buffer.isSome = t.buffer.isSome
  input : t'.inputBuffer = t.inputBuffer.dropLast
  run : t'.currentRunOfKeyboardInputs = t.currentRunOfKeyboardInputs - 1
  idle : t.currentRunOfKeyboardInputs = 0 → t' = { t with inputBuffer := t'.inputBuffer }
  erases : t.currentRunOfKeyboardInputs ≠ 0 → Erases t t' ∧ Inside t'

theorem ttyProvideStdin_backspace {t1 : Tty}
    (h : writeFromMultipleSources t backspace true = .ok t1) (hic : t1.icanon = true) :
    ttyProvideStdin t backspace =
      .ok { t1 with inputBuffer := t1.inputBuffer.dropLast } := by
  unfold ttyProvideStdin
  rw [if_neg (by decide), h]
  show (if backspace = backspace ∧ t1.icanon = true then _ else _) = _
  rw [if_pos ⟨rfl, hic⟩]
  rfl

/-- **A typed backspace never fails.** -/
theorem backspace_ok (hic : t.icanon = true)
    (hin : t.currentRunOfKeyboardInputs ≠ 0 → Inside t)
    (hnone : t.buffer = none → t.currentRunOfKeyboardInputs = 0) :
    ∃ t', ttyProvideStdin t backspace = .ok t' ∧ Backspaced t t' := by
  have hsigned : ¬ 128 ≤ backspace := by decide
  by_cases hrun : t.currentRunOfKeyboardInputs = 0
  · have hwrite : writeFromMultipleSources t backspace true = .ok t := by
      unfold writeFromMultipleSources
      cases t.buffer with
      | none => rfl
      | some buffer => simp [hic, hrun, hsigned]
    exact ⟨_, ttyProvideStdin_backspace hwrite hic,
      hic, rfl, rfl, by simp [hrun], fun _ => rfl, fun h => absurd hrun h⟩
  · cases hb : t.buffer with
    | none => exact absurd (hnone hb) hrun
    | some buffer =>
      obtain ⟨t1, herase, herases, hput⟩ := eraseChar_ok hb (hin hrun) hrun
      have hwrite : writeFromMultipleSources t backspace true = .ok t1 := by
        unfold writeFromMultipleSources
        rw [hb]
        simp [hic, hrun, hsigned, herase]
      have hic1 := hput.icanon.trans hic
      exact ⟨_, ttyProvideStdin_backspace hwrite hic1, hic1,
        hput.buffer.trans (by rw [hb]; rfl), congrArg List.dropLast hput.input, hput.run,
        fun h => absurd h hrun, fun _ => ⟨herases, hput.inside⟩⟩

/-! ### Typing never leaves the screen -/

/-- The cursor is on the screen, if there is one. -/
def OnScreen (t : Tty) : Prop := t.buffer.isSome = true → Inside t

theorem doNewline_total (t : Tty) (buffer : Nat → UInt8) (h : 0 < t.charsWidth) (h' : 0 < t.charsHeight) :
    ∃ t', doNewline t buffer = .ok t' ∧ t'.charsWidth = t.charsWidth := by
  have hidx := (indexBuffer_eq_ok
    (t := { t with cursorY := (t.cursorY + 1) % t.charsHeight, cursorX := 0 })).mpr
    ⟨⟨h, Nat.mod_lt (t.cursorY + 1) h'⟩, rfl⟩
  unfold doNewline
  simp only [hidx, ok_bind]
  exact ⟨_, rfl, rfl⟩

theorem blit_total (buffer : Nat → UInt8) (hin : Inside t) : ∃ display, blit t buffer = .ok display := by
  cases hdirty : t.dirty with
  | allDirty => exact blit_allDirty hdirty (Nat.zero_lt_of_lt hin.1)
  | onlyPrevCharAffected =>
    have hidx := (indexBuffer_eq_ok (t := t)).mpr
      ⟨⟨Nat.lt_of_le_of_lt (Nat.sub_le _ 1) hin.1, hin.2⟩, rfl⟩
    unfold blit
    simp only [hdirty, hidx, ok_bind]
    exact ⟨_, rfl⟩

theorem putChar_total (buffer : Nat → UInt8) (c : UInt8) (kb : Bool) (hin : Inside t) :
    ∃ t', putChar t buffer c kb = .ok t' := by
  have hw := Nat.zero_lt_of_lt hin.1
  have hh := Nat.zero_lt_of_lt hin.2
  have hidx := (indexBuffer_eq_ok (t := t)).mpr ⟨hin, rfl⟩
  unfold putChar
  rw [hidx, ok_bind]
  extract_lets buffer₀ buffer₁ t₁
  obtain ⟨t₂, hadv, hwidth⟩ : ∃ t₂, advance t₁ buffer₁ c = .ok t₂ ∧
      t₂.charsWidth = t.charsWidth := by
    unfold advance
    split
    · exact doNewline_total { t₁ with currentRunOfKeyboardInputs := 0 } _ hw hh
    · exact ⟨_, rfl, rfl⟩
  obtain ⟨-, -, hb, -, hx, hy⟩ := advance_ok hadv hin rfl
  obtain ⟨t₃, hwrap⟩ : ∃ t₃, wrapLine t₂ (t₂.buffer.getD buffer₁) = .ok t₃ := by
    unfold wrapLine
    split
    · obtain ⟨t₃, h, -⟩ := doNewline_total t₂ (t₂.buffer.getD buffer₁)
        (by rw [hwidth]; exact hw) (Nat.zero_lt_of_lt hy)
      exact ⟨t₃, h⟩
    · exact ⟨_, rfl⟩
  have hput := wrapLine_ok hwrap hx hy hb
  have hin₃ : Inside { t₃ with cursorY := t₃.cursorY % t₃.charsHeight } :=
    ⟨hput.inside.1, Nat.mod_lt _ (Nat.zero_lt_of_lt hput.inside.2)⟩
  obtain ⟨display, hblit⟩ := blit_total (t₃.buffer.getD buffer₁) hin₃
  rw [hadv, ok_bind, hwrap, ok_bind]
  simp only [hblit, ok_bind]
  exact ⟨_, rfl⟩

/-- **A character is written to the screen**, which stays in order; the input is left alone. -/
theorem write_total (c : UInt8) (kb : Bool) (h : OnScreen t) :
    ∃ t', writeFromMultipleSources t c kb = .ok t' ∧ OnScreen t' ∧
      t'.inputBuffer = t.inputBuffer ∧ t'.icanon = t.icanon := by
  unfold writeFromMultipleSources
  cases hb : t.buffer with
  | none => exact ⟨t, rfl, h, rfl, rfl⟩
  | some buffer =>
    have hin : Inside t := h (by rw [hb]; rfl)
    simp only
    generalize (if 128 ≤ c then questionMark else c) = c
    split
    · split
      · exact ⟨t, rfl, h, rfl, rfl⟩
      · rename_i hrun
        obtain ⟨t', herase, -, hput⟩ := eraseChar_ok hb hin hrun
        exact ⟨t', herase, fun _ => hput.inside, hput.input, hput.icanon⟩
    · obtain ⟨t', hchar⟩ := putChar_total buffer c kb hin
      have hput := putChar_ok hchar
      exact ⟨t', hchar, fun _ => hput.inside, hput.input, hput.icanon⟩

/-- The input has room for the character: it is no character, or a backspace, or the buffer is
not full. -/
def Takes (t : Tty) (x : UInt8) : Prop :=
  x = 0 ∨ x = backspace ∧ t.icanon = true ∨ t.inputBuffer.length ≠ inputBufLength

/-- **Typing stops the kernel only when the input is full.** -/
theorem ttyProvideStdin_total {x : UInt8} (h : OnScreen t) :
    (Takes t x → ∃ t', ttyProvideStdin t x = .ok t' ∧ OnScreen t') ∧
      (¬ Takes t x → ttyProvideStdin t x = .error .hcf) := by
  unfold ttyProvideStdin Takes
  by_cases hx : x = 0
  · rw [if_pos hx]
    exact ⟨fun _ => ⟨t, rfl, h⟩, fun hnot => absurd (.inl hx) hnot⟩
  · obtain ⟨t₁, hwrite, hon, hinput, hic⟩ := write_total x true h
    rw [if_neg hx, hwrite, ok_bind, hic, hinput]
    by_cases hbs : x = backspace ∧ t.icanon = true
    · rw [if_pos hbs]
      exact ⟨fun _ => ⟨_, rfl, hon⟩, fun hnot => absurd (.inr (.inl hbs)) hnot⟩
    · rw [if_neg hbs]
      by_cases hfull : t.inputBuffer.length ≠ inputBufLength
      · rw [ensure_of hfull]
        exact ⟨fun _ => ⟨_, rfl, hon⟩, fun hnot => absurd (.inr (.inr hfull)) hnot⟩
      · rw [ensure_of_not hfull]
        exact ⟨fun htakes => absurd htakes (by tauto), fun _ => rfl⟩

/-! ### The steps keep the line -/

theorem findNewline_le {settled editable : List UInt8} (h : newline ∉ editable) :
    findNewline (settled ++ editable) ≤ settled.length := by
  induction settled with
  | nil =>
    induction editable with
    | nil => exact le_refl _
    | cons c cs ih =>
      rw [List.mem_cons, not_or] at h
      have hcs : findNewline cs = 0 := Nat.le_zero.mp (ih h.2)
      rw [List.nil_append, findNewline, if_neg (Ne.symm h.1), hcs]
      exact le_refl _
  | cons c cs ih =>
    rw [List.cons_append, findNewline, List.length_cons]
    split
    · omega
    · split <;> omega

theorem Inv.buffer_none (h : Inv l t) (hb : t.buffer = none) :
    t.currentRunOfKeyboardInputs = 0 := by
  rw [h.run, hb]
  rfl

theorem write_ok {c : UInt8} {kb : Bool} (h : writeFromMultipleSources t c kb = .ok t')
    (hc : ¬ (c = backspace ∧ kb = true)) (hnone : t.buffer = none → t.currentRunOfKeyboardInputs = 0) :
    t'.icanon = t.icanon ∧ t'.inputBuffer = t.inputBuffer ∧ t'.buffer.isSome = t.buffer.isSome ∧
      t'.currentRunOfKeyboardInputs =
        (if t.buffer.isSome then
          if c = newline then 0 else if kb then t.currentRunOfKeyboardInputs + 1 else 0
        else 0) ∧
      (t'.currentRunOfKeyboardInputs ≠ 0 → Inside t') := by
  unfold writeFromMultipleSources at h
  cases hb : t.buffer with
  | none =>
    rw [hb] at h
    cases h
    rw [hb]
    exact ⟨rfl, rfl, rfl, hnone hb, fun h => absurd (hnone hb) h⟩
  | some buffer =>
    rw [hb] at h
    have hsigned : (if 128 ≤ c then questionMark else c) = newline ↔ c = newline := by
      split
      · rename_i hge
        constructor
        · intro he
          exact absurd he (by decide)
        · rintro rfl
          exact absurd hge (by decide)
      · rfl
    have hnot : ¬ ((if 128 ≤ c then questionMark else c) = backspace ∧ kb = true ∧
        t.icanon = true) := by
      rintro ⟨he, hkb, -⟩
      split at he
      · exact absurd he (by decide)
      · exact hc ⟨he, hkb⟩
    simp only [if_neg hnot] at h
    have hput := putChar_ok h
    refine ⟨hput.icanon, hput.input, hput.buffer, ?_, fun _ => hput.inside⟩
    rw [hput.run]
    simp only [hsigned, Option.isSome_some, if_true]

theorem ttyProvideStdin_ok {x : UInt8} (h : ttyProvideStdin t x = .ok t') (hx0 : x ≠ 0)
    (hx : x ≠ backspace) :
    ∃ t1, writeFromMultipleSources t x true = .ok t1 ∧
      t' = { t1 with inputBuffer := t1.inputBuffer ++ [x] } := by
  unfold ttyProvideStdin at h
  rw [if_neg hx0] at h
  simp only [pure_eq_ok, bind_eq_ok] at h
  obtain ⟨t1, h1, h2⟩ := h
  rw [if_neg (fun hc => hx hc.1), bind_eq_ok] at h2
  obtain ⟨_, -, h3⟩ := h2
  cases h3
  exact ⟨t1, h1, rfl⟩

theorem Inv.key_backspace (h : Inv l t) (hstep : Backspaced t t') :
    Inv (l ++ [.key backspace]) t' := by
  have hline : lineAfter (l ++ [.key backspace]) =
      if (lineAfter l).editable = [] then
        { lineAfter l with settled := (lineAfter l).settled.dropLast }
      else { lineAfter l with editable := (lineAfter l).editable.dropLast } := by
    rw [lineAfter_snoc]
    rfl
  constructor
  case icanon => exact hstep.icanon
  case inside =>
    intro hrun
    rw [hstep.run] at hrun
    exact (hstep.erases (by omega)).2
  all_goals rw [hline]
  case input =>
    rw [hstep.input, h.input]
    split
    · rename_i he
      simp [Line.pending, he]
    · rename_i he
      exact List.dropLast_append_of_ne_nil he
  case noNewline =>
    split
    · exact h.noNewline
    · exact fun hmem => h.noNewline (List.dropLast_subset _ hmem)
  case run =>
    rw [hstep.run, hstep.buffer, h.run]
    split
    · split
      · rename_i he
        simp [he]
      · exact (List.length_dropLast).symm
    · rfl

theorem Inv.key_char (h : Inv l t) {x : UInt8} (hx0 : x ≠ 0) (hx : x ≠ backspace)
    (hstep : ttyProvideStdin t x = .ok t') : Inv (l ++ [.key x]) t' := by
  obtain ⟨t1, hwrite, rfl⟩ := ttyProvideStdin_ok hstep hx0 hx
  obtain ⟨hic, hinput, hbuf, hrun, hin⟩ := write_ok hwrite (fun hc => hx hc.1) h.buffer_none
  have hline : lineAfter (l ++ [.key x]) =
      if x = newline then { settled := (lineAfter l).pending ++ [x], editable := [] }
      else { lineAfter l with editable := (lineAfter l).editable ++ [x] } := by
    rw [lineAfter_snoc, Line.step, if_neg hx0, if_neg hx]
  constructor
  case icanon => exact hic.trans h.icanon
  case inside => exact hin
  all_goals rw [hline]
  case input =>
    show t1.inputBuffer ++ [x] = _
    rw [hinput, h.input]
    split <;> simp [Line.pending]
  case noNewline =>
    split
    · exact List.not_mem_nil
    · rename_i hn
      rw [List.mem_append, List.mem_singleton, not_or]
      exact ⟨h.noNewline, Ne.symm hn⟩
  case run =>
    show t1.currentRunOfKeyboardInputs = if t1.buffer.isSome then _ else 0
    rw [hrun, hbuf, h.run]
    by_cases hb : t.buffer.isSome
    · simp only [if_pos hb]
      split
      · rfl
      · simp
    · simp only [if_neg hb]

theorem Inv.output (h : Inv l t) {c : UInt8} (hstep : ttyWriteChar t c = .ok t') :
    Inv (l ++ [.output c]) t' := by
  obtain ⟨hic, hinput, hbuf, hrun, hin⟩ :=
    write_ok hstep (fun hc => absurd hc.2 Bool.false_ne_true) h.buffer_none
  constructor
  case icanon => exact hic.trans h.icanon
  case inside => exact hin
  all_goals rw [lineAfter_snoc]
  case input =>
    rw [hinput, h.input]
    simp [Line.step, Line.pending]
  case noNewline => exact List.not_mem_nil
  case run =>
    rw [hrun, hbuf]
    simp [Line.step]

theorem Inv.read (h : Inv l t) {num : Nat} {bytes : List UInt8}
    (hstep : ttyRead t num = .ok (t', bytes)) : Inv (l ++ [.read num bytes]) t' := by
  unfold ttyRead at hstep
  rw [ensure_of h.icanon, ok_bind, pure_eq_ok, Except.ok.injEq, Prod.mk.injEq] at hstep
  obtain ⟨rfl, rfl⟩ := hstep
  -- a read stops at the first newline, which is before the editable part
  have hnl : findNewline t.inputBuffer ≤ (lineAfter l).settled.length := by
    rw [h.input]
    exact findNewline_le h.noNewline
  have hle : min num (findNewline t.inputBuffer) ≤ (lineAfter l).settled.length :=
    Nat.le_trans (Nat.min_le_right _ _) hnl
  have hlen : (t.inputBuffer.take (min num (findNewline t.inputBuffer))).length =
      min num (findNewline t.inputBuffer) := by
    have htotal : t.inputBuffer.length =
        (lineAfter l).settled.length + (lineAfter l).editable.length := by
      rw [h.input, Line.pending, List.length_append]
    rw [List.length_take, Nat.min_eq_left (by omega)]
  constructor
  case icanon => exact h.icanon
  case inside => exact h.inside
  all_goals rw [lineAfter_snoc, Line.step]
  case input =>
    show t.inputBuffer.drop (min num (findNewline t.inputBuffer)) = Line.pending _
    rw [hlen, Line.pending, ← List.drop_append_of_le_length hle]
    exact congrArg _ h.input
  case noNewline => exact h.noNewline
  case run => exact h.run

theorem Inv.step (h : Inv l t) {ev : TtyEvent} (hstep : terminal.step t ev t') :
    Inv (l ++ [ev]) t' := by
  cases ev with
  | key x =>
    by_cases hx0 : x = 0
    · subst hx0
      have ht : t' = t := by
        have : ttyProvideStdin t 0 = .ok t' := hstep
        rw [ttyProvideStdin, if_pos rfl, pure_eq_ok, Except.ok.injEq] at this
        exact this.symm
      subst ht
      have hline : lineAfter (l ++ [.key 0]) = lineAfter l := by
        rw [lineAfter_snoc]
        rfl
      exact ⟨h.icanon, hline ▸ h.input, hline ▸ h.noNewline, hline ▸ h.run, h.inside⟩
    · by_cases hx : x = backspace
      · subst hx
        obtain ⟨t'', hok, hback⟩ := backspace_ok h.icanon h.inside h.buffer_none
        have heq : Except.ok t'' = Except.ok t' := hok.symm.trans hstep
        cases heq
        exact h.key_backspace hback
      · exact h.key_char hx0 hx hstep
  | output c => exact h.output hstep
  | read num bytes => exact h.read hstep

theorem Inv.init (h : terminal.init t) : Inv [] t := by
  obtain ⟨width, height, h⟩ := h
  unfold initialiseTty at h
  simp only [bind_eq_ok, pure_eq_ok, Except.ok.injEq] at h
  obtain ⟨display, -, rfl⟩ := h
  refine ⟨rfl, rfl, List.not_mem_nil, ?_, fun hrun => absurd rfl hrun⟩
  show 0 = if _ then 0 else 0
  split <;> rfl

/-- **The screen and the input agree on a backspace** exactly when nothing is pending, or
the terminal has a screen and the last pending character was typed after the last newline
and after the last output of a process. -/
theorem backspace_agrees_iff {t₀ : Tty} (h0 : terminal.init t₀)
    (hrun : terminal.Run (fun _ _ => True) t₀ l t) :
    ∃ t', ttyProvideStdin t backspace = .ok t' ∧
      ((Removes t t' ↔ Erases t t') ↔
        (lineAfter l).pending = [] ∨ t.buffer ≠ none ∧ (lineAfter l).editable ≠ []) := by
  have hinv : Inv l t := hrun.invariant (P := Inv) (fun _ _ _ _ h _ hst => h.step hst) (.init h0)
  obtain ⟨t', hok, hback⟩ := backspace_ok hinv.icanon hinv.inside hinv.buffer_none
  refine ⟨t', hok, ?_⟩
  have hrem : Removes t t' ↔ (lineAfter l).pending ≠ [] := by
    rw [Removes, hinv.input]
    exact and_iff_left (by rw [hback.input, hinv.input])
  have herase : Erases t t' ↔ t.buffer ≠ none ∧ (lineAfter l).editable ≠ [] := by
    have hcount : t.currentRunOfKeyboardInputs ≠ 0 ↔
        t.buffer ≠ none ∧ (lineAfter l).editable ≠ [] := by
      rw [hinv.run]
      cases t.buffer <;> simp
    rw [← hcount]
    constructor
    · intro he hzero
      exact not_erases_self (by rw [hback.run, hzero]) he
    · exact fun hne => (hback.erases hne).1
  rw [hrem, herase]
  constructor
  · intro hiff
    by_cases hp : (lineAfter l).pending = []
    · exact .inl hp
    · exact .inr (hiff.mp hp)
  · rintro (hp | he)
    · refine ⟨fun h => absurd hp h, fun he => ?_⟩
      rw [Line.pending, List.append_eq_nil_iff] at hp
      exact absurd hp.2 he.2
    · refine ⟨fun _ => he, fun he hp => ?_⟩
      rw [Line.pending, List.append_eq_nil_iff] at hp
      exact he.2 hp.2

theorem typed_run (x y : UInt8)
    (h : (initialiseTty 32 32 >>= fun t => ttyProvideStdin t x >>= fun t =>
      ttyProvideStdin t y).isOk = true) :
    ∃ t₀ t, terminal.init t₀ ∧ terminal.Run (fun _ _ => True) t₀ [.key x, .key y] t := by
  obtain ⟨t, ht⟩ := exists_of_isOk h
  simp only [bind_eq_ok] at ht
  obtain ⟨t₀, h0, t1, h1, h2⟩ := ht
  have hstep1 : terminal.step t₀ (.key x) t1 := h1
  have hstep2 : terminal.step t1 (.key y) t := h2
  exact ⟨t₀, t, ⟨32, 32, h0⟩, .snoc (.snoc (.nil t₀) trivial hstep1) trivial hstep2⟩

theorem backspace_agrees_two_letters :
    ∃ t₀ t t', terminal.init t₀ ∧ terminal.Run (fun _ _ => True) t₀ [.key 97, .key 98] t ∧
      ttyProvideStdin t backspace = .ok t' ∧
      ((Removes t t' ↔ Erases t t') ↔ t.buffer ≠ none) := by
  obtain ⟨t₀, t, h0, hrun⟩ := typed_run 97 98 (by decide)
  obtain ⟨t', hok, hiff⟩ := backspace_agrees_iff h0 hrun
  refine ⟨t₀, t, t', h0, hrun, hok, hiff.trans ?_⟩
  simp [lineAfter, Line.step, Line.pending, backspace, newline]

/-- **A backspace after a newline** takes the newline off the input and erases nothing. -/
theorem backspace_takes_newline :
    ∃ t₀ t t', terminal.init t₀ ∧ terminal.Run (fun _ _ => True) t₀ [.key 97, .key newline] t ∧
      ttyProvideStdin t backspace = .ok t' ∧ t'.inputBuffer = [97] ∧
      Removes t t' ∧ ¬ Erases t t' := by
  obtain ⟨t₀, t, h0, hrun⟩ := typed_run 97 newline (by decide)
  have hinv : Inv [.key 97, .key newline] t :=
    hrun.invariant (P := Inv) (fun _ _ _ _ h _ hst => h.step hst) (.init h0)
  obtain ⟨t', hok, hback⟩ := backspace_ok hinv.icanon hinv.inside hinv.buffer_none
  have hinput : t.inputBuffer = [97, newline] := hinv.input
  have hzero : t.currentRunOfKeyboardInputs = 0 := by
    rw [hinv.run]
    cases t.buffer <;> rfl
  refine ⟨t₀, t, t', h0, hrun, hok, ?_, ⟨?_, hback.input⟩, not_erases_self ?_⟩
  · rw [hback.input, hinput]
    rfl
  · rw [hinput]
    exact List.cons_ne_nil _ _
  · rw [hback.run, hzero]

end Stuos.Terminal
