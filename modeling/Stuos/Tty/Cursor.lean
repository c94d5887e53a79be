import Mathlib.Logic.Function.Iterate
import Stuos.Tty.LineDiscipline

/-!
# The cursor

The cells of the screen form a ring: after the last cell of a row comes the first one of the
next row, and after the last row the first.

* `write_drawn`: the cursor stays on the screen, and a character is drawn alone only if the
  cursor is right of it.
* `run_drawn`: so it is in every state of a run, on a screen with a cell.
* `type_then_erase`: characters that are typed and then erased leave the cursor where it was
  and their cells blank.
* `cursor_and_backspace`: **both, for the screen and for the keyboard**.  Keys also go to the
  input, and `too_many_keys_halt` says what happens when they do not fit.
-/

namespace Stuos.Terminal

open Stuos.Lib

/-! ### Cells -/

def nextCell (w h : Nat) (p : Nat × Nat) : Nat × Nat :=
  if p.1 + 1 = w then (0, (p.2 + 1) % h) else (p.1 + 1, p.2)

def prevCell (w h : Nat) (p : Nat × Nat) : Nat × Nat :=
  if p.1 = 0 then (w - 1, if p.2 = 0 then h - 1 else p.2 - 1) else (p.1 - 1, p.2)

theorem prevCell_nextCell {w h : Nat} {p : Nat × Nat} (hx : p.1 < w) (hy : p.2 < h) :
    prevCell w h (nextCell w h p) = p := by
  obtain ⟨x, y⟩ := p
  dsimp only at hx hy
  unfold nextCell prevCell
  by_cases hw : x + 1 = w
  · have hrow : (if (y + 1) % h = 0 then h - 1 else (y + 1) % h - 1) = y := by
      by_cases hh : y + 1 = h
      · rw [hh, Nat.mod_self, if_pos rfl]
        omega
      · rw [Nat.mod_eq_of_lt (by omega), if_neg (Nat.succ_ne_zero y)]
        rfl
    simp only [if_pos hw, if_true, hrow, Prod.mk.injEq, and_true]
    omega
  · simp only [if_neg hw, Nat.succ_ne_zero, if_false, Nat.add_sub_cancel]

namespace Tty

def cursor (t : Tty) : Nat × Nat := (t.cursorX, t.cursorY)

/-- The cell is blank in the buffer. -/
def BlankAt (t : Tty) (p : Nat × Nat) : Prop :=
  ∃ buffer, t.buffer = some buffer ∧ buffer (p.1 + t.charsWidth * p.2) = space

/-- What is blank in the buffer is blank on the display, whose last row is the one of the
cursor. -/
def ShowsBlanks (t : Tty) : Prop :=
  ∀ x line, x < t.charsWidth → line < t.charsHeight →
    t.BlankAt (x, (line + t.cursorY + 1) % t.charsHeight) → t.display x line = space

end Tty

/-- The cursor is on the screen, and `blit` does not look left of its first column. -/
structure Drawn (t : Tty) : Prop where
  inside : Inside t
  right : t.dirty = .onlyPrevCharAffected → 0 < t.cursorX

/-- The size of the screen and the mode are the same. -/
structure SameScreen (t t' : Tty) : Prop where
  width : t'.charsWidth = t.charsWidth
  height : t'.charsHeight = t.charsHeight
  icanon : t'.icanon = t.icanon

variable {t t' t'' : Tty} {buffer : Nat → UInt8} {c : UInt8} {kb : Bool} {l : List TtyEvent}

theorem SameScreen.refl (t : Tty) : SameScreen t t := ⟨rfl, rfl, rfl⟩

theorem SameScreen.trans (h : SameScreen t t') (h' : SameScreen t' t'') : SameScreen t t'' :=
  ⟨h'.width.trans h.width, h'.height.trans h.height, h'.icanon.trans h.icanon⟩

/-! ### A character -/

theorem doNewline_fields (h : doNewline t buffer = .ok t') :
    SameScreen t t' ∧ t'.cursor = (0, (t.cursorY + 1) % t.charsHeight) ∧ t'.dirty = .allDirty := by
  unfold doNewline at h
  simp only [bind_eq_ok, indexBuffer_eq_ok, pure_eq_ok, Except.ok.injEq] at h
  obtain ⟨start, -, rfl⟩ := h
  exact ⟨⟨rfl, rfl, rfl⟩, rfl, rfl⟩

/-- **Where the cursor goes**: to the next cell, or to the next row after a newline. -/
theorem putChar_fields (h : putChar t buffer c kb = .ok t') :
    SameScreen t t' ∧ Drawn t' ∧
      t'.cursor = if c = newline then (0, (t.cursorY + 1) % t.charsHeight)
        else nextCell t.charsWidth t.charsHeight t.cursor := by
  have hinside := (putChar_ok h).inside
  unfold putChar at h
  simp only [bind_eq_ok, indexBuffer_eq_ok, pure_eq_ok, Except.ok.injEq] at h
  obtain ⟨idx, ⟨⟨hx, hy⟩, -⟩, t₁, h₁, t₂, h₂, display, -, rfl⟩ := h
  rw [advance] at h₁
  rw [wrapLine] at h₂
  by_cases hc : c = newline
  · rw [if_pos hc] at h₁
    obtain ⟨hsame, hcur, hdirty⟩ := doNewline_fields h₁
    obtain ⟨hcx, hcy⟩ := Prod.mk.inj hcur
    dsimp only at hcy
    -- a screen has a column, so the new line is not wrapped again
    rw [if_neg (by rw [hcx, hsame.width]; dsimp only; omega)] at h₂
    cases h₂
    have hmod : t₁.cursorY % t₁.charsHeight = (t.cursorY + 1) % t.charsHeight := by
      rw [hcy, hsame.height]
      exact Nat.mod_mod _ _
    refine ⟨⟨hsame.width, hsame.height, hsame.icanon⟩, ⟨hinside, fun hd => ?_⟩, ?_⟩
    · have hd' : t₁.dirty = .onlyPrevCharAffected := hd
      rw [hdirty] at hd'
      cases hd'
    · rw [if_pos hc]
      exact Prod.ext hcx hmod
  · rw [if_neg hc] at h₁
    cases h₁
    by_cases hw : t.cursorX + 1 = t.charsWidth
    · rw [if_pos (show t.cursorX + 1 = t.charsWidth from hw)] at h₂
      obtain ⟨hsame, hcur, hdirty⟩ := doNewline_fields h₂
      obtain ⟨hcx, hcy⟩ := Prod.mk.inj hcur
      dsimp only at hcy
      have hmod : t₂.cursorY % t₂.charsHeight = (t.cursorY + 1) % t.charsHeight := by
        rw [hcy, hsame.height]
        exact Nat.mod_mod _ _
      refine ⟨⟨hsame.width, hsame.height, hsame.icanon⟩, ⟨hinside, fun hd => ?_⟩, ?_⟩
      · have hd' : t₂.dirty = .onlyPrevCharAffected := hd
        rw [hdirty] at hd'
        cases hd'
      · rw [if_neg hc, nextCell, if_pos (show t.cursor.1 + 1 = t.charsWidth from hw)]
        exact Prod.ext hcx hmod
    · rw [if_neg (show ¬ t.cursorX + 1 = t.charsWidth from hw)] at h₂
      cases h₂
      refine ⟨⟨rfl, rfl, rfl⟩, ⟨hinside, fun _ => Nat.succ_pos _⟩, ?_⟩
      rw [if_neg hc, nextCell, if_neg (show ¬ t.cursor.1 + 1 = t.charsWidth from hw)]
      exact Prod.ext rfl (Nat.mod_eq_of_lt hy)

/-! ### A redraw -/

theorem blitRowFrom_other_row (display : Nat → Nat → UInt8) (chars : Nat → UInt8) {y y' : Nat}
    (seen : Bool) (x n x' : Nat) (h : y' ≠ y) :
    blitRowFrom display chars y seen x n x' y' = display x' y' := by
  induction n generalizing display seen x with
  | zero => rfl
  | succ n ih =>
    rw [blitRowFrom, ih, blitChar]
    by_cases hx : x' = x
    · subst hx
      rw [Function.update_self, Function.update_of_ne h]
    · rw [Function.update_of_ne hx]

theorem blitRowFrom_left (display : Nat → Nat → UInt8) (chars : Nat → UInt8) (y : Nat)
    (seen : Bool) {x x' : Nat} (n y' : Nat) (h : x' < x) :
    blitRowFrom display chars y seen x n x' y' = display x' y' := by
  induction n generalizing display seen x with
  | zero => rfl
  | succ n ih =>
    rw [blitRowFrom, ih _ _ (Nat.lt_succ_of_lt h), blitChar,
      Function.update_of_ne (Nat.ne_of_lt h)]

theorem blitRowFrom_blank (display : Nat → Nat → UInt8) (chars : Nat → UInt8) (y : Nat)
    (seen : Bool) {x x' n : Nat} (hx : x ≤ x') (hn : x' < x + n) (hblank : chars x' = space) :
    blitRowFrom display chars y seen x n x' y = space := by
  induction n generalizing display seen x with
  | zero => omega
  | succ n ih =>
    rw [blitRowFrom]
    by_cases he : x' = x
    · subst he
      rw [blitRowFrom_left _ _ _ _ _ _ (Nat.lt_succ_self x'), blitChar, Function.update_self,
        Function.update_self, hblank]
      split <;> rfl
    · exact ih _ _ (by omega) (by omega)

/-- **A redraw of everything** shows what is blank. -/
theorem blit_shows_blanks {display : Nat → Nat → UInt8} (hdirty : t.dirty = .allDirty)
    (h : blit t buffer = .ok display) {x line : Nat} (hx : x < t.charsWidth)
    (hline : line < t.charsHeight)
    (hblank : buffer (x + t.charsWidth * ((line + t.cursorY + 1) % t.charsHeight)) = space) :
    display x line = space := by
  unfold blit at h
  rw [hdirty] at h
  dsimp only at h
  generalize hstep : (fun (display : Nat → Nat → UInt8) (line : Nat) => do
    let start ← indexBuffer t 0 ((line + t.cursorY + 1) % t.charsHeight)
    return blitRow t display (fun x => buffer (start + x)) line) = step at h
  -- rows below `n` have been drawn
  have hrows : ∀ n (d : Nat → Nat → UInt8), (List.range n).foldlM step t.display = .ok d →
      line < n → d x line = space := by
    intro n
    induction n with
    | zero => exact fun d _ hn => absurd hn (Nat.not_lt_zero _)
    | succ n ih =>
      intro d hd hn
      rw [List.range_succ, List.foldlM_append, bind_eq_ok] at hd
      obtain ⟨d₁, h₁, h₂⟩ := hd
      rw [List.foldlM_cons, bind_eq_ok] at h₂
      obtain ⟨d₂, h₂, h₃⟩ := h₂
      cases h₃
      rw [← hstep] at h₂
      simp only [bind_eq_ok, indexBuffer_eq_ok, pure_eq_ok, Except.ok.injEq] at h₂
      obtain ⟨start, ⟨-, hstart⟩, rfl⟩ := h₂
      by_cases hl : line = n
      · subst hl
        refine blitRowFrom_blank _ _ _ _ (Nat.zero_le x) (by omega) ?_
        show buffer (start + x) = space
        rw [← hstart, Nat.zero_add, Nat.add_comm]
        exact hblank
      · rw [blitRow, blitRowFrom_other_row _ _ _ _ _ _ hl]
        exact ih d₁ h₁ (by omega)
  exact hrows t.charsHeight display h hline

/-! ### A backspace -/

theorem retreat_cursor (t : Tty) :
    (retreat t).cursor = prevCell t.charsWidth t.charsHeight t.cursor := by
  unfold retreat prevCell
  by_cases hx : t.cursorX = 0
  · rw [if_pos hx, if_pos (show t.cursor.1 = 0 from hx)]
    rfl
  · rw [if_neg hx, if_neg (show ¬ t.cursor.1 = 0 from hx)]
    rfl

theorem retreat_fields (t : Tty) :
    SameScreen t (retreat t) ∧
      (retreat t).currentRunOfKeyboardInputs = t.currentRunOfKeyboardInputs := by
  unfold retreat
  split <;> exact ⟨⟨rfl, rfl, rfl⟩, rfl⟩

/-- What a backspace does to the screen when there is a character to erase. -/
structure Erased (t t' : Tty) : Prop where
  same : SameScreen t t'
  drawn : Drawn t'
  buffer : t'.buffer.isSome = true
  cursor : t'.cursor = prevCell t.charsWidth t.charsHeight t.cursor
  run : t'.currentRunOfKeyboardInputs = t.currentRunOfKeyboardInputs - 1
  blank : t'.BlankAt t'.cursor
  blanks : ∀ p, t.BlankAt p → t'.BlankAt p
  shows : t'.ShowsBlanks

theorem eraseChar_fields (hb : t.buffer = some buffer) (h : eraseChar t buffer = .ok t') :
    Erased t t' := by
  unfold eraseChar at h
  simp only [bind_eq_ok, indexBuffer_eq_ok, pure_eq_ok, Except.ok.injEq] at h
  generalize hr : retreat { t with
    currentRunOfKeyboardInputs := t.currentRunOfKeyboardInputs - 1 } = r at h
  obtain ⟨hsame, hrun⟩ := retreat_fields { t with
    currentRunOfKeyboardInputs := t.currentRunOfKeyboardInputs - 1 }
  have hcur := retreat_cursor { t with
    currentRunOfKeyboardInputs := t.currentRunOfKeyboardInputs - 1 }
  rw [hr] at hsame hrun hcur
  have hwidth : r.charsWidth = t.charsWidth := hsame.width
  obtain ⟨idx, ⟨hin, rfl⟩, display, hblit, rfl⟩ := h
  refine ⟨⟨hsame.width, hsame.height, hsame.icanon⟩, ⟨hin, fun hd => by cases hd⟩, rfl, hcur, hrun,
    ⟨_, rfl, Function.update_self ..⟩, ?_, ?_⟩
  · rintro p ⟨buffer', hb', hp⟩
    obtain rfl : buffer = buffer' := Option.some.inj (hb.symm.trans hb')
    refine ⟨_, rfl, ?_⟩
    show Function.update buffer (r.cursorX + r.charsWidth * r.cursorY) space
      (p.1 + r.charsWidth * p.2) = space
    by_cases hp' : p.1 + r.charsWidth * p.2 = r.cursorX + r.charsWidth * r.cursorY
    · rw [hp', Function.update_self]
    · rw [Function.update_of_ne hp', hwidth]
      exact hp
  · rintro x line hx hline ⟨buffer', hb', hp⟩
    cases hb'
    exact blit_shows_blanks rfl hblit hx hline hp

/-! ### Every write -/

/-- **One character**, of a process or of the keyboard: `index_buffer` does not halt, and the
cursor is on the screen again. -/
theorem write_drawn (c : UInt8) (kb : Bool) (hb : t.buffer.isSome = true) (h : Drawn t) :
    ∃ t', writeFromMultipleSources t c kb = .ok t' ∧ SameScreen t t' ∧ Drawn t' ∧
      t'.buffer.isSome = true := by
  obtain ⟨buffer, hbuf⟩ := Option.isSome_iff_exists.mp hb
  unfold writeFromMultipleSources
  rw [hbuf]
  dsimp only
  generalize (if 128 ≤ c then questionMark else c) = c
  split
  · split
    · exact ⟨t, rfl, .refl t, h, hb⟩
    · rename_i hrun
      obtain ⟨t', herase, -, -⟩ := eraseChar_ok hbuf h.inside hrun
      have he := eraseChar_fields hbuf herase
      exact ⟨t', herase, he.same, he.drawn, he.buffer⟩
  · obtain ⟨t', hchar⟩ := putChar_total buffer c kb h.inside
    obtain ⟨hsame, hdrawn, -⟩ := putChar_fields hchar
    exact ⟨t', hchar, hsame, hdrawn, (putChar_ok hchar).buffer⟩

/-- A character is handed to the screen, and `blit` is the last thing that is called. -/
theorem write_draws_last (h : writeFromMultipleSources t c kb = .ok t') :
    t' = t ∨ ∃ t₁ buffer display, blit t₁ buffer = .ok display ∧
      t' = { t₁ with display := display } := by
  unfold writeFromMultipleSources at h
  split at h
  · cases h
    exact .inl rfl
  · dsimp only at h
    generalize (if 128 ≤ c then questionMark else c) = c at h
    split at h
    · split at h
      · cases h
        exact .inl rfl
      · simp only [eraseChar, bind_eq_ok, pure_eq_ok, Except.ok.injEq] at h
        obtain ⟨_, -, display, hblit, rfl⟩ := h
        exact .inr ⟨_, _, display, hblit, rfl⟩
    · simp only [putChar, bind_eq_ok, pure_eq_ok, Except.ok.injEq] at h
      obtain ⟨_, -, t₁, -, t₂, -, display, hblit, rfl⟩ := h
      exact .inr ⟨_, _, display, hblit, rfl⟩

theorem Drawn.withInput (h : Drawn t) (input : List UInt8) :
    Drawn { t with inputBuffer := input } := ⟨h.inside, h.right⟩

theorem ttyProvideStdin_screen {x : UInt8} (h : ttyProvideStdin t x = .ok t') :
    t' = t ∨ ∃ t₁ input, writeFromMultipleSources t x true = .ok t₁ ∧
      t' = { t₁ with inputBuffer := input } := by
  unfold ttyProvideStdin at h
  split at h
  · cases h
    exact .inl rfl
  · simp only [bind_eq_ok] at h
    obtain ⟨t₁, hwrite, h⟩ := h
    split at h
    · cases h
      exact .inr ⟨t₁, _, hwrite, rfl⟩
    · rw [bind_eq_ok] at h
      obtain ⟨_, -, h⟩ := h
      cases h
      exact .inr ⟨t₁, _, hwrite, rfl⟩

/-! ### Runs -/

/-- The terminal has a screen that is in order. -/
structure Ready (t : Tty) : Prop where
  icanon : t.icanon = true
  buffer : t.buffer.isSome = true
  drawn : Drawn t

theorem Ready.write (h : Ready t) (hwrite : writeFromMultipleSources t c kb = .ok t') :
    Ready t' ∧ SameScreen t t' := by
  obtain ⟨t'', hok, hsame, hdrawn, hb⟩ := write_drawn c kb h.buffer h.drawn
  obtain rfl : t'' = t' := Except.ok.inj (hok.symm.trans hwrite)
  exact ⟨⟨hsame.icanon.trans h.icanon, hb, hdrawn⟩, hsame⟩

theorem Ready.step {ev : TtyEvent} (h : Ready t) (hstep : terminal.step t ev t') :
    Ready t' ∧ SameScreen t t' := by
  cases ev with
  | key x =>
    rcases ttyProvideStdin_screen hstep with rfl | ⟨t₁, input, hwrite, rfl⟩
    · exact ⟨h, .refl _⟩
    · obtain ⟨hr, hsame⟩ := h.write hwrite
      exact ⟨⟨hr.icanon, hr.buffer, hr.drawn.withInput input⟩,
        ⟨hsame.width, hsame.height, hsame.icanon⟩⟩
  | output c => exact h.write hstep
  | read num bytes =>
    have hread : ttyRead t num = .ok (t', bytes) := hstep
    rw [ttyRead, ensure_of h.icanon, ok_bind, pure_eq_ok, Except.ok.injEq, Prod.mk.injEq] at hread
    obtain ⟨rfl, -⟩ := hread
    exact ⟨⟨h.icanon, h.buffer, h.drawn.withInput _⟩, ⟨rfl, rfl, rfl⟩⟩

theorem initialiseTty_ready {width height : Nat} (hw : charScreenSize ≤ width)
    (hh : charScreenSize ≤ height) (h : initialiseTty width height = .ok t) :
    Ready t ∧ t.charsWidth = width / charScreenSize ∧ t.charsHeight = height / charScreenSize := by
  have hsize : 0 < charScreenSize := by decide
  have hw' : 0 < width / charScreenSize := Nat.div_pos hw hsize
  have hh' : 0 < height / charScreenSize := Nat.div_pos hh hsize
  have hne : width / charScreenSize * (height / charScreenSize) ≠ 0 :=
    Nat.mul_ne_zero (Nat.ne_of_gt hw') (Nat.ne_of_gt hh')
  unfold initialiseTty at h
  simp only [bind_eq_ok, pure_eq_ok, Except.ok.injEq] at h
  obtain ⟨display, -, rfl⟩ := h
  refine ⟨⟨rfl, ?_, ⟨hw', hh'⟩, fun hd => by cases hd⟩, rfl, rfl⟩
  show (if _ then none else some _ : Option (Nat → UInt8)).isSome = true
  rw [if_neg hne]
  rfl

/-- **Every state of a run** on a screen with a column and a row. -/
theorem run_drawn {t₀ : Tty} (h0 : Ready t₀)
    (hrun : terminal.Run (fun _ _ => True) t₀ l t) : Ready t ∧ SameScreen t₀ t := by
  refine hrun.invariant (P := fun _ t => Ready t ∧ SameScreen t₀ t) ?_ ⟨h0, .refl _⟩
  rintro - t ev t' ⟨hr, hsame⟩ - hstep
  obtain ⟨hr', hsame'⟩ := hr.step hstep
  exact ⟨hr', hsame.trans hsame'⟩

/-! ### Typing and erasing -/

/-- A character that is put into a cell. -/
def Printable (c : UInt8) : Prop := c ≠ 0 ∧ c ≠ newline ∧ c ≠ backspace

instance (c : UInt8) : Decidable (Printable c) := inferInstanceAs (Decidable (_ ∧ _))

/-- What a typed character does to the screen. -/
structure Typed (t t' : Tty) : Prop where
  ready : Ready t'
  same : SameScreen t t'
  cursor : t'.cursor = nextCell t.charsWidth t.charsHeight t.cursor
  run : t'.currentRunOfKeyboardInputs = t.currentRunOfKeyboardInputs + 1

theorem write_typed (h : Ready t) (hc : Printable c) :
    ∃ t', writeFromMultipleSources t c true = .ok t' ∧ Typed t t' := by
  obtain ⟨t', hwrite, -⟩ := write_drawn c true h.buffer h.drawn
  obtain ⟨buffer, hbuf⟩ := Option.isSome_iff_exists.mp h.buffer
  obtain ⟨hready, hsame⟩ := h.write hwrite
  have hput := hwrite
  unfold writeFromMultipleSources at hput
  rw [hbuf] at hput
  dsimp only at hput
  have hsigned : (if 128 ≤ c then questionMark else c) ≠ newline ∧
      (if 128 ≤ c then questionMark else c) ≠ backspace := by
    split
    · exact ⟨by decide, by decide⟩
    · exact hc.2
  rw [if_neg (fun hbs => hsigned.2 hbs.1)] at hput
  obtain ⟨-, -, hcur⟩ := putChar_fields hput
  have hrun := (putChar_ok hput).run
  rw [if_neg hsigned.1] at hcur hrun
  exact ⟨t', hwrite, hready, hsame, hcur, hrun⟩

theorem write_erased (h : Ready t) (hrun : t.currentRunOfKeyboardInputs ≠ 0) :
    ∃ t', writeFromMultipleSources t backspace true = .ok t' ∧ Erased t t' := by
  obtain ⟨buffer, hbuf⟩ := Option.isSome_iff_exists.mp h.buffer
  obtain ⟨t', herase, -, -⟩ := eraseChar_ok hbuf h.drawn.inside hrun
  refine ⟨t', ?_, eraseChar_fields hbuf herase⟩
  unfold writeFromMultipleSources
  rw [hbuf]
  dsimp only
  have hsigned : ¬ (128 : UInt8) ≤ backspace := by decide
  rw [if_neg hsigned, if_pos ⟨rfl, rfl, h.icanon⟩, if_neg hrun]
  exact herase

/-- The screen of `t'` is as that of `t`, and `k` cells from the cursor on are blank. -/
structure Restored (t t' : Tty) (k : Nat) : Prop where
  same : SameScreen t t'
  cursorX : t'.cursorX = t.cursorX
  cursorY : t'.cursorY = t.cursorY
  run : t'.currentRunOfKeyboardInputs = t.currentRunOfKeyboardInputs
  blank : ∀ i < k, t'.BlankAt ((nextCell t.charsWidth t.charsHeight)^[i] t.cursor)
  shows : 0 < k → t'.ShowsBlanks

/-- **Characters that are typed and then erased**, one after the other: the last character
that is erased is the first that was typed.  `f` takes the keys, and `room` says how many more
characters it takes. -/
theorem type_then_erase {f : Tty → UInt8 → Except TtyHalt Tty} (room : Tty → Nat → Prop)
    (htype : ∀ t c n, Ready t → Printable c → room t (n + 1) →
      ∃ t', f t c = .ok t' ∧ Typed t t' ∧ room t' n)
    (herase : ∀ t, Ready t → t.currentRunOfKeyboardInputs ≠ 0 →
      ∃ t', f t backspace = .ok t' ∧ Erased t t')
    (cs : List UInt8) (hcs : ∀ c ∈ cs, Printable c) (t : Tty) (h : Ready t)
    (hroom : room t cs.length) :
    ∃ t', (cs ++ List.replicate cs.length backspace).foldlM f t = .ok t' ∧ Ready t' ∧
      Restored t t' cs.length := by
  induction cs generalizing t with
  | nil => exact ⟨t, rfl, h, .refl t, rfl, rfl, rfl, by simp, fun hk => by simp at hk⟩
  | cons c cs ih =>
    obtain ⟨t₁, h₁, htyped, hroom₁⟩ := htype t c cs.length h (hcs c (by simp)) hroom
    obtain ⟨t₂, h₂, hready₂, hback⟩ := ih (fun c hc => hcs c (by simp [hc])) t₁ htyped.ready hroom₁
    have hrun₂ : t₂.currentRunOfKeyboardInputs = t.currentRunOfKeyboardInputs + 1 :=
      hback.run.trans htyped.run
    obtain ⟨t₃, h₃, herased⟩ := herase t₂ hready₂ (by omega)
    have hsame₂ : SameScreen t t₂ := htyped.same.trans hback.same
    have hsame₃ : SameScreen t t₃ := hsame₂.trans herased.same
    -- the cursor goes back over the cell it was in before the first character
    have hcur₂ : t₂.cursor = nextCell t.charsWidth t.charsHeight t.cursor := by
      rw [← htyped.cursor]
      exact Prod.ext hback.cursorX hback.cursorY
    have hcur : t₃.cursor = t.cursor := by
      rw [herased.cursor, hcur₂, hsame₂.width, hsame₂.height]
      exact prevCell_nextCell h.drawn.inside.1 h.drawn.inside.2
    obtain ⟨hx, hy⟩ := Prod.mk.inj hcur
    have hready₃ : Ready t₃ := ⟨hsame₃.icanon.trans h.icanon, herased.buffer, herased.drawn⟩
    refine ⟨t₃, ?_, hready₃, hsame₃, hx, hy, ?_, ?_, fun _ => herased.shows⟩
    · rw [List.length_cons, List.replicate_succ', List.cons_append, List.foldlM_cons, h₁, ok_bind,
        ← List.append_assoc, List.foldlM_append, h₂, ok_bind, List.foldlM_cons, h₃, ok_bind]
      rfl
    · rw [herased.run, hrun₂]
      exact Nat.add_sub_cancel _ _
    · intro i hi
      cases i with
      | zero =>
        rw [Function.iterate_zero_apply, ← hcur]
        exact herased.blank
      | succ i =>
        have hb := herased.blanks _ (hback.blank i (Nat.lt_of_succ_lt_succ hi))
        rw [htyped.cursor, htyped.same.width, htyped.same.height] at hb
        rw [Function.iterate_succ_apply]
        exact hb

theorem key_typed (h : Ready t) (hc : Printable c) (hroom : t.inputBuffer.length ≠ inputBufLength) :
    ∃ t', ttyProvideStdin t c = .ok t' ∧ Typed t t' ∧ t'.inputBuffer = t.inputBuffer ++ [c] := by
  obtain ⟨t₁, hwrite, htyped⟩ := write_typed h hc
  obtain ⟨t₁', hwrite', -, hinput, -⟩ := write_total c true fun _ => h.drawn.inside
  obtain rfl : t₁' = t₁ := Except.ok.inj (hwrite'.symm.trans hwrite)
  refine ⟨{ t₁' with inputBuffer := t₁'.inputBuffer ++ [c] }, ?_, ?_, ?_⟩
  · unfold ttyProvideStdin
    rw [if_neg hc.1, hwrite, ok_bind, if_neg fun hbs => hc.2.2 hbs.1, ensure_of (hinput ▸ hroom)]
    rfl
  · exact ⟨⟨htyped.ready.icanon, htyped.ready.buffer, htyped.ready.drawn.withInput _⟩,
      ⟨htyped.same.width, htyped.same.height, htyped.same.icanon⟩, htyped.cursor, htyped.run⟩
  · rw [← hinput]

theorem key_erased (h : Ready t) (hrun : t.currentRunOfKeyboardInputs ≠ 0) :
    ∃ t', ttyProvideStdin t backspace = .ok t' ∧ Erased t t' := by
  obtain ⟨t₁, hwrite, he⟩ := write_erased h hrun
  exact ⟨_, ttyProvideStdin_backspace hwrite (he.same.icanon.trans h.icanon),
    ⟨he.same.width, he.same.height, he.same.icanon⟩, he.drawn.withInput _, he.buffer, he.cursor,
    he.run, he.blank, he.blanks, he.shows⟩

/-! ### The screen -/

/-- **The cursor stays on the screen, and backspaces undo what was typed.**  After every run on
a screen of at least one column and one row, the cursor is on the screen; no character halts in
`index_buffer`, and the `blit` after it does not look left of the first column; and printable
characters followed by as many backspaces leave the screen as it was, with their cells blank,
when they are written and, if the input has room for them, when they are typed. -/
theorem cursor_and_backspace {width height : Nat} (hw : charScreenSize ≤ width)
    (hh : charScreenSize ≤ height) {t₀ : Tty} (h0 : initialiseTty width height = .ok t₀)
    (hrun : terminal.Run (fun _ _ => True) t₀ l t) :
    (t.cursorX < t.charsWidth ∧ t.cursorY < t.charsHeight) ∧
    (∀ c kb, ∃ t', writeFromMultipleSources t c kb = .ok t' ∧
      (t' = t ∨ ∃ t₁ buffer display, blit t₁ buffer = .ok display ∧
        (t₁.dirty = .onlyPrevCharAffected → 0 < t₁.cursorX) ∧
        t' = { t₁ with display := display })) ∧
    ∀ cs, (∀ c ∈ cs, Printable c) →
      (∃ t', (cs ++ List.replicate cs.length backspace).foldlM
        (fun t c => writeFromMultipleSources t c true) t = .ok t' ∧ Restored t t' cs.length) ∧
      (t.inputBuffer.length + cs.length ≤ inputBufLength →
        ∃ t', (cs ++ List.replicate cs.length backspace).foldlM ttyProvideStdin t = .ok t' ∧
          Restored t t' cs.length) := by
  obtain ⟨h, -⟩ := run_drawn (initialiseTty_ready hw hh h0).1 hrun
  refine ⟨h.drawn.inside, ?_, fun cs hcs => ⟨?_, ?_⟩⟩
  · intro c kb
    obtain ⟨t', hwrite, -, hdrawn, -⟩ := write_drawn c kb h.buffer h.drawn
    refine ⟨t', hwrite, ?_⟩
    rcases write_draws_last hwrite with rfl | ⟨t₁, buffer, display, hblit, rfl⟩
    · exact .inl rfl
    · exact .inr ⟨t₁, buffer, display, hblit, hdrawn.right, rfl⟩
  · obtain ⟨t', hfold, -, hback⟩ := type_then_erase (fun _ _ => True)
      (fun t c n h hc _ => by
        obtain ⟨t', hwrite, htyped⟩ := write_typed h hc
        exact ⟨t', hwrite, htyped, trivial⟩)
      (fun t h hrun => write_erased h hrun) cs hcs t h trivial
    exact ⟨t', hfold, hback⟩
  · intro hroom
    obtain ⟨t', hfold, -, hback⟩ := type_then_erase
      (fun t n => t.inputBuffer.length + n ≤ inputBufLength)
      (fun t c n h hc hr => by
        obtain ⟨t', hkey, htyped, hinput⟩ := key_typed h hc (by omega)
        refine ⟨t', hkey, htyped, ?_⟩
        rw [hinput, List.length_append, List.length_singleton]
        omega)
      (fun t h hrun => key_erased h hrun) cs hcs t h hroom
    exact ⟨t', hfold, hback⟩

theorem initialiseTty_total {width height : Nat} (hw : charScreenSize ≤ width) :
    ∃ t, initialiseTty width height = .ok t ∧ t.inputBuffer = [] := by
  let t : Tty :=
    { charsWidth := width / charScreenSize
      charsHeight := height / charScreenSize
      cursorX := 0
      cursorY := 0
      buffer := if width / charScreenSize * (height / charScreenSize) = 0 then none
        else some (fun _ => space)
      currentRunOfKeyboardInputs := 0
      icanon := true
      dirty := .allDirty
      inputBuffer := []
      display := fun _ _ => 0 }
  obtain ⟨display, hblit⟩ : ∃ display, blit t (fun _ => space) = .ok display :=
    blit_allDirty rfl (Nat.div_pos hw (by decide))
  refine ⟨{ t with display := display }, ?_, rfl⟩
  show (blit t (fun _ => space) >>= _) = _
  rw [hblit]
  rfl

/-- A letter and an erased letter on a screen of one column and two rows. -/
theorem cursor_and_backspace_one_column :
    ∃ t₀ t t', initialiseTty 16 32 = .ok t₀ ∧
      terminal.Run (fun _ _ => True) t₀ [.output 97, .key 98] t ∧
      (t.cursorX < t.charsWidth ∧ t.cursorY < t.charsHeight) ∧
      [99, backspace].foldlM ttyProvideStdin t = .ok t' ∧ Restored t t' 1 := by
  have htotal : ∃ t, initialiseTty 16 32 = .ok t ∧ t.inputBuffer = [] :=
    initialiseTty_total (by decide)
  obtain ⟨t₀, h0, hempty⟩ := htotal
  have h := (initialiseTty_ready (by decide) (by decide) h0).1
  obtain ⟨t₁, h₁, -, hinput₁, -⟩ := write_total 97 false fun _ => h.drawn.inside
  have hstep₁ : terminal.step t₀ (.output 97) t₁ := h₁
  obtain ⟨t, h₂, -, hinput⟩ := key_typed (h.step hstep₁).1 (c := 98) (by decide)
    (by rw [hinput₁, hempty]; decide)
  have hstep₂ : terminal.step t₁ (.key 98) t := h₂
  have hrun : terminal.Run (fun _ _ => True) t₀ [.output 97, .key 98] t :=
    .snoc (.snoc (.nil t₀) trivial hstep₁) trivial hstep₂
  obtain ⟨hin, -, hback⟩ := cursor_and_backspace (by decide) (by decide) h0 hrun
  have hprintable : ∀ c ∈ [(99 : UInt8)], Printable c := by
    rw [List.forall_mem_singleton]
    decide
  obtain ⟨t', hfold, hrestored⟩ := (hback [99] hprintable).2
    (by rw [hinput, hinput₁, hempty]; decide)
  exact ⟨t₀, t, t', h0, hrun, hin, hfold, hrestored⟩

/-- **A full input halts the kernel**, also while there are cells left. -/
theorem keys_overflow (h : Ready t) (cs : List UInt8) (hcs : ∀ c ∈ cs, Printable c)
    (hfull : inputBufLength < t.inputBuffer.length + cs.length)
    (hle : t.inputBuffer.length ≤ inputBufLength) :
    cs.foldlM ttyProvideStdin t = .error .hcf := by
  induction cs generalizing t with
  | nil => simp at hfull; omega
  | cons c cs ih =>
    have hc := hcs c (by simp)
    rw [List.foldlM_cons]
    by_cases hroom : t.inputBuffer.length = inputBufLength
    · have hnot : ¬ Takes t c := fun ht => by
        rcases ht with ht | ht | ht
        · exact hc.1 ht
        · exact hc.2.2 ht.1
        · exact ht hroom
      rw [(ttyProvideStdin_total fun _ => h.drawn.inside).2 hnot]
      rfl
    · obtain ⟨t', hkey, htyped, hinput⟩ := key_typed h hc hroom
      have hlen : t'.inputBuffer.length = t.inputBuffer.length + 1 := by
        rw [hinput, List.length_append, List.length_singleton]
      rw [hkey, ok_bind]
      rw [List.length_cons] at hfull
      exact ih htyped.ready (fun c hc => hcs c (by simp [hc])) (by omega) (by omega)

/-- 1001 letters on a screen of 1200 cells. -/
theorem too_many_keys_halt :
    ∃ t₀, initialiseTty 640 480 = .ok t₀ ∧
      inputBufLength + 1 ≤ t₀.charsWidth * t₀.charsHeight - 1 ∧
      (List.replicate (inputBufLength + 1) 97 ++
        List.replicate (inputBufLength + 1) backspace).foldlM ttyProvideStdin t₀ = .error .hcf := by
  have htotal : ∃ t, initialiseTty 640 480 = .ok t ∧ t.inputBuffer = [] :=
    initialiseTty_total (by decide)
  obtain ⟨t₀, h0, hinput⟩ := htotal
  obtain ⟨h, hw, hh⟩ := initialiseTty_ready (by decide) (by decide) h0
  refine ⟨t₀, h0, by rw [hw, hh]; decide, ?_⟩
  have hover : (List.replicate (inputBufLength + 1) (97 : UInt8)).foldlM ttyProvideStdin t₀ =
      .error .hcf := by
    refine keys_overflow h _ (fun c hc => ?_) ?_ ?_
    · rw [List.eq_of_mem_replicate hc]
      exact ⟨by decide, by decide, by decide⟩
    · rw [List.length_replicate]
      omega
    · rw [hinput]
      exact Nat.zero_le _
  rw [List.foldlM_append, hover]
  rfl

end Stuos.Terminal
