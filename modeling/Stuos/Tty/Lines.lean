import Mathlib.Data.List.DropRight
import Mathlib.Data.List.Infix
import Stuos.Tty.InputBuffer

/-!
# Completed lines

A line is complete when its newline is in the input.  A typed backspace takes the last
character off the input, also when that is a newline, so a completed line is kept only as
long as nobody types one there.

* `completed_drop`: what is complete after characters have been taken off the front.
* `step_completed`: a step keeps the lines, unless it is such a backspace.
* `completed_lines_kept_iff`: **exactly the runs without such a backspace keep them**.
-/

namespace Stuos.Terminal

open Stuos.Lib

variable {t t' : Tty} {l : List TtyEvent}

/-- The input up to its last newline. -/
def completed (input : List UInt8) : List UInt8 := input.rdropWhile (· ≠ newline)

/-- A backspace is typed only when nothing is pending or the last character is no newline. -/
def EditsLine (t : Tty) (ev : TtyEvent) : Prop :=
  ev = .key backspace → t.inputBuffer.getLast? ≠ some newline

/-- The lines that are complete in `t`, less what the events `l` read of them, are still at
the front of the input of `t'`. -/
def KeepsLines (t : Tty) (l : List TtyEvent) (t' : Tty) : Prop :=
  (completed t.inputBuffer).drop (returned l).length <+: t'.inputBuffer

/-! ### The last newline -/

@[simp] theorem completed_nil : completed [] = [] := rfl

theorem completed_newline (input : List UInt8) :
    completed (input ++ [newline]) = input ++ [newline] :=
  List.rdropWhile_concat_neg _ _ _ (by simp)

theorem completed_char {c : UInt8} (hc : c ≠ newline) (input : List UInt8) :
    completed (input ++ [c]) = completed input :=
  List.rdropWhile_concat_pos _ _ _ (by simpa using hc)

theorem completed_isPrefix (input : List UInt8) : completed input <+: input :=
  List.rdropWhile_prefix _ _

/-- **Characters are taken off the front**: what was complete and is left is complete. -/
theorem completed_drop (front input : List UInt8) :
    (completed (front ++ input)).drop front.length = completed input := by
  induction input using List.reverseRecOn with
  | nil =>
    rw [List.append_nil, completed_nil, List.drop_eq_nil_iff]
    exact (completed_isPrefix front).length_le
  | append_singleton input c ih =>
    rw [← List.append_assoc]
    by_cases hc : c = newline
    · subst hc
      rw [completed_newline, completed_newline, List.append_assoc, List.drop_left]
    · rw [completed_char hc, completed_char hc, ih]

theorem completed_dropLast {input : List UInt8} (h : input.getLast? ≠ some newline) :
    completed input.dropLast = completed input := by
  rcases List.eq_nil_or_concat' input with rfl | ⟨front, c, rfl⟩
  · rfl
  · rw [List.getLast?_concat] at h
    rw [List.dropLast_concat, completed_char (by simpa using h)]

theorem completed_append_char (input : List UInt8) (c : UInt8) :
    completed input <+: completed (input ++ [c]) := by
  by_cases hc : c = newline
  · subst hc
    rw [completed_newline]
    exact (completed_isPrefix input).trans (List.prefix_append _ _)
  · rw [completed_char hc]

/-! ### Steps and runs -/

theorem terminal_deterministic (t : Tty) (ev : TtyEvent) (t₁ t₂ : Tty)
    (h₁ : terminal.step t ev t₁) (h₂ : terminal.step t ev t₂) : t₁ = t₂ := by
  cases ev with
  | key x =>
    have heq : Except.ok t₁ = Except.ok t₂ := Eq.trans (Eq.symm h₁) h₂
    exact Except.ok.inj heq
  | output c =>
    have heq : Except.ok t₁ = Except.ok t₂ := Eq.trans (Eq.symm h₁) h₂
    exact Except.ok.inj heq
  | read num bytes =>
    have heq : Except.ok (t₁, bytes) = Except.ok (t₂, bytes) := Eq.trans (Eq.symm h₁) h₂
    exact (Prod.mk.inj (Except.ok.inj heq)).1

/-- **One step** keeps the completed lines, less what it reads, unless it is a backspace after
a newline. -/
theorem step_completed {ev : TtyEvent} (h : OnScreen t) (hic : t.icanon = true)
    (hedits : EditsLine t ev) (hstep : terminal.step t ev t') :
    (completed t.inputBuffer).drop ev.returned.length <+: completed t'.inputBuffer := by
  obtain ⟨-, -, hinput⟩ := step_input h hic hstep
  cases ev with
  | key x =>
    show completed t.inputBuffer <+: _
    dsimp only at hinput
    rw [hinput]
    split
    · exact List.prefix_rfl
    · split
      · rename_i hbs
        rw [completed_dropLast (hedits (hbs ▸ rfl))]
      · exact completed_append_char _ _
  | output c =>
    show completed t.inputBuffer <+: _
    dsimp only at hinput
    rw [hinput]
  | read num bytes =>
    dsimp only at hinput
    rw [← hinput]
    show (completed (bytes ++ t'.inputBuffer)).drop bytes.length <+: _
    rw [completed_drop]

theorem run_completed (h : OnScreen t) (hic : t.icanon = true)
    (hrun : terminal.Run EditsLine t l t') :
    (completed t.inputBuffer).drop (returned l).length <+: completed t'.inputBuffer ∧
      OnScreen t' ∧ t'.icanon = true := by
  induction hrun with
  | nil => exact ⟨List.prefix_rfl, h, hic⟩
  | snoc hrun hok hstep ih =>
    rename_i s s' l ev
    obtain ⟨hkept, hon, hic'⟩ := ih
    obtain ⟨hon', hic'', -⟩ := step_input hon hic' hstep
    refine ⟨?_, hon', hic''⟩
    have hlen : (returned (l ++ [ev])).length = (returned l).length + ev.returned.length := by
      simp [returned]
    rw [hlen, ← List.drop_drop]
    exact (List.IsPrefix.drop hkept ev.returned.length).trans (step_completed hon hic' hok hstep)

/-- **When completed lines are immutable**: between any two states of a run, what is complete
in the first stays as it is until it is read, if and only if no backspace of the run is typed
when the last pending character is a newline. -/
theorem completed_lines_kept_iff {t₀ : Tty} (h0 : terminal.init t₀)
    (hrun : terminal.Run (fun _ _ => True) t₀ l t) :
    (∀ l₁ l₂ t₁ t₂, l₁ ++ l₂ <+: l → terminal.Run (fun _ _ => True) t₀ l₁ t₁ →
      terminal.Run (fun _ _ => True) t₁ l₂ t₂ → KeepsLines t₁ l₂ t₂) ↔
    terminal.Run EditsLine t₀ l t := by
  constructor
  · intro hkeeps
    induction hrun with
    | nil => exact .nil _
    | snoc hrun _hok hstep ih =>
      rename_i s s' l ev
      have hbefore := ih fun l₁ l₂ t₁ t₂ hle =>
        hkeeps l₁ l₂ t₁ t₂ (hle.trans (List.prefix_append _ _))
      refine hbefore.snoc ?_ hstep
      rintro rfl hlast
      -- the whole input is complete, and the backspace makes it shorter
      obtain ⟨front, hfront⟩ := List.getLast?_eq_some_iff.mp hlast
      obtain ⟨hon, hic⟩ := run_onScreen h0 hrun
      obtain ⟨-, -, hinput⟩ := step_input hon hic hstep
      dsimp only at hinput
      rw [if_neg (by decide), if_pos rfl, hfront, List.dropLast_concat] at hinput
      have hkept := hkeeps l [.key backspace] s s' List.prefix_rfl hrun
        ((Lts.Run.nil s).snoc trivial hstep)
      rw [KeepsLines, hfront, completed_newline, hinput] at hkept
      have hlen := hkept.length_le
      simp only [returned, TtyEvent.returned, List.flatMap_cons, List.flatMap_nil, List.append_nil,
        List.length_nil, List.drop_zero, List.length_append, List.length_singleton] at hlen
      omega
  · intro hedits l₁ l₂ t₁ t₂ hle hrun₁ hrun₂
    obtain ⟨rest, rfl⟩ := hle
    obtain ⟨t₂', hedits, -⟩ := hedits.split
    obtain ⟨t₁', hedits₁, hedits₂⟩ := hedits.split
    obtain rfl := hedits₁.unique terminal_deterministic hrun₁
    obtain rfl := hedits₂.unique terminal_deterministic hrun₂
    obtain ⟨hon, hic⟩ := run_onScreen h0 hrun₁
    exact (run_completed hon hic hedits₂).1.trans (completed_isPrefix _)

/-- A newline, and a letter after it that is erased. -/
theorem completed_lines_kept_letter :
    ∃ t₀ t, terminal.init t₀ ∧
      terminal.Run EditsLine t₀ [.key newline, .key 98, .key backspace] t ∧
      ∀ l₁ l₂ t₁ t₂, l₁ ++ l₂ <+: [TtyEvent.key newline, .key 98, .key backspace] →
        terminal.Run (fun _ _ => True) t₀ l₁ t₁ → terminal.Run (fun _ _ => True) t₁ l₂ t₂ →
          KeepsLines t₁ l₂ t₂ := by
  have hok : (initialiseTty 32 32 >>= fun t => ttyProvideStdin t newline >>= fun t =>
      ttyProvideStdin t 98 >>= fun t => ttyProvideStdin t backspace).isOk = true := by decide
  obtain ⟨t₃, ht⟩ := exists_of_isOk hok
  simp only [bind_eq_ok] at ht
  obtain ⟨t₀, h0, t₁, h₁, t₂, h₂, h₃⟩ := ht
  have hinit : terminal.init t₀ := ⟨32, 32, h0⟩
  have hstep₁ : terminal.step t₀ (.key newline) t₁ := h₁
  have hstep₂ : terminal.step t₁ (.key 98) t₂ := h₂
  have hstep₃ : terminal.step t₂ (.key backspace) t₃ := h₃
  have hinput : t₂.inputBuffer = [newline, 98] := (((Inv.init hinit).step hstep₁).step hstep₂).input
  have hedits : terminal.Run EditsLine t₀ [.key newline, .key 98] t₂ :=
    ((Lts.Run.nil t₀).snoc (fun he => by cases he) hstep₁).snoc (fun he => by cases he) hstep₂
  have hlast : EditsLine t₂ (.key backspace) := by
    intro _
    rw [hinput]
    decide
  have hrun : terminal.Run EditsLine t₀ [.key newline, .key 98, .key backspace] t₃ :=
    hedits.snoc hlast hstep₃
  exact ⟨t₀, t₃, hinit, hrun,
    (completed_lines_kept_iff hinit (hrun.mono fun _ _ _ => trivial)).mpr hrun⟩

/-- **A backspace after a newline** takes a completed line apart. -/
theorem completed_line_edited :
    ∃ t₀ t₁ t₂, terminal.init t₀ ∧
      terminal.Run (fun _ _ => True) t₀ [.key 97, .key newline] t₁ ∧
      terminal.Run (fun _ _ => True) t₁ [.key backspace] t₂ ∧
      completed t₁.inputBuffer = [97, newline] ∧ t₂.inputBuffer = [97] ∧
      ¬ KeepsLines t₁ [.key backspace] t₂ := by
  obtain ⟨t₀, t₁, h0, hrun⟩ := typed_run 97 newline (by decide)
  have hinv : Inv [.key 97, .key newline] t₁ :=
    hrun.invariant (P := Inv) (fun _ _ _ _ h _ hst => h.step hst) (.init h0)
  have hinput : t₁.inputBuffer = [97, newline] := hinv.input
  obtain ⟨t₂, hback, hbs⟩ := backspace_ok hinv.icanon hinv.inside hinv.buffer_none
  have hstep : terminal.step t₁ (.key backspace) t₂ := hback
  have hinput₂ : t₂.inputBuffer = [97] := by
    rw [hbs.input, hinput]
    rfl
  refine ⟨t₀, t₁, t₂, h0, hrun, (Lts.Run.nil t₁).snoc trivial hstep, ?_, hinput₂, ?_⟩
  · rw [hinput]
    decide
  · rw [KeepsLines, hinput, hinput₂]
    decide

end Stuos.Terminal
