import Stuos.Tty.Lines

/-!
# Edited text

A user edits the line that is being typed with backspaces.

* `edited_text`: **what is read, and then what is pending, is the edited text**, as long as no
  backspace is typed at the start of a line; and only complete lines are read.
-/

namespace Stuos.Terminal

open Stuos.Lib

variable {t t' : Tty} {l : List TtyEvent}

/-- A character is typed at the end of a text.  A backspace does not take a newline back. -/
def editStep (text : List UInt8) (x : UInt8) : List UInt8 :=
  if x = 0 then text
  else if x = backspace then if text.getLast? = some newline then text else text.dropLast
  else text ++ [x]

/-- The text that is left of what was typed. -/
def edit (xs : List UInt8) : List UInt8 := xs.foldl editStep []

/-- No backspace is typed at the start of a line. -/
def StaysInLine (xs : List UInt8) : Prop :=
  ∀ pre, pre ++ [backspace] <+: xs → (edit pre).getLast? ≠ some newline

theorem StaysInLine.of_append {xs ys : List UInt8} (h : StaysInLine (xs ++ ys)) : StaysInLine xs :=
  fun pre hpre => h pre (hpre.trans (List.prefix_append _ _))

/-! ### Complete lines -/

theorem completed_append (input more : List UInt8) :
    completed input <+: completed (input ++ more) := by
  induction more using List.reverseRecOn with
  | nil => rw [List.append_nil]
  | append_singleton more c ih =>
    rw [← List.append_assoc]
    exact ih.trans (completed_append_char _ _)

theorem firstLine_completed (input : List UInt8) : firstLine input <+: completed input := by
  obtain ⟨rest, hrest⟩ := firstLine_isPrefix input
  rw [firstLine] at hrest ⊢
  split at hrest
  · rename_i hmem
    rw [if_pos hmem]
    have h := completed_append (input.takeWhile (· ≠ newline) ++ [newline]) rest
    rwa [completed_newline, hrest] at h
  · rename_i hmem
    rw [if_neg hmem]
    exact List.nil_prefix

theorem eq_nil_of_completed {text : List UInt8} (h : completed text = text)
    (hlast : text.getLast? ≠ some newline) : text = [] := by
  rcases List.eq_nil_or_concat' text with rfl | ⟨front, c, rfl⟩
  · rfl
  · rw [List.getLast?_concat] at hlast
    have hlen := congrArg List.length h
    rw [completed_char (by simpa using hlast), List.length_append] at hlen
    have := (completed_isPrefix front).length_le
    simp only [List.length_singleton] at hlen
    omega

/-! ### Runs -/

/-- What was read, and what is pending, is the text; what was read is complete. -/
def Reads (text returned input : List UInt8) : Prop :=
  returned ++ input = text ∧ returned <+: completed text

/-- **A key** edits the text. -/
theorem Reads.key {text returned input : List UInt8} (h : Reads text returned input) {x : UInt8}
    (hx : x = backspace → text.getLast? ≠ some newline) :
    Reads (editStep text x) returned
      (if x = 0 then input else if x = backspace then input.dropLast else input ++ [x]) := by
  obtain ⟨rfl, hread⟩ := h
  rw [editStep]
  by_cases h0 : x = 0
  · rw [if_pos h0, if_pos h0]
    exact ⟨rfl, hread⟩
  rw [if_neg h0, if_neg h0]
  by_cases hbs : x = backspace
  · have hlast := hx hbs
    rw [if_pos hbs, if_pos hbs, if_neg hlast]
    refine ⟨?_, by rwa [completed_dropLast hlast]⟩
    by_cases hne : input = []
    · -- everything has been read, so everything is complete
      subst hne
      rw [List.append_nil] at hlast hread ⊢
      have hnil := eq_nil_of_completed ((completed_isPrefix returned).eq_of_length_le
        hread.length_le) hlast
      rw [hnil]
      rfl
    · rw [List.dropLast_append_of_ne_nil hne]
  · rw [if_neg hbs, if_neg hbs]
    exact ⟨(List.append_assoc ..).symm, hread.trans (completed_append_char _ _)⟩

/-- **A read** takes complete lines only. -/
theorem Reads.read {text returned input : List UInt8} (h : Reads text returned input) (num : Nat) :
    Reads text (returned ++ input.take (min num (findNewline input)))
      (input.drop (min num (findNewline input))) := by
  obtain ⟨rfl, hread⟩ := h
  refine ⟨by rw [List.append_assoc, List.take_append_drop], ?_⟩
  have hfirst : input.take (min num (findNewline input)) <+: completed input := by
    rw [take_findNewline]
    exact (List.take_prefix _ _).trans (firstLine_completed input)
  rw [← completed_drop returned input] at hfirst
  obtain ⟨more, hmore⟩ := hread
  rw [← hmore, List.drop_left] at hfirst
  rw [← hmore]
  exact (List.prefix_append_right_inj _).mpr hfirst

end Stuos.Terminal
