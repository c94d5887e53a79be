import Mathlib.Data.List.TakeWhile

/-!
# Runs

The run of `p` is the longest part in front of a list where `p` holds, and the rest begins with an
element where it does not.
-/

namespace Stuos.Lib

variable {α : Type*} {p : α → Prop} [DecidablePred p] {l rest : List α} {a : α}

theorem of_mem_run (h : a ∈ l.takeWhile (p ·)) : p a := by
  simpa using List.mem_takeWhile_imp h

/-- **The run ends where `p` does not hold.** -/
theorem not_of_run_end (h : l.dropWhile (p ·) = a :: rest) : ¬ p a := by
  have hhead := List.head_dropWhile_not (p ·) (l := l) (by rw [h]; exact List.cons_ne_nil _ _)
  simpa [h] using hhead

theorem run_append_cons (h : l.dropWhile (p ·) = a :: rest) :
    l.takeWhile (p ·) ++ a :: rest = l := by
  rw [← h, List.takeWhile_append_dropWhile]

theorem run_eq_self (h : l.dropWhile (p ·) = []) : l.takeWhile (p ·) = l := by
  have hsplit := List.takeWhile_append_dropWhile (p := (p ·)) (l := l)
  rwa [h, List.append_nil] at hsplit

theorem drop_run (p : α → Prop) [DecidablePred p] (l : List α) :
    l.drop (l.takeWhile (p ·)).length = l.dropWhile (p ·) := by
  have hsplit : (l.takeWhile (p ·) ++ l.dropWhile (p ·)).drop (l.takeWhile (p ·)).length =
      l.dropWhile (p ·) := List.drop_left
  rwa [List.takeWhile_append_dropWhile] at hsplit

theorem take_run (p : α → Prop) [DecidablePred p] (l : List α) :
    l.take (l.takeWhile (p ·)).length = l.takeWhile (p ·) := by
  have hsplit : (l.takeWhile (p ·) ++ l.dropWhile (p ·)).take (l.takeWhile (p ·)).length =
      l.takeWhile (p ·) := List.take_left
  rwa [List.takeWhile_append_dropWhile] at hsplit

theorem length_run (p : α → Prop) [DecidablePred p] (l : List α) :
    (l.takeWhile (p ·)).length + (l.dropWhile (p ·)).length = l.length := by
  rw [← List.length_append, List.takeWhile_append_dropWhile]

/-- **The first element where `p` does not hold**, and the run before it. -/
theorem exists_first_not (h : ¬ ∀ a ∈ l, p a) : ∃ run a rest, l = run ++ a :: rest ∧
    (∀ b ∈ run, p b) ∧ ¬ p a ∧ l.dropWhile (p ·) = a :: rest := by
  rcases hdrop : l.dropWhile (p ·) with _ | ⟨a, rest⟩
  · rw [List.dropWhile_eq_nil_iff] at hdrop
    exact absurd (fun a ha => by simpa using hdrop a ha) h
  · exact ⟨_, a, rest, (run_append_cons hdrop).symm, fun b hb => of_mem_run hb,
      not_of_run_end hdrop, rfl⟩

end Stuos.Lib
