import Mathlib.Data.Nat.Basic
import Mathlib.Logic.Relation
import Mathlib.Tactic.Common

/-!
# Loops that need not end

`run body fuel s` is a loop run for at most `fuel` rounds; a round goes on in another state, is
the last one, or halts.  `Ends body s o` says that the loop from `s` comes to the end `o`.

* `ends_again`, `ends_done`, `ends_error`: the end after one round.
* `Leads.ends_iff`, `Ends.exists_leads`: the end after some rounds.
* `Ends.unique`: a loop has one end.
* `exists_ends`: **a loop with a measure ends**.
* `not_ends`: **a loop that can always go on does not**.
-/

namespace Stuos.Lib.Loop

variable {σ ρ ε : Type*}

/-- What a round of a loop leads to. -/
inductive Step (σ ρ : Type*)
  | again (s : σ)
  | done (r : ρ)

/-- At most `fuel` rounds. -/
def run (body : σ → Except ε (Step σ ρ)) : Nat → σ → Option (Except ε ρ)
  | 0, _ => none
  | fuel + 1, s =>
    match body s with
    | .error e => some (.error e)
    | .ok (.done r) => some (.ok r)
    | .ok (.again s') => run body fuel s'

/-- The loop ends. -/
def Ends (body : σ → Except ε (Step σ ρ)) (s : σ) (o : Except ε ρ) : Prop :=
  ∃ fuel, run body fuel s = some o

variable {body : σ → Except ε (Step σ ρ)} {s s' : σ} {o o' : Except ε ρ}

theorem run_succ (fuel : Nat) (s : σ) : run body (fuel + 1) s =
    match body s with
    | .error e => some (.error e)
    | .ok (.done r) => some (.ok r)
    | .ok (.again s') => run body fuel s' := rfl

theorem run_again {fuel : Nat} (h : body s = .ok (.again s')) :
    run body (fuel + 1) s = run body fuel s' := by
  rw [run_succ, h]

theorem run_done {fuel : Nat} {r : ρ} (h : body s = .ok (.done r)) :
    run body (fuel + 1) s = some (.ok r) := by
  rw [run_succ, h]

theorem run_error {fuel : Nat} {e : ε} (h : body s = .error e) :
    run body (fuel + 1) s = some (.error e) := by
  rw [run_succ, h]

theorem ends_again (h : body s = .ok (.again s')) : Ends body s o ↔ Ends body s' o := by
  constructor
  · rintro ⟨fuel, hfuel⟩
    cases fuel with
    | zero => cases hfuel
    | succ fuel =>
      rw [run_again h] at hfuel
      exact ⟨fuel, hfuel⟩
  · rintro ⟨fuel, hfuel⟩
    exact ⟨fuel + 1, (run_again h).trans hfuel⟩

theorem ends_done {r : ρ} (h : body s = .ok (.done r)) : Ends body s o ↔ o = .ok r := by
  constructor
  · rintro ⟨fuel, hfuel⟩
    cases fuel with
    | zero => cases hfuel
    | succ fuel =>
      rw [run_done h] at hfuel
      exact (Option.some.inj hfuel).symm
  · rintro rfl
    exact ⟨1, run_done h⟩

theorem ends_error {e : ε} (h : body s = .error e) : Ends body s o ↔ o = .error e := by
  constructor
  · rintro ⟨fuel, hfuel⟩
    cases fuel with
    | zero => cases hfuel
    | succ fuel =>
      rw [run_error h] at hfuel
      exact (Option.some.inj hfuel).symm
  · rintro rfl
    exact ⟨1, run_error h⟩

/-- Some rounds lead from `s` to `s'`. -/
def Leads (body : σ → Except ε (Step σ ρ)) : σ → σ → Prop :=
  Relation.ReflTransGen fun s s' => body s = .ok (.again s')

theorem Leads.ends_iff (h : Leads body s s') : Ends body s o ↔ Ends body s' o := by
  induction h with
  | refl => exact Iff.rfl
  | tail _ hround ih => exact ih.trans (ends_again hround)

/-- **A loop that has returned** got to its last round. -/
theorem Ends.exists_leads {r : ρ} (h : Ends body s (.ok r)) :
    ∃ s', Leads body s s' ∧ body s' = .ok (.done r) := by
  obtain ⟨fuel, hfuel⟩ := h
  induction fuel generalizing s with
  | zero => cases hfuel
  | succ fuel ih =>
    cases hround : body s with
    | error e =>
      rw [run_error hround] at hfuel
      cases hfuel
    | ok next =>
      cases next with
      | done r' =>
        rw [run_done hround] at hfuel
        cases hfuel
        exact ⟨s, .refl, hround⟩
      | again s' =>
        rw [run_again hround] at hfuel
        obtain ⟨s', hleads, hdone⟩ := ih hfuel
        exact ⟨s', .head hround hleads, hdone⟩

/-- **A loop has one end.** -/
theorem Ends.unique (h : Ends body s o) (h' : Ends body s o') : o = o' := by
  obtain ⟨fuel, hfuel⟩ := h
  induction fuel generalizing s with
  | zero => cases hfuel
  | succ fuel ih =>
    cases hround : body s with
    | error e =>
      rw [run_error hround] at hfuel
      rw [ends_error hround] at h'
      rw [h', ← Option.some.inj hfuel]
    | ok next =>
      cases next with
      | done r =>
        rw [run_done hround] at hfuel
        rw [ends_done hround] at h'
        rw [h', ← Option.some.inj hfuel]
      | again s' =>
        rw [run_again hround] at hfuel
        exact ih ((ends_again hround).mp h') hfuel

/-- **A loop with a measure ends**, in what its last round leads to. -/
theorem exists_ends {P : σ → Prop} {Q : Except ε ρ → Prop} (m : σ → Nat)
    (h : ∀ s, P s → (∃ s', body s = .ok (.again s') ∧ P s' ∧ m s' < m s) ∨
      (∃ r, body s = .ok (.done r) ∧ Q (.ok r)) ∨ ∃ e, body s = .error e ∧ Q (.error e))
    (hs : P s) : ∃ o, Ends body s o ∧ Q o := by
  induction hm : m s using Nat.strong_induction_on generalizing s with
  | _ n ih =>
    rcases h s hs with ⟨s', hround, hs', hlt⟩ | ⟨r, hround, hQ⟩ | ⟨e, hround, hQ⟩
    · obtain ⟨o, ho, hQ⟩ := ih (m s') (hm ▸ hlt) hs' rfl
      exact ⟨o, (ends_again hround).mpr ho, hQ⟩
    · exact ⟨_, (ends_done hround).mpr rfl, hQ⟩
    · exact ⟨_, (ends_error hround).mpr rfl, hQ⟩

/-- **A loop that can always go on does not end.** -/
theorem not_ends {P : σ → Prop} (h : ∀ s, P s → ∃ s', body s = .ok (.again s') ∧ P s')
    (hs : P s) : ¬ Ends body s o := by
  rintro ⟨fuel, hfuel⟩
  induction fuel generalizing s with
  | zero => cases hfuel
  | succ fuel ih =>
    obtain ⟨s', hround, hs'⟩ := h s hs
    rw [run_again hround] at hfuel
    exact ih hs' hfuel

end Stuos.Lib.Loop
