import Mathlib.Algebra.Order.Ring.Int
import Mathlib.Data.List.Basic

/-!
# Labelled transition systems

A system is a set of initial states and a labelled step relation; a label
carries the input of a step and whatever the step lets the outside see.  Three
rules are used everywhere below.

* `Reachable.invariant`: a property of the initial states that every step keeps
  holds in every reachable state.
* `Run.invariant`: the same along one run, with a side condition the steps of the
  run have to meet.
* `Simulation.run`: if every step of one system is matched by a step of another
  with the same label, then so is every run, and the two ends are related again.
-/

namespace Stuos.Lib

/-- A labelled transition system. -/
structure Lts (σ : Type*) (α : Type*) where
  init : σ → Prop
  step : σ → α → σ → Prop

namespace Lts

variable {σ τ α : Type*}

/-- The states a system can get into. -/
inductive Reachable (M : Lts σ α) : σ → Prop
  | init {s : σ} : M.init s → Reachable M s
  | step {s s' : σ} {a : α} : Reachable M s → M.step s a s' → Reachable M s'

/-- `Run M ok s l s'`: the labels `l` lead from `s` to `s'`, and each step was
taken in a state and with a label that `ok` admits. -/
inductive Run (M : Lts σ α) (ok : σ → α → Prop) : σ → List α → σ → Prop
  | nil (s : σ) : Run M ok s [] s
  | snoc {s s' s'' : σ} {l : List α} {a : α} :
      Run M ok s l s' → ok s' a → M.step s' a s'' → Run M ok s (l ++ [a]) s''

/-- **An inductive invariant holds in every reachable state.** -/
theorem Reachable.invariant {M : Lts σ α} {P : σ → Prop} (h0 : ∀ s, M.init s → P s)
    (hs : ∀ s a s', P s → M.step s a s' → P s') {s : σ} (h : M.Reachable s) : P s := by
  induction h with
  | init hi => exact h0 _ hi
  | step _ hst ih => exact hs _ _ _ ih hst

/-- **An invariant of the admitted steps holds at the end of every run.**  It may
look at the labels so far. -/
theorem Run.invariant {M : Lts σ α} {ok : σ → α → Prop} {P : List α → σ → Prop}
    (hs : ∀ l s a s', P l s → ok s a → M.step s a s' → P (l ++ [a]) s') {s s' : σ} {l : List α}
    (h : M.Run ok s l s') (h0 : P [] s) : P l s' := by
  induction h with
  | nil => exact h0
  | snoc _ hok hst ih => exact hs _ _ _ _ ih hok hst

theorem Run.reachable {M : Lts σ α} {ok : σ → α → Prop} {s s' : σ} {l : List α}
    (h : M.Run ok s l s') (hs : M.Reachable s) : M.Reachable s' := by
  induction h with
  | nil => exact hs
  | snoc _ _ hst ih => exact ih.step hst

theorem Run.append {M : Lts σ α} {ok : σ → α → Prop} {s s' s'' : σ} {l l' : List α}
    (h : M.Run ok s l s') (h' : M.Run ok s' l' s'') : M.Run ok s (l ++ l') s'' := by
  induction h' with
  | nil => rwa [List.append_nil]
  | snoc _ hok hst ih =>
    rw [← List.append_assoc]
    exact ih.snoc hok hst

theorem Run.split {M : Lts σ α} {ok : σ → α → Prop} {s s'' : σ} {l l' : List α}
    (h : M.Run ok s (l ++ l') s'') : ∃ s', M.Run ok s l s' ∧ M.Run ok s' l' s'' := by
  generalize hl : l ++ l' = labels at h
  induction h generalizing l' with
  | nil =>
    obtain ⟨rfl, rfl⟩ := List.append_eq_nil_iff.mp hl
    exact ⟨s, .nil s, .nil s⟩
  | snoc hrun hok hst ih =>
    rename_i s₁ s₂ labels a
    rcases List.eq_nil_or_concat' l' with rfl | ⟨front, b, rfl⟩
    · rw [List.append_nil] at hl
      subst hl
      exact ⟨s₂, hrun.snoc hok hst, .nil s₂⟩
    · rw [← List.append_assoc] at hl
      obtain ⟨hfront, hb⟩ := List.append_inj' hl rfl
      cases hb
      obtain ⟨s', h1, h2⟩ := ih hfront
      exact ⟨s', h1, h2.snoc hok hst⟩

theorem Run.unique {M : Lts σ α} (hdet : ∀ s a s' s'', M.step s a s' → M.step s a s'' → s' = s'')
    {ok ok' : σ → α → Prop} {s s' s'' : σ} {l : List α} (h : M.Run ok s l s')
    (h' : M.Run ok' s l s'') : s' = s'' := by
  induction h generalizing s'' with
  | nil =>
    generalize hl : ([] : List α) = labels at h'
    cases h' with
    | nil => rfl
    | snoc => simp at hl
  | snoc hrun _hok hst ih =>
    rename_i s₁ s₂ labels a
    generalize hl : labels ++ [a] = labels' at h'
    cases h' with
    | nil => simp at hl
    | snoc hrun' _hok' hst' =>
      obtain ⟨rfl, ha⟩ := List.append_inj' hl rfl
      cases ha
      obtain rfl := ih hrun'
      exact hdet _ _ _ _ hst hst'

theorem Run.mono {M : Lts σ α} {ok ok' : σ → α → Prop} (himp : ∀ s a, ok s a → ok' s a)
    {s s' : σ} {l : List α} (h : M.Run ok s l s') : M.Run ok' s l s' := by
  induction h with
  | nil => exact .nil _
  | snoc _ hok hst ih => exact ih.snoc (himp _ _ hok) hst

/-- Every step of `M` is a step of `N` with the same label, up to `R`. -/
structure Simulation (M : Lts σ α) (N : Lts τ α) (ok : σ → α → Prop) (R : σ → τ → Prop) :
    Prop where
  step : ∀ s t a s', R s t → ok s a → M.step s a s' → ∃ t', N.step t a t' ∧ R s' t'

/-- **A simulation carries runs over**, label by label. -/
theorem Simulation.run {M : Lts σ α} {N : Lts τ α} {ok : σ → α → Prop} {R : σ → τ → Prop}
    (hsim : Simulation M N ok R) {s s' : σ} {t : τ} {l : List α} (h : M.Run ok s l s')
    (hR : R s t) : ∃ t', N.Run (fun _ _ => True) t l t' ∧ R s' t' := by
  induction h with
  | nil => exact ⟨t, .nil t, hR⟩
  | snoc _ hok hst ih =>
    obtain ⟨t', hrun, hR'⟩ := ih
    obtain ⟨t'', hst', hR''⟩ := hsim.step _ _ _ _ hR' hok hst
    exact ⟨t'', .snoc hrun trivial hst', hR''⟩

end Lts

end Stuos.Lib
