import Mathlib.Algebra.Order.Ring.Int
import Mathlib.Logic.Basic

/-!
# Computations that may halt

A computation in `Except ε` either returns or halts with a reason.  `orHalt`
follows a pointer that may be missing; the lemmas below run a computation
forwards (`ok_bind`) and take one that returned apart (`bind_eq_ok`).
-/

namespace Stuos.Lib

variable {ε : Type*} {α β : Type}

/-- The value, or halt. -/
def orHalt (e : ε) : Option α → Except ε α
  | some a => .ok a
  | none => .error e

/-- Go on only if `p` holds. -/
def ensure (p : Prop) [Decidable p] (e : ε) : Except ε Unit :=
  if p then .ok () else .error e

@[simp] theorem orHalt_some (e : ε) (a : α) : orHalt e (some a) = .ok a := rfl

@[simp] theorem orHalt_none (e : ε) : orHalt e (none : Option α) = .error e := rfl

theorem orHalt_eq_ok {e : ε} {o : Option α} {a : α} : orHalt e o = .ok a ↔ o = some a := by
  cases o <;> simp

@[simp] theorem ok_bind (a : α) (f : α → Except ε β) : (Except.ok a >>= f) = f a := rfl

@[simp] theorem error_bind (e : ε) (f : α → Except ε β) : (Except.error e >>= f) = .error e := rfl

@[simp] theorem pure_eq_ok (a : α) : (pure a : Except ε α) = .ok a := rfl

@[simp] theorem throw_eq_error (e : ε) : (throw e : Except ε α) = .error e := rfl

@[simp] theorem bind_ok (x : Except ε α) : (x >>= fun a => Except.ok a) = x := by
  cases x <;> rfl

/-- **A computation that returned** returned at every step. -/
theorem bind_eq_ok {x : Except ε α} {f : α → Except ε β} {b : β} :
    (x >>= f) = .ok b ↔ ∃ a, x = .ok a ∧ f a = .ok b := by
  cases x <;> simp

/-- **A computation that halted** halted at one of its steps. -/
theorem bind_eq_error {x : Except ε α} {f : α → Except ε β} {e : ε} :
    (x >>= f) = .error e ↔ x = .error e ∨ ∃ a, x = .ok a ∧ f a = .error e := by
  cases x <;> simp

theorem exists_of_isOk {x : Except ε α} (h : x.isOk = true) : ∃ a, x = .ok a := by
  cases x with
  | error e => cases h
  | ok a => exact ⟨a, rfl⟩

theorem bind_congr_ok {x : Except ε α} {f g : α → Except ε β}
    (h : ∀ a, x = .ok a → f a = g a) : (x >>= f) = x >>= g := by
  cases x with
  | error e => rfl
  | ok a => exact h a rfl

theorem map_eq_ok {x : Except ε α} {f : α → β} {b : β} :
    x.map f = .ok b ↔ ∃ a, x = .ok a ∧ f a = b := by
  cases x <;> simp [Except.map]

theorem mapError_eq_ok {ε' : Type*} {f : ε → ε'} {x : Except ε α} {a : α} :
    x.mapError f = .ok a ↔ x = .ok a := by
  cases x <;> simp [Except.mapError]

@[simp] theorem ensure_eq_ok {p : Prop} [Decidable p] {e : ε} {u : Unit} :
    ensure p e = .ok u ↔ p := by
  unfold ensure
  split <;> simp [*]

theorem ensure_eq_error {p : Prop} [Decidable p] {e e' : ε} :
    ensure p e = .error e' ↔ ¬ p ∧ e = e' := by
  unfold ensure
  split <;> simp [*]

theorem ensure_of {p : Prop} [Decidable p] (h : p) (e : ε) : ensure p e = .ok () :=
  ensure_eq_ok.mpr h

theorem ensure_of_not {p : Prop} [Decidable p] (h : ¬ p) (e : ε) : ensure p e = .error e := by
  rw [ensure, if_neg h]

/-! ### Folds -/

section

variable {σ : Type} {s s' : σ} {P : σ → Prop}

/-- **A fold keeps what each of its steps keeps.** -/
theorem foldlM_invariant {f : σ → α → Except ε σ} {l : List α}
    (hstep : ∀ a ∈ l, ∀ s s', P s → f s a = .ok s' → P s') (hs : P s)
    (h : l.foldlM f s = .ok s') : P s' := by
  induction l generalizing s with
  | nil =>
    rw [List.foldlM_nil, pure_eq_ok, Except.ok.injEq] at h
    exact h ▸ hs
  | cons a l ih =>
    rw [List.foldlM_cons, bind_eq_ok] at h
    obtain ⟨s₁, h1, h2⟩ := h
    exact ih (fun b hb => hstep b (by simp [hb])) (hstep a (by simp) s s₁ hs h1) h2

/-- **A fold returns** if each of its steps does. -/
theorem foldlM_total {f : σ → α → Except ε σ} {l : List α}
    (hstep : ∀ a ∈ l, ∀ s, ∃ s', f s a = .ok s') : ∃ s', l.foldlM f s = .ok s' := by
  induction l generalizing s with
  | nil => exact ⟨s, rfl⟩
  | cons a l ih =>
    obtain ⟨s₁, h1⟩ := hstep a (by simp) s
    obtain ⟨s', h2⟩ := ih (fun b hb => hstep b (by simp [hb])) (s := s₁)
    exact ⟨s', by rw [List.foldlM_cons, h1, ok_bind, h2]⟩

/-- **A fold whose steps do nothing.** -/
theorem foldlM_eq_self {f : σ → α → Except ε σ} {l : List α} (h : ∀ a ∈ l, f s a = .ok s) :
    l.foldlM f s = .ok s := by
  induction l with
  | nil => rfl
  | cons a l ih =>
    rw [List.foldlM_cons, h a (by simp), ok_bind]
    exact ih fun b hb => h b (by simp [hb])

theorem foldlM_flatMap {f : σ → α → Except ε σ} {g : σ → β → Except ε σ} {parts : α → List β}
    {l : List α} (hf : ∀ a ∈ l, ∀ s, P s → f s a = (parts a).foldlM g s)
    (hg : ∀ b ∈ l.flatMap parts, ∀ s s', P s → g s b = .ok s' → P s') (hs : P s) :
    l.foldlM f s = (l.flatMap parts).foldlM g s := by
  induction l generalizing s with
  | nil => rfl
  | cons a l ih =>
    rw [List.flatMap_cons] at hg
    rw [List.foldlM_cons, List.flatMap_cons, List.foldlM_append, hf a (by simp) s hs]
    cases hx : (parts a).foldlM g s with
    | error e => rfl
    | ok s₁ =>
      exact ih (fun b hb => hf b (by simp [hb])) (fun b hb => hg b (by simp [hb]))
        (foldlM_invariant (fun b hb => hg b (by simp [hb])) hs hx)

end

end Stuos.Lib
