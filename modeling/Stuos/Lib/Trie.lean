import Mathlib.Algebra.Order.Ring.Int
import Mathlib.Data.List.Basic
import Mathlib.Data.List.Nodup
import Mathlib.Data.List.Flatten

/-!
# Tries

A trie is a partial function `child` from nodes and indices to nodes; `follow` goes down
a path of indices.  Several tries may live in the same nodes: `P r p` says that `p` is a
path of interest from the root `r`.

* `follow_congr`: a path only depends on the nodes it goes through.
* `Separate`: no node is reached twice, by two paths or from two roots.
* `follow_attach`: hanging a fresh node into a trie adds one path and changes no other.
* `visits`: the nodes below a node in post-order, each with its path.
-/

namespace Stuos.Lib

variable {N I : Type*}

/-- The node at the end of a path. -/
def follow (child : N → I → Option N) : N → List I → Option N
  | r, [] => some r
  | r, i :: p =>
    match child r i with
    | none => none
    | some c => follow child c p

variable {child child' : N → I → Option N}

@[simp] theorem follow_nil (r : N) : follow child r [] = some r := rfl

theorem follow_cons (r : N) (i : I) (p : List I) :
    follow child r (i :: p) = (child r i).bind fun c => follow child c p := by
  rw [follow]
  cases child r i <;> rfl

theorem follow_append (r : N) (p q : List I) :
    follow child r (p ++ q) = (follow child r p).bind fun c => follow child c q := by
  induction p generalizing r with
  | nil => rfl
  | cons i p ih =>
    rw [List.cons_append, follow_cons, follow_cons]
    cases child r i with
    | none => rfl
    | some c => exact ih c

theorem follow_concat (r : N) (p : List I) (i : I) :
    follow child r (p ++ [i]) = (follow child r p).bind fun c => child c i := by
  rw [follow_append]
  cases follow child r p with
  | none => rfl
  | some c =>
    simp only [Option.bind_some, follow_cons, follow_nil]
    cases child c i <;> rfl

/-- **A path depends only on the nodes it goes through.** -/
theorem follow_congr {r : N} {p : List I}
    (h : ∀ q i s, p = q ++ i :: s → ∀ t, follow child r q = some t → child' t i = child t i) :
    follow child' r p = follow child r p := by
  induction p generalizing r with
  | nil => rfl
  | cons i p ih =>
    rw [follow_cons, follow_cons, h [] i p rfl r rfl]
    cases hc : child r i with
    | none => rfl
    | some c =>
      refine ih fun q j s hp t ht => h (i :: q) j s (by rw [hp]; rfl) t ?_
      rw [follow_cons, hc]
      exact ht

theorem follow_of_append {r c : N} {p q : List I} (h : follow child r (p ++ q) = some c) :
    ∃ t, follow child r p = some t ∧ follow child t q = some c := by
  rw [follow_append, Option.bind_eq_some_iff] at h
  exact h

/-- No node is reached twice by paths of interest. -/
def Separate (child : N → I → Option N) (P : N → List I → Prop) : Prop :=
  ∀ r p r' p' f, P r p → P r' p' → follow child r p = some f → follow child r' p' = some f →
    r = r' ∧ p = p'

section

variable {P : N → List I → Prop} {r₀ t f : N} {q₀ : List I} {i : I}

theorem follow_attach_other (hpre : ∀ r p q, P r (p ++ q) → P r p) (hsep : Separate child P)
    (hq : P r₀ q₀) (ht : follow child r₀ q₀ = some t)
    (hfresh : ∀ r p, P r p → follow child r p ≠ some f)
    (hsame : ∀ u j, u ≠ f → (u = t → j ≠ i) → child' u j = child u j) {r : N} {p : List I}
    (hP : P r p) (hp : ∀ s, r = r₀ → p ≠ q₀ ++ i :: s) : follow child' r p = follow child r p := by
  refine follow_congr fun q j s hqs u hu => hsame u j ?_ ?_
  · rintro rfl
    exact hfresh r q (hpre r q (j :: s) (hqs ▸ hP)) hu
  · rintro rfl rfl
    obtain ⟨rfl, rfl⟩ := hsep r q r₀ q₀ u (hpre r q (j :: s) (hqs ▸ hP)) hq hu ht
    exact hp s rfl hqs

/-- **Hanging in a fresh node** `f` at `t` under `i` adds the path to it and changes no
other; `f` has no children, or none of interest. -/
theorem follow_attach (hpre : ∀ r p q, P r (p ++ q) → P r p) (hsep : Separate child P)
    (hq : P r₀ q₀) (ht : follow child r₀ q₀ = some t) (hnone : child t i = none)
    (hfresh : ∀ r p, P r p → follow child r p ≠ some f) (hset : child' t i = some f)
    (hsame : ∀ u j, u ≠ f → (u = t → j ≠ i) → child' u j = child u j)
    (hleaf : ∀ j s, P r₀ (q₀ ++ i :: j :: s) → child' f j = none) {r : N} {p : List I}
    (hP : P r p) (hpath : ¬ (r = r₀ ∧ p = q₀ ++ [i])) : follow child' r p = follow child r p := by
  by_cases hp : ∃ s, r = r₀ ∧ p = q₀ ++ i :: s
  · obtain ⟨s, rfl, rfl⟩ := hp
    cases s with
    | nil => exact absurd ⟨rfl, rfl⟩ hpath
    | cons j s =>
      have hself : follow child' r q₀ = some t := by
        rw [follow_attach_other hpre hsep hq ht hfresh hsame hq, ht]
        intro s _ he
        have := congrArg List.length he
        simp at this
      have hold : follow child r (q₀ ++ i :: j :: s) = none := by
        rw [follow_append, ht, Option.bind_some, follow_cons, hnone]
        rfl
      rw [hold, follow_append, hself, Option.bind_some, follow_cons, hset, Option.bind_some,
        follow_cons, hleaf j s hP]
      rfl
  · refine follow_attach_other hpre hsep hq ht hfresh hsame hP ?_
    rintro s rfl rfl
    exact hp ⟨s, rfl, rfl⟩

theorem follow_attach_self (hpre : ∀ r p q, P r (p ++ q) → P r p) (hsep : Separate child P)
    (hq : P r₀ q₀) (ht : follow child r₀ q₀ = some t)
    (hfresh : ∀ r p, P r p → follow child r p ≠ some f) (hset : child' t i = some f)
    (hsame : ∀ u j, u ≠ f → (u = t → j ≠ i) → child' u j = child u j) :
    follow child' r₀ (q₀ ++ [i]) = some f := by
  rw [follow_concat, follow_attach_other hpre hsep hq ht hfresh hsame hq, ht, Option.bind_some,
    hset]
  intro s _ he
  have := congrArg List.length he
  simp at this

end

/-! ### Post-order -/

/-- The nodes up to `depth` levels below `t`, each after the nodes below it, with their
paths from `t`.  The first index is taken from `top`, the others from `rest`. -/
def visits (child : N → I → Option N) (rest : List I) : Nat → List I → N → List (List I × N)
  | 0, _, _ => []
  | depth + 1, top, t =>
    top.flatMap fun i =>
      match child t i with
      | none => []
      | some c => (visits child rest depth rest c).map (fun v => (i :: v.1, v.2)) ++ [([i], c)]

theorem mem_visits {rest : List I} (hrest : ∀ i, i ∈ rest) (depth : Nat) (top : List I) (t : N)
    (p : List I) (c : N) :
    (p, c) ∈ visits child rest depth top t ↔
      p ≠ [] ∧ p.length ≤ depth ∧ (∀ i, p.head? = some i → i ∈ top) ∧
        follow child t p = some c := by
  induction depth generalizing top t p with
  | zero =>
    constructor
    · intro h
      simp [visits] at h
    · rintro ⟨hne, hlen, -⟩
      exact absurd (List.length_eq_zero_iff.mp (by omega)) hne
  | succ depth ih =>
    simp only [visits, List.mem_flatMap]
    constructor
    · rintro ⟨i, hi, hv⟩
      split at hv
      · simp at hv
      · rename_i d hd
        rw [List.mem_append, List.mem_map, List.mem_singleton] at hv
        rcases hv with ⟨⟨q, c'⟩, hq, he⟩ | he
        · obtain ⟨rfl, rfl⟩ := Prod.mk.inj he
          obtain ⟨hne, hlen, -, hf⟩ := (ih rest d q).mp hq
          refine ⟨by simp, by simp only [List.length_cons]; omega, ?_, ?_⟩
          · intro j hj
            rw [List.head?_cons, Option.some.injEq] at hj
            exact hj ▸ hi
          · rw [follow_cons, hd]
            exact hf
        · obtain ⟨rfl, rfl⟩ := Prod.mk.inj he
          refine ⟨by simp, by simp, ?_, ?_⟩
          · intro j hj
            rw [List.head?_cons, Option.some.injEq] at hj
            exact hj ▸ hi
          · rw [follow_cons, hd]
            rfl
    · rintro ⟨hne, hlen, hmem, hf⟩
      match p, hne with
      | i :: q, _ =>
        rw [follow_cons, Option.bind_eq_some_iff] at hf
        obtain ⟨d, hd, hf⟩ := hf
        refine ⟨i, hmem i rfl, ?_⟩
        simp only [hd, List.mem_append, List.mem_map, List.mem_singleton]
        by_cases hq : q = []
        · subst hq
          right
          rw [follow_nil, Option.some.injEq] at hf
          rw [hf]
        · left
          refine ⟨(q, c), (ih rest d q).mpr ⟨hq, ?_, fun j _ => hrest j, hf⟩, rfl⟩
          simp only [List.length_cons] at hlen
          omega

theorem visits_ne_nil {rest : List I} {depth : Nat} {top : List I} {t : N} {v : List I × N}
    (h : v ∈ visits child rest depth top t) : v.1 ≠ [] := by
  cases depth with
  | zero => simp [visits] at h
  | succ depth =>
    simp only [visits, List.mem_flatMap] at h
    obtain ⟨i, -, hv⟩ := h
    split at hv
    · simp at hv
    · rw [List.mem_append, List.mem_map, List.mem_singleton] at hv
      rcases hv with ⟨w, -, rfl⟩ | rfl <;> simp

theorem visits_nodup {rest : List I} (hrest : rest.Nodup) (depth : Nat) :
    ∀ {top : List I}, top.Nodup → ∀ t : N,
      ((visits child rest depth top t).map Prod.fst).Nodup := by
  induction depth with
  | zero => exact fun _ t => by simp [visits]
  | succ depth ih =>
    intro top htop t
    rw [visits, List.map_flatMap, List.nodup_flatMap]
    constructor
    · intro i _
      split
      · simp
      · rename_i c _
        have hc := (ih hrest c).map (f := List.cons i) (List.cons_injective)
        simp only [List.map_append, List.map_map, List.map_cons, List.map_nil]
        rw [List.map_map] at hc
        refine List.nodup_append.mpr ⟨hc, by simp, ?_⟩
        rintro a ha b hb rfl
        rw [List.mem_singleton] at hb
        subst hb
        obtain ⟨v, hv, he⟩ := List.mem_map.mp ha
        have hnil : v.1 = [] := by simpa using he
        exact visits_ne_nil hv hnil
    · refine htop.imp fun {i j} hij => ?_
      intro p hp hp'
      have hhead : ∀ k, p ∈ List.map Prod.fst (match child t k with
          | none => []
          | some c => (visits child rest depth rest c).map (fun v => (k :: v.1, v.2)) ++
              [([k], c)]) → p.head? = some k := by
        intro k hk
        obtain ⟨v, hv, rfl⟩ := List.mem_map.mp hk
        split at hv
        · simp at hv
        · rw [List.mem_append, List.mem_map, List.mem_singleton] at hv
          rcases hv with ⟨w, -, rfl⟩ | rfl <;> rfl
      exact hij (Option.some.inj ((hhead i hp).symm.trans (hhead j hp')))

end Stuos.Lib
