import Mathlib.Algebra.Order.Ring.Int
import Mathlib.Data.List.Basic

/-!
# Tilings of an interval

A list of tagged start addresses divides an interval into regions: each region goes
from its start to the next start, the last one to the end `hi`, and begins with a
header of `w` bytes.  `Tiles w hi l` says that every region has room for its header.

The operations on a tiling are to split a region (`Tiles.split`), to join two
neighbours (`Tiles.join`) and to move the end (`Tiles.mono`).  `Clear l w a n` says
that the `n` bytes behind the header at `a` hold no start of another region; this is
what a client of the region at `a` relies on, and it survives all three.
-/

namespace Stuos.Lib

variable {β : Type*}

/-- The first start, or `z` if there is none. -/
def startOr (z : Nat) : List (Nat × β) → Nat
  | [] => z
  | x :: _ => x.1

/-- Every region has room for a header of `w` bytes. -/
def Tiles (w hi : Nat) : List (Nat × β) → Prop
  | [] => True
  | x :: l => x.1 + w ≤ startOr hi l ∧ Tiles w hi l

@[simp] theorem startOr_nil (z : Nat) : startOr z ([] : List (Nat × β)) = z := rfl

@[simp] theorem startOr_cons (z : Nat) (x : Nat × β) (l : List (Nat × β)) :
    startOr z (x :: l) = x.1 := rfl

theorem startOr_append (z : Nat) (l₁ l₂ : List (Nat × β)) :
    startOr z (l₁ ++ l₂) = startOr (startOr z l₂) l₁ := by
  cases l₁ <;> rfl

namespace Tiles

variable {w hi : Nat}

theorem append_iff (l₁ l₂ : List (Nat × β)) :
    Tiles w hi (l₁ ++ l₂) ↔ Tiles w (startOr hi l₂) l₁ ∧ Tiles w hi l₂ := by
  induction l₁ with
  | nil => simp [Tiles]
  | cons x l₁ ih =>
    rw [List.cons_append, Tiles, Tiles, ih, startOr_append, and_assoc]

theorem mono {hi' : Nat} (h : hi ≤ hi') {l : List (Nat × β)} (ht : Tiles w hi l) :
    Tiles w hi' l := by
  induction l with
  | nil => trivial
  | cons x l ih =>
    refine ⟨?_, ih ht.2⟩
    cases l with
    | nil =>
      have := ht.1
      simp only [startOr_nil] at this ⊢
      omega
    | cons y l => exact ht.1

theorem start_le {l : List (Nat × β)} (ht : Tiles w hi l) : startOr hi l ≤ hi := by
  induction l with
  | nil => exact Nat.le_refl hi
  | cons x l ih =>
    have h1 := ht.1
    have h2 := ih ht.2
    rw [startOr_cons]
    omega

theorem mem_bounds {l : List (Nat × β)} (ht : Tiles w hi l) {x : Nat × β} (hx : x ∈ l) :
    startOr hi l ≤ x.1 ∧ x.1 + w ≤ hi := by
  induction l with
  | nil => simp at hx
  | cons y l ih =>
    have hle := start_le ht.2
    have h1 := ht.1
    rcases List.mem_cons.mp hx with rfl | hx
    · rw [startOr_cons]
      omega
    · have := ih ht.2 hx
      rw [startOr_cons]
      omega

variable {front back : List (Nat × β)} {x : Nat × β}

theorem before (ht : Tiles w hi (front ++ x :: back)) {y : Nat × β} (hy : y ∈ front) :
    y.1 + w ≤ x.1 :=
  (((append_iff _ _).mp ht).1.mem_bounds hy).2

theorem after (ht : Tiles w hi (front ++ x :: back)) {y : Nat × β} (hy : y ∈ back) :
    startOr hi back ≤ y.1 :=
  (((append_iff _ _).mp ht).2.2.mem_bounds hy).1

theorem room (ht : Tiles w hi (front ++ x :: back)) : x.1 + w ≤ startOr hi back :=
  ((append_iff _ _).mp ht).2.1

theorem region_le (ht : Tiles w hi (front ++ x :: back)) : startOr hi back ≤ hi :=
  start_le ((append_iff _ _).mp ht).2.2

theorem retag (ht : Tiles w hi (front ++ x :: back)) (t : β) :
    Tiles w hi (front ++ (x.1, t) :: back) := by
  rw [append_iff] at ht ⊢
  exact ht

/-- **Splitting a region** at an address that leaves room for both headers. -/
theorem split (ht : Tiles w hi (front ++ x :: back)) {b : Nat} (t : β) (h1 : x.1 + w ≤ b)
    (h2 : b + w ≤ startOr hi back) : Tiles w hi (front ++ x :: (b, t) :: back) := by
  rw [append_iff] at ht ⊢
  exact ⟨ht.1, h1, h2, ht.2.2⟩

/-- **Joining a region** with the next one. -/
theorem join {y : Nat × β} (ht : Tiles w hi (front ++ x :: y :: back)) :
    Tiles w hi (front ++ x :: back) := by
  rw [append_iff] at ht ⊢
  obtain ⟨h1, h2, h3, h4⟩ := ht
  rw [startOr_cons] at h2
  exact ⟨h1, by omega, h4⟩

theorem headers_apart (ht : Tiles w hi (front ++ x :: back)) {y : Nat × β}
    (hy : y ∈ front ++ back) : y.1 + w ≤ x.1 ∨ x.1 + w ≤ y.1 := by
  rcases List.mem_append.mp hy with hy | hy
  · exact Or.inl (ht.before hy)
  · have h1 := ht.room
    have h2 := ht.after hy
    exact Or.inr (by omega)

theorem length_le {l : List (Nat × β)} (hw : 0 < w) (ht : Tiles w hi l) :
    startOr hi l + l.length ≤ hi := by
  induction l with
  | nil => simp
  | cons x l ih =>
    have h1 := ht.1
    have h2 := ih ht.2
    rw [startOr_cons, List.length_cons]
    omega

end Tiles

/-! ### Clear ranges -/

/-- No other region starts in the `n` bytes behind the header at `a`. -/
def Clear (w : Nat) (l : List (Nat × β)) (a n : Nat) : Prop :=
  ∀ x ∈ l, x.1 ≤ a ∨ a + w + n ≤ x.1

theorem Clear.mono {w : Nat} {l l' : List (Nat × β)} {a n : Nat} (h : Clear w l a n)
    (hsub : ∀ x ∈ l', ∃ y ∈ l, y.1 = x.1) : Clear w l' a n := by
  intro x hx
  obtain ⟨y, hy, he⟩ := hsub x hx
  rw [← he]
  exact h y hy

theorem Tiles.clear {w hi : Nat} {front back : List (Nat × β)} {x : Nat × β}
    (ht : Tiles w hi (front ++ x :: back)) {n : Nat} (hn : x.1 + w + n ≤ startOr hi back) :
    Clear w (front ++ x :: back) x.1 n := by
  intro y hy
  rw [List.mem_append, List.mem_cons] at hy
  rcases hy with hy | rfl | hy
  · have := ht.before hy
    exact Or.inl (by omega)
  · exact Or.inl (Nat.le_refl _)
  · have := ht.after hy
    exact Or.inr (by omega)

theorem Clear.split {w hi : Nat} (hw : 0 < w) {front back : List (Nat × β)} {x : Nat × β}
    (ht : Tiles w hi (front ++ x :: back)) {b : Nat} (t : β) (h1 : x.1 + w ≤ b)
    (h2 : b + w ≤ startOr hi back) {y : Nat × β} (hy : y ∈ front ++ back) {n : Nat}
    (hc : Clear w (front ++ x :: back) y.1 n) :
    Clear w (front ++ x :: (b, t) :: back) y.1 n := by
  intro z hz
  simp only [List.mem_append, List.mem_cons] at hz
  rcases hz with hz | rfl | rfl | hz
  · exact hc z (by simp [hz])
  · exact hc z (by simp)
  · rcases List.mem_append.mp hy with hy | hy
    · rcases hc x (by simp) with hx | hx
      · have := ht.before hy
        exact Or.inl (by simp only; omega)
      · exact Or.inr (by simp only; omega)
    · have := ht.after hy
      exact Or.inl (by simp only; omega)
  · exact hc z (by simp [hz])

end Stuos.Lib
