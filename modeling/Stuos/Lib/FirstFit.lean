import Mathlib.Data.List.TakeWhile
import Stuos.Lib.Tiling

/-!
# First fit with lazy joining

A tiling whose regions are tagged with whether they are free, and the search that goes through it
from the left: at every region it first takes in the free neighbours on the right (`absorb`), then
looks whether there is room.

`FreeRun hi l a e` says that the free regions from the start `a` up to `e` are neighbours, and that
there are no more free ones on either side.

* `freeRun_cons`: every run of free regions is met at its first region, joined.
* `firstFit_spec`: so the search finds the first run with room.
-/

namespace Stuos.Lib

/-- A free region takes in the free ones right behind it. -/
def absorb (free : Bool) (back : List (Nat × Bool)) : List (Nat × Bool) :=
  if free then back.dropWhile Prod.snd else back

@[simp] theorem absorb_false (back : List (Nat × Bool)) : absorb false back = back := rfl

@[simp] theorem absorb_true_free (b : Nat) (l : List (Nat × Bool)) :
    absorb true ((b, true) :: l) = absorb true l := rfl

theorem absorb_suffix (free : Bool) (back : List (Nat × Bool)) : absorb free back <:+ back := by
  unfold absorb
  split
  · exact List.dropWhile_suffix _
  · exact List.suffix_refl back

theorem absorb_length_le (free : Bool) (back : List (Nat × Bool)) :
    (absorb free back).length ≤ back.length :=
  (absorb_suffix free back).length_le

section

variable (w size hi : Nat)

/-- The search: the start of the region it finds, and the regions afterwards. -/
def firstFit : List (Nat × Bool) → Option Nat × List (Nat × Bool)
  | [] => (none, [])
  | (a, free) :: back =>
    if size ≤ startOr hi (absorb free back) - (a + w) ∧ free = true then
      (some a, (a, free) :: absorb free back)
    else
      ((firstFit (absorb free back)).1, (a, free) :: (firstFit (absorb free back)).2)
  termination_by l => l.length
  decreasing_by
    all_goals exact Nat.lt_succ_of_le (absorb_length_le free back)

end

variable {w size hi : Nat} {l back : List (Nat × Bool)} {a b c e : Nat} {free : Bool}

@[simp] theorem firstFit_nil : firstFit w size hi [] = (none, []) := by
  rw [firstFit]

theorem firstFit_of_fits (h : size ≤ startOr hi (absorb free back) - (a + w) ∧ free = true) :
    firstFit w size hi ((a, free) :: back) = (some a, (a, free) :: absorb free back) := by
  rw [firstFit, if_pos h]

theorem firstFit_of_not_fits
    (h : ¬ (size ≤ startOr hi (absorb free back) - (a + w) ∧ free = true)) :
    firstFit w size hi ((a, free) :: back) = ((firstFit w size hi (absorb free back)).1,
      (a, free) :: (firstFit w size hi (absorb free back)).2) := by
  rw [firstFit, if_neg h]

/-- The induction of the search: a region, and what is left when it has taken in the free ones. -/
theorem absorb_induction {P : List (Nat × Bool) → Prop} (nil : P [])
    (cons : ∀ a free back, P (absorb free back) → P ((a, free) :: back)) (l : List (Nat × Bool)) :
    P l := by
  induction h : l.length using Nat.strong_induction_on generalizing l with
  | _ n ih =>
    subst h
    match l with
    | [] => exact nil
    | (a, free) :: back =>
      exact cons a free back
        (ih _ (Nat.lt_succ_of_le (absorb_length_le free back)) _ rfl)

/-! ### The regions afterwards -/

theorem firstFit_sublist (l : List (Nat × Bool)) : (firstFit w size hi l).2.Sublist l := by
  induction l using absorb_induction with
  | nil => rw [firstFit_nil]
  | cons a free back ih =>
    by_cases hfit : size ≤ startOr hi (absorb free back) - (a + w) ∧ free = true
    · rw [firstFit_of_fits hfit]
      exact (absorb_suffix free back).sublist.cons_cons _
    · rw [firstFit_of_not_fits hfit]
      exact (ih.trans (absorb_suffix free back).sublist).cons_cons _

/-- **The region that is found** is free and has room. -/
theorem firstFit_found (h : (firstFit w size hi l).1 = some c) :
    ∃ front back, (firstFit w size hi l).2 = front ++ (c, true) :: back ∧
      size ≤ startOr hi back - (c + w) := by
  induction l using absorb_induction with
  | nil =>
    rw [firstFit_nil] at h
    cases h
  | cons a free back ih =>
    by_cases hfit : size ≤ startOr hi (absorb free back) - (a + w) ∧ free = true
    · rw [firstFit_of_fits hfit] at h ⊢
      obtain rfl := Option.some.inj h
      obtain ⟨hroom, rfl⟩ := hfit
      exact ⟨[], _, rfl, hroom⟩
    · rw [firstFit_of_not_fits hfit] at h ⊢
      obtain ⟨front, back', he, hroom⟩ := ih h
      exact ⟨(a, free) :: front, back', by rw [he, List.cons_append], hroom⟩

/-- **When nothing is found**, the last region is used or has no room. -/
theorem firstFit_last {front : List (Nat × Bool)} (h : (firstFit w size hi l).1 = none)
    (hlast : (firstFit w size hi l).2 = front ++ [(c, true)]) : hi - (c + w) < size := by
  induction l using absorb_induction generalizing front with
  | nil =>
    rw [firstFit_nil] at hlast
    simp at hlast
  | cons a free back ih =>
    by_cases hfit : size ≤ startOr hi (absorb free back) - (a + w) ∧ free = true
    · rw [firstFit_of_fits hfit] at h
      cases h
    · rw [firstFit_of_not_fits hfit] at h hlast
      cases front with
      | cons x front => exact ih h (List.cons.inj hlast).2
      | nil =>
        -- nothing is behind the region, before and after the search
        obtain ⟨hx, hnil⟩ := List.cons.inj hlast
        obtain ⟨rfl, rfl⟩ := Prod.mk.inj hx
        cases hrest : absorb true back with
        | nil =>
          rw [hrest] at hfit
          simp only [startOr_nil, and_true] at hfit
          omega
        | cons y l =>
          obtain ⟨b, g⟩ := y
          rw [hrest, firstFit] at hnil
          split at hnil <;> cases hnil

/-! ### The end of the list -/

/-- The room of the last region, if it is free. -/
def lastRoom (w hi : Nat) : List (Nat × Bool) → Nat
  | [] => 0
  | [(a, free)] => if free then hi - (a + w) else 0
  | _ :: l => lastRoom w hi l

/-- The room of the free regions at the end, once they are joined. -/
def trailing (w hi : Nat) : List (Nat × Bool) → Nat
  | [] => 0
  | (a, free) :: back =>
    if free = true ∧ absorb true back = [] then hi - (a + w) else trailing w hi back

theorem lastRoom_cons {x : Nat × Bool} (hl : l ≠ []) : lastRoom w hi (x :: l) = lastRoom w hi l := by
  cases l with
  | nil => exact absurd rfl hl
  | cons y l => rfl

@[simp] theorem lastRoom_concat (front : List (Nat × Bool)) (a : Nat) (free : Bool) :
    lastRoom w hi (front ++ [(a, free)]) = if free then hi - (a + w) else 0 := by
  induction front with
  | nil => rfl
  | cons x front ih => rw [List.cons_append, lastRoom_cons (by simp), ih]

theorem trailing_absorb (h : free = true → absorb true back ≠ []) :
    trailing w hi (absorb free back) = trailing w hi back := by
  cases free with
  | false => rfl
  | true =>
    induction back with
    | nil => rfl
    | cons y l ih =>
      obtain ⟨b, g⟩ := y
      cases g with
      | false => rfl
      | true =>
        have hne : absorb true l ≠ [] := h rfl
        rw [absorb_true_free, ih fun _ => hne, trailing, if_neg fun hall => hne hall.2]

theorem firstFit_ne_nil (hl : l ≠ []) : (firstFit w size hi l).2 ≠ [] := by
  obtain ⟨⟨a, free⟩, back, rfl⟩ := List.exists_cons_of_ne_nil hl
  rw [firstFit]
  split <;> simp

/-- **When nothing is found**, the free regions at the end are joined. -/
theorem firstFit_lastRoom (h : (firstFit w size hi l).1 = none) :
    lastRoom w hi (firstFit w size hi l).2 = trailing w hi l := by
  induction l using absorb_induction with
  | nil => rw [firstFit_nil]; rfl
  | cons a free back ih =>
    by_cases hfit : size ≤ startOr hi (absorb free back) - (a + w) ∧ free = true
    · rw [firstFit_of_fits hfit] at h
      cases h
    · rw [firstFit_of_not_fits hfit] at h ⊢
      rw [trailing]
      by_cases hrest : absorb free back = []
      · rw [hrest, firstFit_nil, lastRoom]
        cases free with
        | false =>
          rw [absorb_false] at hrest
          subst hrest
          rfl
        | true => rw [if_pos rfl, if_pos ⟨rfl, hrest⟩]
      · have hjoined : free = true → absorb true back ≠ [] := by
          rintro rfl
          exact hrest
        rw [lastRoom_cons (firstFit_ne_nil hrest), ih h, trailing_absorb hjoined,
          if_neg fun hall => hjoined hall.1 hall.2]

/-! ### Runs of free regions -/

/-- A run of free regions that are neighbours, as long as it can be, from `a` up to `e`. -/
def FreeRun (hi : Nat) (l : List (Nat × Bool)) (a e : Nat) : Prop :=
  ∃ front run back, l = front ++ run ++ back ∧ run ≠ [] ∧ (∀ x ∈ run, x.2 = true) ∧
    startOr hi run = a ∧ startOr hi back = e ∧
    (∀ x ∈ front.getLast?, x.2 = false) ∧ ∀ x ∈ back.head?, x.2 = false

theorem not_freeRun_nil : ¬ FreeRun hi [] a e := by
  rintro ⟨front, run, back, he, hne, -⟩
  simp only [List.nil_eq, List.append_eq_nil_iff] at he
  exact hne he.1.2

theorem FreeRun.start_mem (h : FreeRun hi l a e) : (a, true) ∈ l := by
  obtain ⟨front, run, back, rfl, hne, hfree, rfl, -⟩ := h
  obtain ⟨x, run, rfl⟩ := List.exists_cons_of_ne_nil hne
  have hx : x.2 = true := hfree x (by simp)
  have hpair : x = (x.1, true) := by rw [← hx]
  rw [startOr_cons, ← hpair]
  simp

theorem head_absorb {x : Nat × Bool} (hx : x ∈ (absorb true back).head?) : x.2 = false := by
  have h := List.head?_dropWhile_not Prod.snd back
  rw [show back.dropWhile Prod.snd = absorb true back from rfl] at h
  cases hhead : (absorb true back).head? with
  | none =>
    rw [hhead] at hx
    cases hx
  | some y =>
    rw [hhead] at hx h
    obtain rfl := Option.some.inj hx
    simpa using h

theorem absorb_append_of_free {run : List (Nat × Bool)} (hfree : ∀ x ∈ run, x.2 = true)
    (hback : ∀ x ∈ back.head?, x.2 = false) : absorb true (run ++ back) = back := by
  induction run with
  | nil =>
    cases back with
    | nil => rfl
    | cons y back =>
      obtain ⟨b, g⟩ := y
      obtain rfl : g = false := hback (b, g) rfl
      rfl
  | cons x run ih =>
    obtain ⟨b, g⟩ := x
    obtain rfl : g = true := hfree (b, g) (by simp)
    exact ih fun y hy => hfree y (by simp [hy])

theorem absorb_append_of_used {front : List (Nat × Bool)} (hne : front ≠ [])
    (hlast : ∀ x ∈ front.getLast?, x.2 = false) (rest : List (Nat × Bool)) :
    ∃ front', absorb true (front ++ rest) = front' ++ rest ∧
      ∀ x ∈ front'.getLast?, x.2 = false := by
  induction front with
  | nil => exact absurd rfl hne
  | cons x front ih =>
    obtain ⟨b, g⟩ := x
    cases g with
    | false => exact ⟨_, rfl, hlast⟩
    | true =>
      have hne' : front ≠ [] := by
        rintro rfl
        exact absurd (hlast (b, true) rfl) (by simp)
      refine ih hne' fun y hy => hlast y ?_
      obtain ⟨z, front, rfl⟩ := List.exists_cons_of_ne_nil hne'
      exact hy

/-- A run is what the first region takes in, or it lies behind that. -/
theorem FreeRun.first_or_behind (h : FreeRun hi ((a, free) :: back) b e) :
    (free = true ∧ b = a ∧ e = startOr hi (absorb free back)) ∨
      FreeRun hi (absorb free back) b e := by
  obtain ⟨front, run, rest, he, hne, hfree, rfl, rfl, hfront, hrest⟩ := h
  cases front with
  | nil =>
    -- the run starts at the first region
    obtain ⟨x, run, rfl⟩ := List.exists_cons_of_ne_nil hne
    obtain ⟨rfl, hback⟩ := List.cons.inj he
    obtain rfl : free = true := hfree (a, free) (by simp)
    have hrun : ∀ x ∈ run, x.2 = true := fun x hx => hfree x (by simp [hx])
    refine Or.inl ⟨rfl, rfl, ?_⟩
    rw [hback, List.append_eq, absorb_append_of_free hrun hrest]
  | cons x front =>
    obtain ⟨rfl, rfl⟩ := List.cons.inj he
    right
    cases free with
    | false =>
      refine ⟨front, run, rest, rfl, hne, hfree, rfl, rfl, fun y hy => ?_, hrest⟩
      cases front with
      | nil => cases hy
      | cons z front => exact hfront y hy
    | true =>
      have hne' : front ≠ [] := by
        rintro rfl
        exact absurd (hfront (a, true) rfl) (by simp)
      have hlast : ∀ y ∈ front.getLast?, y.2 = false := by
        obtain ⟨z, front, rfl⟩ := List.exists_cons_of_ne_nil hne'
        exact hfront
      obtain ⟨front', hf, hl⟩ := absorb_append_of_used hne' hlast (run ++ rest)
      refine ⟨front', run, rest, ?_, hne, hfree, rfl, rfl, hl, hrest⟩
      rw [List.append_eq, List.append_eq, List.append_assoc, hf, List.append_assoc]

theorem takeWhile_append_absorb (back : List (Nat × Bool)) :
    back.takeWhile Prod.snd ++ absorb true back = back :=
  List.takeWhile_append_dropWhile

theorem freeRun_first (a : Nat) (back : List (Nat × Bool)) :
    FreeRun hi ((a, true) :: back) a (startOr hi (absorb true back)) := by
  refine ⟨[], (a, true) :: back.takeWhile Prod.snd, absorb true back, ?_, by simp, ?_, rfl,
    rfl, by simp, fun x hx => head_absorb hx⟩
  · rw [List.nil_append, List.cons_append, takeWhile_append_absorb]
  · intro x hx
    rcases List.mem_cons.mp hx with rfl | hx
    · rfl
    · exact List.mem_takeWhile_imp hx

theorem FreeRun.of_absorb (h : FreeRun hi (absorb free back) b e) :
    FreeRun hi ((a, free) :: back) b e := by
  obtain ⟨front, run, rest, hab, hne, hfree, rfl, rfl, hfront, hrest⟩ := h
  cases free with
  | false =>
    obtain rfl : back = front ++ run ++ rest := hab
    refine ⟨(a, false) :: front, run, rest, rfl, hne, hfree, rfl, rfl, fun y hy => ?_, hrest⟩
    cases front with
    | nil =>
      obtain rfl := Option.some.inj hy
      rfl
    | cons z front => exact hfront y hy
  | true =>
    -- what is left starts with a used region, so the run does not start there
    obtain ⟨y, front, rfl⟩ : ∃ y front', front = y :: front' := by
      cases front with
      | cons y front => exact ⟨y, front, rfl⟩
      | nil =>
        obtain ⟨x, run, rfl⟩ := List.exists_cons_of_ne_nil hne
        have hused : x.2 = false := @head_absorb back x (by rw [hab]; rfl)
        rw [hfree x (by simp)] at hused
        cases hused
    refine ⟨(a, true) :: back.takeWhile Prod.snd ++ y :: front, run, rest, ?_, hne, hfree, rfl,
      rfl, fun x hx => hfront x ?_, hrest⟩
    · conv_lhs => rw [← takeWhile_append_absorb back, hab]
      simp only [List.append_assoc, List.cons_append]
    · rwa [List.getLast?_append_of_ne_nil _ (by simp)] at hx

/-- **Every run is met at its first region**, and then it is one region. -/
theorem freeRun_cons : FreeRun hi ((a, free) :: back) b e ↔
    (free = true ∧ b = a ∧ e = startOr hi (absorb free back)) ∨
      FreeRun hi (absorb free back) b e := by
  constructor
  · exact FreeRun.first_or_behind
  · rintro (⟨rfl, rfl, rfl⟩ | h)
    · exact freeRun_first b back
    · exact h.of_absorb

/-! ### The search -/

theorem Tiles.absorb (ht : Tiles w hi ((a, free) :: back)) : Tiles w hi (absorb free back) := by
  obtain ⟨pre, hpre⟩ := absorb_suffix free back
  have := ht.2
  rw [← hpre, Tiles.append_iff] at this
  exact this.2

/-- **The search finds the first run that has room**, and nothing only if none has. -/
theorem firstFit_spec (size : Nat) (ht : Tiles w hi l) :
    match (firstFit w size hi l).1 with
    | some c => (∃ e, FreeRun hi l c e ∧ size ≤ e - (c + w)) ∧
        ∀ a e, FreeRun hi l a e → size ≤ e - (a + w) → c ≤ a
    | none => ∀ a e, FreeRun hi l a e → e - (a + w) < size := by
  induction l using absorb_induction with
  | nil =>
    rw [firstFit_nil]
    exact fun a e h => absurd h not_freeRun_nil
  | cons a free back ih =>
    by_cases hfit : size ≤ startOr hi (absorb free back) - (a + w) ∧ free = true
    · rw [firstFit_of_fits hfit]
      refine ⟨⟨_, freeRun_cons.mpr (Or.inl ⟨hfit.2, rfl, rfl⟩), hfit.1⟩, fun b e hrun _ => ?_⟩
      exact (ht.mem_bounds hrun.start_mem).1
    · rw [firstFit_of_not_fits hfit]
      have ih := ih ht.absorb
      -- the first run is too small, and the others are those of the rest
      have hfirst : ∀ b e, FreeRun hi ((a, free) :: back) b e → size ≤ e - (b + w) →
          FreeRun hi (absorb free back) b e := by
        intro b e hrun hroom
        rcases freeRun_cons.mp hrun with ⟨hfree, rfl, rfl⟩ | hrun
        · exact absurd ⟨hroom, hfree⟩ hfit
        · exact hrun
      cases hfound : (firstFit w size hi (absorb free back)).1 with
      | some c =>
        rw [hfound] at ih
        obtain ⟨⟨e, hrun, hroom⟩, hleast⟩ := ih
        exact ⟨⟨e, freeRun_cons.mpr (Or.inr hrun), hroom⟩,
          fun b e' hrun' hroom' => hleast b e' (hfirst b e' hrun' hroom') hroom'⟩
      | none =>
        rw [hfound] at ih
        intro b e hrun
        by_contra hroom
        have hroom' : size ≤ e - (b + w) := by omega
        have := ih b e (hfirst b e hrun hroom')
        omega

/-- **Nothing is found** exactly if no run has room. -/
theorem firstFit_eq_none_iff (ht : Tiles w hi l) :
    (firstFit w size hi l).1 = none ↔ ∀ a e, FreeRun hi l a e → e - (a + w) < size := by
  have hspec := firstFit_spec size ht
  constructor
  · intro hnone
    rw [hnone] at hspec
    exact hspec
  · intro hall
    cases hfound : (firstFit w size hi l).1 with
    | none => rfl
    | some c =>
      rw [hfound] at hspec
      obtain ⟨⟨e, hrun, hroom⟩, -⟩ := hspec
      exact absurd (hall c e hrun) (Nat.not_lt.mpr hroom)

end Stuos.Lib
