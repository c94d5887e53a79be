import Stuos.Lib.Bytes
import Stuos.Lib.StableSort

/-!
# Sorting an array

`qsort` is an insertion sort on raw bytes: `shift` moves the elements in front that are greater
than the new one up by one place, and `insert_element` copies the new one to the place that is left.
In between one element is there twice and the new one is in `tmp` only.

`shift_spec` says where every element is after the inner loop, `insert_spec` what one round of the
outer loop does to the elements, and `qsort_sorts` follows by induction on the rounds.
-/

namespace Stuos.Libc

open Stuos.Lib

section

variable (compar : List UInt8 → List UInt8 → Int) (arr size : Nat)

/-! ### The source -/

/-- The bytes of the element `k`. -/
def element (m : Mem) (k : Nat) : List UInt8 := m.read (arr + k * size) size

/-- The inner loop from `j` on; it ends with the place that is left. -/
def shift (tmp : List UInt8) : Nat → Mem → Nat × Mem
  | 0, m => (0, m)
  | j + 1, m =>
    if compar (element arr size m j) tmp > 0 then
      shift tmp j (m.write (arr + (j + 1) * size) (element arr size m j))
    else (j + 1, m)

/-- A round of the outer loop. -/
def insert_element (m : Mem) (i : Nat) : Mem :=
  let tmp := element arr size m i
  let (j, m) := shift compar arr size tmp i m
  m.write (arr + j * size) tmp

/-- The rounds from 1 to `nmemb`. -/
def qsort (nmemb : Nat) (m : Mem) : Mem :=
  (List.range' 1 (nmemb - 1)).foldl (insert_element compar arr size) m

end

section

variable {compar : List UInt8 → List UInt8 → Int} {arr size : Nat} {m : Mem}

/-! ### Elements -/

@[simp] theorem element_length (m : Mem) (k : Nat) : (element arr size m k).length = size :=
  Mem.read_length m _ _

theorem element_write_self {bs : List UInt8} (hbs : bs.length = size) (m : Mem) (k : Nat) :
    element arr size (m.write (arr + k * size) bs) k = bs := by
  rw [element, ← hbs, Mem.read_write_self]

theorem element_write_of_ne {bs : List UInt8} (hbs : bs.length = size) (m : Mem) {k j : Nat}
    (h : k ≠ j) : element arr size (m.write (arr + j * size) bs) k = element arr size m k := by
  refine Mem.read_write_of_disjoint m bs ?_
  rcases Nat.lt_or_gt_of_ne h with hlt | hlt
  · left
    have := Nat.mul_le_mul_right size (Nat.succ_le_of_lt hlt)
    rw [Nat.succ_mul] at this
    omega
  · right
    have := Nat.mul_le_mul_right size (Nat.succ_le_of_lt hlt)
    rw [Nat.succ_mul] at this
    omega

/-- The first `n` elements. -/
def elements (arr size : Nat) (m : Mem) (n : Nat) : List (List UInt8) :=
  (List.range n).map (element arr size m)

@[simp] theorem elements_length (m : Mem) (n : Nat) : (elements arr size m n).length = n := by
  simp [elements]

theorem elements_getElem? (m : Mem) (n k : Nat) :
    (elements arr size m n)[k]? = if k < n then some (element arr size m k) else none := by
  by_cases h : k < n
  · simp [elements, h]
  · rw [if_neg h, List.getElem?_eq_none (by rw [elements_length]; omega)]

theorem elements_succ (m : Mem) (n : Nat) :
    elements arr size m (n + 1) = elements arr size m n ++ [element arr size m n] := by
  rw [elements, List.range_succ, List.map_append]
  rfl

/-! ### One round -/

/-- **The inner loop** moves the elements from `p` on up by one place. -/
structure Shifted (compar : List UInt8 → List UInt8 → Int) (arr size : Nat) (tmp : List UInt8)
    (j : Nat) (m : Mem) (p : Nat) (m' : Mem) : Prop where
  place_le : p ≤ j
  below : ∀ k ≤ p, k ≤ j → element arr size m' k = element arr size m k
  moved : ∀ k, p ≤ k → k < j → element arr size m' (k + 1) = element arr size m k
  above : ∀ k, j < k → element arr size m' k = element arr size m k
  greater : ∀ k, p ≤ k → k < j → compar (element arr size m k) tmp > 0
  not_greater : ∀ k, p = k + 1 → ¬ compar (element arr size m k) tmp > 0
  outside : ∀ a, a < arr ∨ arr + (j + 1) * size ≤ a → m' a = m a

theorem shift_spec (compar : List UInt8 → List UInt8 → Int) (arr size : Nat) (tmp : List UInt8)
    (j : Nat) (m : Mem) :
    Shifted compar arr size tmp j m (shift compar arr size tmp j m).1
      (shift compar arr size tmp j m).2 := by
  induction j generalizing m with
  | zero =>
    rw [shift]
    exact ⟨le_rfl, fun _ _ _ => rfl, fun _ _ h => absurd h (Nat.not_lt_zero _), fun _ _ => rfl,
      fun _ _ h => absurd h (Nat.not_lt_zero _), fun _ h => absurd h (by omega), fun _ _ => rfl⟩
  | succ j ih =>
    rw [shift]
    by_cases hgt : compar (element arr size m j) tmp > 0
    · rw [if_pos hgt]
      have hlen : (element arr size m j).length = size := element_length m j
      have hself : element arr size (m.write (arr + (j + 1) * size) (element arr size m j)) (j + 1) =
          element arr size m j := element_write_self hlen m (j + 1)
      have hother (k : Nat) (hk : k ≠ j + 1) :
          element arr size (m.write (arr + (j + 1) * size) (element arr size m j)) k =
            element arr size m k := element_write_of_ne hlen m hk
      obtain ⟨hle, hbelow, hmoved, habove, hgreater, hnot, hout⟩ :=
        ih (m.write (arr + (j + 1) * size) (element arr size m j))
      refine ⟨by omega, ?_, ?_, ?_, ?_, ?_, ?_⟩
      · intro k hk _
        rw [hbelow k hk (by omega), hother k (by omega)]
      · intro k hk hkj
        rcases Nat.lt_or_ge k j with hlt | hge
        · rw [hmoved k hk hlt, hother k (by omega)]
        · obtain rfl : k = j := by omega
          rw [habove (k + 1) (by omega), hself]
      · intro k hk
        rw [habove k (by omega), hother k (by omega)]
      · intro k hk hkj
        rcases Nat.lt_or_ge k j with hlt | hge
        · have := hgreater k hk hlt
          rwa [hother k (by omega)] at this
        · obtain rfl : k = j := by omega
          exact hgt
      · intro k hk
        have := hnot k hk
        rwa [hother k (by omega)] at this
      · intro a ha
        rw [Nat.succ_mul (j + 1)] at ha
        rw [hout a (by omega)]
        rcases ha with ha | ha
        · exact Mem.write_of_lt m _ (by omega)
        · exact Mem.write_of_ge m _ (by rw [hlen]; omega)
    · rw [if_neg hgt]
      refine ⟨le_rfl, fun _ _ _ => rfl, fun k h1 h2 => absurd h1 (by omega), fun _ _ => rfl,
        fun k h1 h2 => absurd h1 (by omega), ?_, fun _ _ => rfl⟩
      intro k hk
      obtain rfl : k = j := by omega
      exact hgt

namespace Shifted

variable {tmp : List UInt8} {i p : Nat} {m' : Mem}

/-- **The new element in the place that is left.** -/
theorem elements_write (h : Shifted compar arr size tmp i m p m') (htmp : tmp.length = size) :
    elements arr size (m'.write (arr + p * size) tmp) (i + 1) =
      (elements arr size m i).take p ++ tmp :: (elements arr size m i).drop p := by
  have hle := h.place_le
  have hother (k : Nat) (hk : k ≠ p) :
      element arr size (m'.write (arr + p * size) tmp) k = element arr size m' k :=
    element_write_of_ne htmp m' hk
  have htake : ((elements arr size m i).take p).length = p := by
    rw [List.length_take, elements_length]
    omega
  apply List.ext_getElem?
  intro k
  rw [elements_getElem?, List.getElem?_append, htake, List.getElem?_take]
  rcases Nat.lt_trichotomy k p with hlt | rfl | hgt
  · rw [if_pos (by omega), if_pos hlt, if_pos hlt, elements_getElem?, if_pos (by omega),
      hother k (by omega), h.below k (by omega) (by omega)]
  · rw [if_pos (by omega), if_neg (Nat.lt_irrefl _), Nat.sub_self, List.getElem?_cons_zero,
      element_write_self htmp]
  · obtain ⟨d, rfl⟩ : ∃ d, k = p + d + 1 := ⟨k - p - 1, by omega⟩
    rw [if_neg (show ¬ p + d + 1 < p by omega), show p + d + 1 - p = d + 1 by omega,
      List.getElem?_cons_succ, List.getElem?_drop, elements_getElem?]
    by_cases hi : p + d + 1 < i + 1
    · rw [if_pos hi, if_pos (by omega), hother _ (by omega), h.moved _ (by omega) (by omega)]
    · rw [if_neg hi, if_neg (by omega)]

theorem back_greater (h : Shifted compar arr size tmp i m p m') :
    ∀ a ∈ (elements arr size m i).drop p, compar a tmp > 0 := by
  intro a ha
  obtain ⟨d, hd⟩ := List.mem_iff_getElem?.mp ha
  rw [List.getElem?_drop, elements_getElem?] at hd
  split at hd
  · rename_i hlt
    rw [← Option.some.inj hd]
    exact h.greater _ (by omega) hlt
  · cases hd

theorem front_not_greater (h : Shifted compar arr size tmp i m p m') :
    ∀ a ∈ ((elements arr size m i).take p).getLast?, ¬ compar a tmp > 0 := by
  intro a ha
  have hle := h.place_le
  cases p with
  | zero => rw [List.take_zero] at ha; cases ha
  | succ q =>
    rw [Option.mem_def, List.getLast?_take, if_neg (by omega), Nat.add_sub_cancel,
      elements_getElem?, if_pos (by omega), Option.some_or, Option.some.injEq] at ha
    rw [← ha]
    exact h.not_greater q rfl

theorem write_outside (h : Shifted compar arr size tmp i m p m') (htmp : tmp.length = size) :
    ∀ a, a < arr ∨ arr + (i + 1) * size ≤ a → m'.write (arr + p * size) tmp a = m a := by
  intro a ha
  have hle := h.place_le
  have hmul := Nat.mul_le_mul_right size (show p + 1 ≤ i + 1 by omega)
  rw [Nat.succ_mul p] at hmul
  rw [← h.outside a ha]
  rcases ha with ha | ha
  · exact Mem.write_of_lt m' _ (by omega)
  · exact Mem.write_of_ge m' _ (by omega)

end Shifted

/-- **A round of the outer loop** puts the next element behind the last that is not greater. -/
theorem insert_spec (compar : List UInt8 → List UInt8 → Int) (arr size : Nat) (m : Mem) (i : Nat) :
    ∃ front back, elements arr size m i = front ++ back ∧
      elements arr size (insert_element compar arr size m i) (i + 1) =
        front ++ element arr size m i :: back ∧
      (∀ a ∈ back, compar a (element arr size m i) > 0) ∧
      (∀ a ∈ front.getLast?, ¬ compar a (element arr size m i) > 0) ∧
      (∀ k, i < k → element arr size (insert_element compar arr size m i) k =
        element arr size m k) ∧
      ∀ a, a < arr ∨ arr + (i + 1) * size ≤ a → insert_element compar arr size m i a = m a := by
  have hlen : (element arr size m i).length = size := element_length m i
  have hshift := shift_spec compar arr size (element arr size m i) i m
  have hle := hshift.place_le
  refine ⟨_, _, (List.take_append_drop _ _).symm, hshift.elements_write hlen, hshift.back_greater,
    hshift.front_not_greater, ?_, hshift.write_outside hlen⟩
  intro k hk
  rw [← hshift.above k hk]
  exact element_write_of_ne hlen _ (by omega)

/-! ### The result -/

/-- The order of the comparator. -/
def Below (compar : List UInt8 → List UInt8 → Int) (a b : List UInt8) : Prop := compar a b ≤ 0

instance (compar : List UInt8 → List UInt8 → Int) : DecidableRel (Below compar) :=
  fun a b => inferInstanceAs (Decidable (compar a b ≤ 0))

theorem mem_elements {n k : Nat} (h : k < n) : element arr size m k ∈ elements arr size m n :=
  List.mem_map.mpr ⟨k, List.mem_range.mpr h, rfl⟩

theorem elements_subset {n n' : Nat} (h : n ≤ n') :
    ∀ a ∈ elements arr size m n, a ∈ elements arr size m n' := by
  intro a ha
  obtain ⟨k, hk, rfl⟩ := List.mem_map.mp ha
  exact mem_elements (by rw [List.mem_range] at hk; omega)

/-- **The invariant of the outer loop**: the elements in front are sorted, the others and the rest of
the memory are as they were. -/
theorem rounds_spec {nmemb : Nat}
    (h : PreorderOn (Below compar) (elements arr size m nmemb)) (n : Nat) (hn : n < nmemb) :
    StableSort (Below compar) (elements arr size m nmemb) (elements arr size m (n + 1))
      (elements arr size ((List.range' 1 n).foldl (insert_element compar arr size) m) (n + 1)) ∧
    (∀ k, n < k → element arr size ((List.range' 1 n).foldl (insert_element compar arr size) m) k =
      element arr size m k) ∧
    ∀ a, a < arr ∨ arr + (n + 1) * size ≤ a →
      (List.range' 1 n).foldl (insert_element compar arr size) m a = m a := by
  induction n with
  | zero => exact ⟨stableSort_singleton _ _, fun _ _ => rfl, fun _ _ => rfl⟩
  | succ n ih =>
    obtain ⟨hsort, hrest, hout⟩ := ih (by omega)
    rw [List.range'_1_concat, List.foldl_append, List.foldl_cons, List.foldl_nil, Nat.add_comm 1 n]
    generalize (List.range' 1 n).foldl (insert_element compar arr size) m = m₁ at *
    obtain ⟨front, back, hsplit, hinsert, hback, hfront, habove, hout'⟩ :=
      insert_spec compar arr size m₁ (n + 1)
    rw [hsplit] at hsort
    rw [hrest (n + 1) (by omega)] at hinsert hback hfront
    refine ⟨?_, ?_, ?_⟩
    · rw [hinsert, elements_succ m (n + 1)]
      refine hsort.insert h (elements_subset (by omega)) (mem_elements hn) ?_ ?_
      · intro a ha
        exact not_le.mpr (hback a ha)
      · intro a ha
        exact not_lt.mp (hfront a ha)
    · intro k hk
      rw [habove k hk, hrest k (by omega)]
    · intro a ha
      have hmul := Nat.mul_le_mul_right size (show n + 1 ≤ n + 1 + 1 by omega)
      rw [hout' a ha, hout a (by omega)]

/-- **`qsort` sorts stably**: the elements are permuted, each is below those behind it, elements
that compare equal keep their order, and no byte outside the array changes. -/
theorem qsort_sorts (compar : List UInt8 → List UInt8 → Int) (arr size nmemb : Nat) (m : Mem)
    (h : PreorderOn (Below compar) (elements arr size m nmemb)) :
    (elements arr size (qsort compar arr size nmemb m) nmemb).Perm (elements arr size m nmemb) ∧
    (elements arr size (qsort compar arr size nmemb m) nmemb).Pairwise
      (fun a b => compar a b ≤ 0) ∧
    (∀ a ∈ elements arr size m nmemb,
      (elements arr size (qsort compar arr size nmemb m) nmemb).filter (Alike (Below compar) a ·) =
        (elements arr size m nmemb).filter (Alike (Below compar) a ·)) ∧
    ∀ a, a < arr ∨ arr + nmemb * size ≤ a → qsort compar arr size nmemb m a = m a := by
  cases nmemb with
  | zero => exact ⟨List.Perm.nil, List.Pairwise.nil, fun _ _ => rfl, fun _ _ => rfl⟩
  | succ n =>
    obtain ⟨⟨hperm, hsorted, hstable⟩, -, hout⟩ := rounds_spec h n (Nat.lt_succ_self n)
    exact ⟨hperm, hsorted, hstable, hout⟩

end

/-- Bytes compared without their lowest bit. -/
def comparHalves (a b : List UInt8) : Int := (a.headD 0).toNat / 2 - (b.headD 0).toNat / 2

/-- The bytes 3, 1, 2, 0, and no more. -/
def fourBytes : Mem := Mem.write (fun _ => 0) 0 [3, 1, 2, 0]

theorem qsort_sorts_fourBytes :
    (elements 0 1 (qsort comparHalves 0 1 4 fourBytes) 4).Pairwise
      (fun a b => comparHalves a b ≤ 0) := by
  refine (qsort_sorts comparHalves 0 1 4 fourBytes ⟨?_, ?_⟩).2.1
  · intro a _ b _
    simp only [Below, comparHalves]
    omega
  · intro a _ b _ c _ hab hbc
    simp only [Below, comparHalves] at *
    omega

end Stuos.Libc
