import Stuos.Elf.Image

/-!
# The block of arguments

What `setup_args_for_new_process` leaves in the pages that it has allocated.  The size of the block
counts a string with its zero, but the cursor that puts the strings in steps over one byte more, so
that the last strings can come out behind the pages.

* `argument_block_iff`: all stores are to the pages, and the array and the strings are laid out in
  them, if and only if the list of arguments `Fits`.
* `argument_block_last_zero`: two strings, the zero of the second of which is behind the page.
-/

namespace Stuos.Elf

open Stuos.Lib Stuos.Memory

/-! ### Stores -/

/-- One store: a first address and the bytes. -/
structure Store where
  start : Nat
  bytes : List UInt8

/-- The bytes are at an address of an address space. -/
def HoldsBytes (m : Machine) (root a : Nat) (bytes : List UInt8) : Prop :=
  ∀ i < bytes.length, byteAt m root (a + i) = bytes[i]?

namespace Store

def run (m : Machine) (w : Store) : Except Halt Machine := storeBytes m w.start w.bytes

/-- All bytes are stored to `[s, e)`. -/
def Within (s e : Nat) (w : Store) : Prop :=
  ∀ i < w.bytes.length, s ≤ u64 (w.start + i) ∧ u64 (w.start + i) < e

/-- The store is to `[s, e)`, and does not wrap. -/
def Inside (s e : Nat) (w : Store) : Prop := s ≤ w.start ∧ w.start + w.bytes.length ≤ e

/-- Stores to different addresses. -/
def Apart (w w' : Store) : Prop :=
  w.start + w.bytes.length ≤ w'.start ∨ w'.start + w'.bytes.length ≤ w.start

end Store

/-- The stores that are made: all of them, or those up to the first that faults, which is not made in
full. -/
def issued (m : Machine) : List Store → List Store
  | [] => []
  | w :: ws =>
    match w.run m with
    | .ok m => w :: issued m ws
    | .error _ => [w]

/-- The stores of the loop over the arguments. -/
def stringStores (a : Nat) : Nat → Nat → List (List UInt8) → List Store
  | _, _, [] => []
  | i, currOffset, arg :: argv =>
    ⟨u64 (a + 8 * i), leBytes 8 currOffset⟩ :: ⟨currOffset, arg ++ [0]⟩ ::
      stringStores a (i + 1) (u64 (currOffset + (arg.length + 2))) argv

/-- The stores of `setup_args_for_new_process`, in their order. -/
def argStores (a : Nat) (argv : List (List UInt8)) : List Store :=
  stringStores a 0 (u64 (a + (argv.length + 1) * 8)) argv ++
    [⟨u64 (a + 8 * argv.length), leBytes 8 0⟩]

/-- The pages for the arguments are found at `a` and allocated. -/
def Placed (l : Loader) (argv : List (List UInt8)) (a : Nat) (l₁ : Loader) : Prop :=
  ∃ regions, findContiguousVirtualRange l.regions (argsBytes argv) = .ok (a, regions) ∧
    Loader.allocateVirtualRange ⟨l.machine, regions⟩ a (u64 (a + argsBytes argv)) false = .ok l₁

/-- **The block**: an array of pointers with a null pointer behind them, and the strings, each with
a zero at its end, behind the array, in different places and in the pages of the block. -/
structure ArgumentBlock (argv : List (List UInt8)) (a : Nat) (pointer : Nat → Nat) (m : Machine)
    (root : Nat) : Prop where
  array : ∀ i < argv.length, HoldsBytes m root (a + 8 * i) (leBytes 8 (pointer i))
  null : HoldsBytes m root (a + 8 * argv.length) (leBytes 8 0)
  strings : ∀ i arg, argv[i]? = some arg → HoldsBytes m root (pointer i) (arg ++ [0])
  behind : ∀ i arg, argv[i]? = some arg →
    a + 8 * (argv.length + 1) ≤ pointer i ∧ pointer i + (arg.length + 1) ≤ a + argsBytes argv
  apart : ∀ i j arg arg', argv[i]? = some arg → argv[j]? = some arg' → i ≠ j →
    pointer i + (arg.length + 1) ≤ pointer j ∨ pointer j + (arg'.length + 1) ≤ pointer i

variable {live kernel : List Nat} {root s e a : Nat} {m₀ m m' : Machine} {l l₁ : Loader}
  {argv : List (List UInt8)} {w : Store} {ws : List Store}

theorem storeArgs_eq (argv : List (List UInt8)) (i o : Nat) (m : Machine) :
    storeArgs a i o argv m = (stringStores a i o argv).foldlM Store.run m := by
  induction argv generalizing i o m with
  | nil => rfl
  | cons arg argv ih =>
    rw [stringStores, List.foldlM_cons, storeArgs]
    refine bind_congr fun m₁ => ?_
    rw [List.foldlM_cons]
    exact bind_congr fun m₂ => ih _ _ m₂

/-- **The function is its stores**, once the pages are there. -/
theorem setupArgs_eq (hp : Placed l argv a l₁) :
    setupArgsForNewProcess l argv = (argStores a argv).foldlM Store.run l₁.machine >>= fun m =>
      .ok (argv.length, a, ⟨m, l₁.regions⟩) := by
  obtain ⟨regions, hfind, hal⟩ := hp
  rw [setupArgsForNewProcess, hfind, ok_bind]
  dsimp only
  rw [hal, ok_bind, storeArgs_eq, argStores, List.foldlM_append, bind_assoc]
  refine bind_congr fun m₁ => ?_
  rw [List.foldlM_cons, bind_assoc]
  rfl

theorem stores_error {halt : Halt} (h : ws.foldlM Store.run m = .error halt) :
    halt = .pageFault := by
  induction ws generalizing m with
  | nil => cases h
  | cons w ws ih =>
    rw [List.foldlM_cons, bind_eq_error] at h
    rcases h with h | ⟨m₁, -, h⟩
    · exact storeBytes_error h
    · exact ih h

theorem mem_of_mem_issued (h : w ∈ issued m ws) : w ∈ ws := by
  induction ws generalizing m with
  | nil => cases h
  | cons w' ws ih =>
    rw [issued] at h
    split at h
    · rcases List.mem_cons.mp h with rfl | h
      · exact List.mem_cons_self
      · exact List.mem_cons_of_mem _ (ih h)
    · obtain rfl := List.mem_singleton.mp h
      exact List.mem_cons_self

theorem mem_issued_head : w ∈ issued m (w :: ws) := by
  rw [issued]
  split <;> simp

theorem Store.Inside.within (h : w.Inside s e) (he : e ≤ 2 ^ 47) : w.Within s e := by
  obtain ⟨h1, h2⟩ := h
  intro i hi
  rw [u64_of_lt (by omega)]
  omega

theorem Store.Within.inside (h : w.Within s e) (he : e ≤ 2 ^ 47) (hstart : w.start < 2 ^ 64)
    (hne : w.bytes ≠ []) : w.Inside s e := by
  have hpos : 0 < w.bytes.length := List.length_pos_of_ne_nil hne
  have hlt : ∀ i < w.bytes.length, w.start + i < e := by
    intro i
    induction i with
    | zero =>
      intro hi
      have := (h 0 hi).2
      rwa [Nat.add_zero, u64_of_lt hstart] at this
    | succ i ih =>
      intro hi
      have hprev := ih (by omega)
      have := (h (i + 1) hi).2
      rwa [u64_of_lt (by omega)] at this
  have h0 := (h 0 hpos).1
  rw [Nat.add_zero, u64_of_lt hstart] at h0
  have hlast := hlt (w.bytes.length - 1) (by omega)
  exact ⟨h0, by omega⟩

theorem stringStores_wf {i o : Nat} (ho : o < 2 ^ 64) (hw : w ∈ stringStores a i o argv) :
    w.start < 2 ^ 64 ∧ w.bytes ≠ [] := by
  induction argv generalizing i o with
  | nil => cases hw
  | cons arg argv ih =>
    rw [stringStores, List.mem_cons, List.mem_cons] at hw
    rcases hw with rfl | rfl | hw
    · exact ⟨u64_lt _, by simp [leBytes]⟩
    · exact ⟨ho, by simp⟩
    · exact ih (u64_lt _) hw

theorem argStores_wf (hw : w ∈ argStores a argv) : w.start < 2 ^ 64 ∧ w.bytes ≠ [] := by
  rcases List.mem_append.mp hw with hw | hw
  · exact stringStores_wf (u64_lt _) hw
  · obtain rfl := List.mem_singleton.mp hw
    exact ⟨u64_lt _, by simp [leBytes]⟩

/-! ### Stores to what is allocated -/

/-- **Stores in different places** of what is allocated are all there in the end. -/
theorem stores_spec (ws : List Store) (hinv : Loader.Inv live kernel root m₀ l) (he : e ≤ 2 ^ 47)
    (hall : ∀ x, s ≤ x → x < e → Allocated l.regions x) (hin : ∀ w ∈ ws, w.Inside s e)
    (hapart : ws.Pairwise Store.Apart) :
    ∃ m, ws.foldlM Store.run l.machine = .ok m ∧
      (∀ w ∈ ws, HoldsBytes m root w.start w.bytes) ∧
      ∀ x < 2 ^ 47, (∀ w ∈ ws, ¬ (w.start ≤ x ∧ x < w.start + w.bytes.length)) →
        byteAt m root x = byteAt l.machine root x := by
  induction ws generalizing l with
  | nil => exact ⟨l.machine, rfl, by simp, fun _ _ _ => rfl⟩
  | cons w ws ih =>
    obtain ⟨hhead, hapart⟩ := List.pairwise_cons.mp hapart
    obtain ⟨hw1, hw2⟩ := hin w List.mem_cons_self
    obtain ⟨m₁, he1, hinv1, hb1⟩ := Loader.store_spec w.bytes hinv (a := w.start)
      (fun x hge hlt => hall x (by omega) (by omega)) (by omega)
    obtain ⟨m₂, he2, hheld, hout⟩ :=
      ih hinv1 hall (fun w' hw' => hin w' (List.mem_cons_of_mem _ hw')) hapart
    refine ⟨m₂, ?_, fun w' hw' => ?_, fun x hx hno => ?_⟩
    · rw [List.foldlM_cons, Store.run, he1, ok_bind]
      exact he2
    · rcases List.mem_cons.mp hw' with rfl | hw'
      · -- the later stores are elsewhere
        intro i hi
        rw [hout (w'.start + i) (by omega) fun w'' hw'' hx => ?_]
        · dsimp only
          rw [hb1 _ (by omega), if_pos (by omega), Nat.add_sub_cancel_left]
        · rcases hhead w'' hw'' with h | h <;> omega
      · exact hheld w' hw'
    · rw [hout x hx fun w' hw' => hno w' (List.mem_cons_of_mem _ hw')]
      dsimp only
      rw [hb1 x hx, if_neg (hno w List.mem_cons_self)]

theorem inside_of_issued (hinv : Loader.Inv live kernel root m₀ l) (he : e ≤ 2 ^ 47)
    (hall : ∀ x, s ≤ x → x < e → Allocated l.regions x)
    (hwf : ∀ w ∈ ws, w.start < 2 ^ 64 ∧ w.bytes ≠ [])
    (hissued : ∀ w ∈ issued l.machine ws, w.Within s e) : ∀ w ∈ ws, w.Inside s e := by
  induction ws generalizing l with
  | nil => simp
  | cons w ws ih =>
    obtain ⟨hstart, hne⟩ := hwf w List.mem_cons_self
    have hw : w.Inside s e := (hissued w mem_issued_head).inside he hstart hne
    obtain ⟨hw1, hw2⟩ := hw
    obtain ⟨m₁, he1, hinv1, -⟩ := Loader.store_spec w.bytes hinv (a := w.start)
      (fun x hge hlt => hall x (by omega) (by omega)) (by omega)
    have hrun : w.run l.machine = .ok m₁ := he1
    rw [issued, hrun] at hissued
    intro w' hw'
    rcases List.mem_cons.mp hw' with rfl | hw'
    · exact ⟨hw1, hw2⟩
    · exact ih hinv1 hall (fun w'' hw'' => hwf w'' (List.mem_cons_of_mem _ hw''))
        (fun w'' hw'' => hissued w'' (List.mem_cons_of_mem _ hw'')) w' hw'

/-! ### Where the strings are -/

/-- Where the string `i` is put, if the first is put to `o`. -/
def stringAt (o : Nat) (argv : List (List UInt8)) (i : Nat) : Nat :=
  o + ((argv.take i).map fun arg => arg.length + 2).sum

@[simp] theorem stringAt_zero (o : Nat) (argv : List (List UInt8)) : stringAt o argv 0 = o := by
  simp [stringAt]

theorem stringAt_cons (o : Nat) (arg : List UInt8) (argv : List (List UInt8)) (i : Nat) :
    stringAt o (arg :: argv) (i + 1) = stringAt (o + (arg.length + 2)) argv i := by
  simp only [stringAt, List.take_succ_cons, List.map_cons, List.sum_cons]
  omega

theorem le_stringAt (o : Nat) (argv : List (List UInt8)) (i : Nat) : o ≤ stringAt o argv i :=
  Nat.le_add_right _ _

theorem stringAt_lt {o i j : Nat} {arg : List UInt8} (hi : argv[i]? = some arg) (hij : i < j) :
    stringAt o argv i + (arg.length + 2) ≤ stringAt o argv j := by
  induction argv generalizing o i j with
  | nil => cases hi
  | cons arg' argv ih =>
    obtain ⟨j, rfl⟩ := Nat.exists_eq_add_of_lt (Nat.zero_lt_of_lt hij)
    rw [Nat.zero_add, stringAt_cons]
    cases i with
    | zero =>
      obtain rfl := Option.some.inj hi
      rw [stringAt_zero]
      exact le_stringAt _ _ _
    | succ i =>
      rw [stringAt_cons]
      exact ih hi (by omega)

theorem stringAt_length (o : Nat) (argv : List (List UInt8)) :
    stringAt o argv argv.length = o + (argv.map fun arg => arg.length + 2).sum := by
  rw [stringAt, List.take_length]

theorem stringStores_range {i o : Nat}
    (hfits : o + (argv.map fun arg => arg.length + 2).sum < 2 ^ 64)
    (harray : a + 8 * (i + argv.length) < 2 ^ 64) (hw : w ∈ stringStores a i o argv) :
    w.Inside (a + 8 * i) (a + 8 * (i + argv.length)) ∨
      o ≤ w.start ∧
        w.start + w.bytes.length < o + (argv.map fun arg => arg.length + 2).sum := by
  induction argv generalizing i o with
  | nil => cases hw
  | cons arg argv ih =>
    rw [List.map_cons, List.sum_cons] at hfits ⊢
    rw [List.length_cons] at harray ⊢
    rw [stringStores, u64_of_lt (by omega), u64_of_lt (by omega), List.mem_cons,
      List.mem_cons] at hw
    rcases hw with rfl | rfl | hw
    · left
      refine ⟨le_refl _, ?_⟩
      dsimp only
      rw [leBytes_length]
      omega
    · right
      refine ⟨le_refl _, ?_⟩
      dsimp only
      rw [List.length_append, List.length_singleton]
      omega
    · rcases ih (by omega) (by omega) hw with ⟨h1, h2⟩ | ⟨h1, h2⟩
      · exact Or.inl ⟨by omega, by omega⟩
      · exact Or.inr ⟨by omega, by omega⟩

/-- **The stores are in different places** if the strings are put behind the array. -/
theorem stringStores_apart {i o : Nat}
    (hfits : o + (argv.map fun arg => arg.length + 2).sum < 2 ^ 64)
    (ho : a + 8 * (i + argv.length) ≤ o) : (stringStores a i o argv).Pairwise Store.Apart := by
  induction argv generalizing i o with
  | nil => exact List.Pairwise.nil
  | cons arg argv ih =>
    rw [List.map_cons, List.sum_cons] at hfits
    rw [List.length_cons] at ho
    rw [stringStores, u64_of_lt (by omega), u64_of_lt (by omega)]
    have hlen : (leBytes 8 o).length = 8 := leBytes_length _ _
    have hlen' : (arg ++ [0]).length = arg.length + 1 := by simp
    have hrest : ∀ w ∈ stringStores a (i + 1) (o + (arg.length + 2)) argv,
        w.Inside (a + 8 * (i + 1)) (a + 8 * (i + 1 + argv.length)) ∨
          o + (arg.length + 2) ≤ w.start := fun w hw =>
      (stringStores_range (by omega) (by omega) hw).imp_right And.left
    refine List.pairwise_cons.mpr ⟨fun w hw => ?_, List.pairwise_cons.mpr ⟨fun w hw => ?_, ?_⟩⟩
    · unfold Store.Apart
      dsimp only
      rcases List.mem_cons.mp hw with rfl | hw
      · left
        dsimp only
        omega
      · rcases hrest w hw with ⟨h1, -⟩ | h1 <;> omega
    · unfold Store.Apart
      dsimp only
      rcases hrest w hw with ⟨-, h1⟩ | h1 <;> omega
    · exact ih (by omega) (by omega)

theorem mem_stringStores {i o j : Nat} {arg : List UInt8}
    (hfits : o + (argv.map fun arg => arg.length + 2).sum < 2 ^ 64)
    (harray : a + 8 * (i + argv.length) < 2 ^ 64) (hj : argv[j]? = some arg) :
    ⟨a + 8 * (i + j), leBytes 8 (stringAt o argv j)⟩ ∈ stringStores a i o argv ∧
      ⟨stringAt o argv j, arg ++ [0]⟩ ∈ stringStores a i o argv := by
  induction argv generalizing i o j with
  | nil => cases hj
  | cons arg' argv ih =>
    rw [List.map_cons, List.sum_cons] at hfits
    rw [List.length_cons] at harray
    rw [stringStores, u64_of_lt (by omega), u64_of_lt (by omega)]
    cases j with
    | zero =>
      obtain rfl := Option.some.inj hj
      simp
    | succ j =>
      obtain ⟨h1, h2⟩ := ih (i := i + 1) (o := o + (arg'.length + 2)) (by omega) (by omega) hj
      rw [Nat.add_right_comm, Nat.add_assoc] at h1
      rw [stringAt_cons]
      exact ⟨List.mem_cons_of_mem _ (List.mem_cons_of_mem _ h1),
        List.mem_cons_of_mem _ (List.mem_cons_of_mem _ h2)⟩

/-! ### When the arguments fit -/

/-- **All stores are in the pages** if the arguments fit, and in different places. -/
theorem argStores_spec (hfits : Fits argv) (hhi : a + argsBytes argv ≤ 2 ^ 47) :
    (∀ w ∈ argStores a argv, w.Inside a (a + argsBytes argv)) ∧
      (argStores a argv).Pairwise Store.Apart := by
  obtain ⟨hroom, hsum⟩ := hfits.sizes
  have hlen : (leBytes 8 0).length = 8 := leBytes_length _ _
  have hrange : ∀ w ∈ stringStores a 0 (a + (argv.length + 1) * 8) argv,
      w.Inside (a + 8 * 0) (a + 8 * (0 + argv.length)) ∨ a + (argv.length + 1) * 8 ≤ w.start ∧
        w.start + w.bytes.length <
          a + (argv.length + 1) * 8 + (argv.map fun arg => arg.length + 2).sum :=
    fun w hw => stringStores_range (by omega) (by omega) hw
  rw [argStores, u64_of_lt (by omega), u64_of_lt (by omega)]
  constructor
  · intro w hw
    rcases List.mem_append.mp hw with hw | hw
    · rcases hrange w hw with ⟨h1, h2⟩ | ⟨h1, h2⟩
      · exact ⟨by omega, by omega⟩
      · exact ⟨by omega, by omega⟩
    · obtain rfl := List.mem_singleton.mp hw
      exact ⟨by dsimp only; omega, by dsimp only; omega⟩
  · refine List.pairwise_append.mpr ⟨stringStores_apart (by omega) (by omega),
      List.pairwise_singleton _ _, fun w hw w' hw' => ?_⟩
    obtain rfl := List.mem_singleton.mp hw'
    rcases hrange w hw with ⟨h1, h2⟩ | ⟨h1, h2⟩
    · left
      dsimp only
      omega
    · right
      dsimp only
      omega

theorem sum_le_of_inside {i o : Nat} (he : e ≤ 2 ^ 47) (ho : o ≤ e + 1)
    (hin : ∀ w ∈ stringStores a i o argv, w.Inside s e) :
    o + (argv.map fun arg => arg.length + 2).sum ≤ e + 1 := by
  induction argv generalizing i o with
  | nil => simpa using ho
  | cons arg argv ih =>
    rw [stringStores] at hin
    have hstring := (hin ⟨o, arg ++ [0]⟩ (by simp)).2
    dsimp only at hstring
    rw [List.length_append, List.length_singleton] at hstring
    rw [u64_of_lt (show o + (arg.length + 2) < 2 ^ 64 by omega)] at hin
    have hnext := ih (i := i + 1) (o := o + (arg.length + 2)) (by omega) fun w hw =>
      hin w (List.mem_cons_of_mem _ (List.mem_cons_of_mem _ hw))
    rw [List.map_cons, List.sum_cons]
    omega

theorem exists_mem_stringStores {i o j : Nat} (hj : j < argv.length) :
    ∃ p, ⟨u64 (a + 8 * (i + j)), leBytes 8 p⟩ ∈ stringStores a i o argv := by
  induction argv generalizing i o j with
  | nil => cases hj
  | cons arg argv ih =>
    rw [stringStores]
    cases j with
    | zero => exact ⟨o, by simp⟩
    | succ j =>
      obtain ⟨p, hp⟩ := ih (i := i + 1) (o := u64 (o + (arg.length + 2))) (j := j)
        (by simpa using hj)
      rw [Nat.add_right_comm, Nat.add_assoc] at hp
      exact ⟨p, List.mem_cons_of_mem _ (List.mem_cons_of_mem _ hp)⟩

/-- **The arguments fit** if all stores are in the pages. -/
theorem fits_of_inside (hhi : a + argsBytes argv ≤ 2 ^ 47)
    (hin : ∀ w ∈ argStores a argv, w.Inside a (a + argsBytes argv)) : Fits argv := by
  have hlen : ∀ v, (leBytes 8 v).length = 8 := leBytes_length 8
  -- otherwise the place of the array right behind the pages is stored to
  have harray : 8 * (argv.length + 1) ≤ argsBytes argv := by
    by_contra hlt
    have hdvd : 8 ∣ argsBytes argv := Nat.dvd_trans (by decide) (argsBytes_dvd argv)
    obtain ⟨k, hk⟩ := hdvd
    have hstart : u64 (a + 8 * k) = a + 8 * k := u64_of_lt (by omega)
    rcases Nat.lt_or_ge k argv.length with h | h
    · obtain ⟨p, hp⟩ := exists_mem_stringStores (a := a) (i := 0)
        (o := u64 (a + (argv.length + 1) * 8)) h
      have := (hin _ (List.mem_append_left _ hp)).2
      dsimp only at this
      rw [Nat.zero_add, hlen, hstart] at this
      omega
    · obtain rfl : k = argv.length := by omega
      have := (hin _ (List.mem_append_right _ List.mem_cons_self)).2
      dsimp only at this
      rw [hlen, hstart] at this
      omega
  have hstrings := fun w hw => hin w (List.mem_append_left _ hw)
  rw [u64_of_lt (by omega)] at hstrings
  have hsum := sum_le_of_inside hhi (by omega) hstrings
  unfold Fits
  omega

theorem Placed.spec (hinv : Loader.Inv live kernel root m₀ l) (hp : Placed l argv a l₁) :
    Loader.Inv live kernel root m₀ l₁ ∧ Loader.Adds root a (a + argsBytes argv) l l₁ := by
  obtain ⟨regions, hfind, hal⟩ := hp
  obtain ⟨a', hfind', hplace⟩ := Loader.place_spec hinv (argsBytes_lt argv)
  obtain ⟨rfl, rfl⟩ := Prod.mk.inj (Except.ok.inj (hfind.symm.trans hfind'))
  exact (hplace l₁ hal).2

theorem Placed.allocated (hinv : Loader.Inv live kernel root m₀ l) (hp : Placed l argv a l₁) :
    ∀ x, a ≤ x → x < a + argsBytes argv → Allocated l₁.regions x := fun x h1 h2 =>
  ((hp.spec hinv).2.allocated x).mpr (Or.inr ⟨h1, h2⟩)

theorem Placed.le (hinv : Loader.Inv live kernel root m₀ l) (hp : Placed l argv a l₁) :
    a + argsBytes argv ≤ 2 ^ 47 :=
  (hp.spec hinv).2.bounds.2.trans (by decide)

theorem fits_of_issued (hinv : Loader.Inv live kernel root m₀ l) (hp : Placed l argv a l₁)
    (hissued : ∀ w ∈ issued l₁.machine (argStores a argv), w.Within a (a + argsBytes argv)) :
    Fits argv :=
  fits_of_inside (hp.le hinv) (inside_of_issued (hp.spec hinv).1 (hp.le hinv) (hp.allocated hinv)
    (fun _ hw => argStores_wf hw) hissued)

/-- **The block of arguments is laid out in its pages**, and nothing else is stored to, if and only
if the arguments fit; for every list of arguments and wherever the pages are. -/
theorem argument_block_iff (hinv : Loader.Inv live kernel root m₀ l)
    (hp : Placed l argv a l₁) :
    ((∀ w ∈ issued l₁.machine (argStores a argv), w.Within a (a + argsBytes argv)) ∧
      ∃ m pointer, setupArgsForNewProcess l argv = .ok (argv.length, a, ⟨m, l₁.regions⟩) ∧
        ArgumentBlock argv a pointer m root) ↔ Fits argv := by
  have hhi := hp.le hinv
  constructor
  · rintro ⟨hissued, -⟩
    exact fits_of_issued hinv hp hissued
  · intro hfits
    obtain ⟨hroom, hsum⟩ := hfits.sizes
    obtain ⟨hin, hapart⟩ := argStores_spec hfits hhi
    refine ⟨fun w hw => (hin w (mem_of_mem_issued hw)).within hhi, ?_⟩
    obtain ⟨m, hrun, hheld, -⟩ := stores_spec (argStores a argv) (hp.spec hinv).1 hhi
      (hp.allocated hinv) hin hapart
    refine ⟨m, stringAt (a + (argv.length + 1) * 8) argv, ?_, ?_⟩
    · rw [setupArgs_eq hp, hrun, ok_bind]
    rw [argStores, u64_of_lt (by omega), u64_of_lt (by omega)] at hheld
    have hmem : ∀ i arg, argv[i]? = some arg →
        ⟨a + 8 * (0 + i), leBytes 8 (stringAt (a + (argv.length + 1) * 8) argv i)⟩ ∈
          stringStores a 0 (a + (argv.length + 1) * 8) argv ∧
        ⟨stringAt (a + (argv.length + 1) * 8) argv i, arg ++ [0]⟩ ∈
          stringStores a 0 (a + (argv.length + 1) * 8) argv :=
      fun i arg hi => mem_stringStores (by omega) (by omega) hi
    have hbehind : ∀ i arg, argv[i]? = some arg →
        stringAt (a + (argv.length + 1) * 8) argv i + (arg.length + 2) ≤
          a + (argv.length + 1) * 8 + (argv.map fun arg => arg.length + 2).sum := by
      intro i arg hi
      have hlt : i < argv.length := (List.getElem?_eq_some_iff.mp hi).1
      rw [← stringAt_length]
      exact stringAt_lt hi hlt
    refine ⟨fun i hi => ?_, ?_, fun i arg hi => ?_, fun i arg hi => ?_,
      fun i j arg arg' hi hj hne => ?_⟩
    · have h := (hmem i _ (List.getElem?_eq_getElem hi)).1
      rw [Nat.zero_add] at h
      exact hheld _ (List.mem_append_left _ h)
    · exact hheld _ (List.mem_append_right _ List.mem_cons_self)
    · exact hheld _ (List.mem_append_left _ (hmem i arg hi).2)
    · have h1 := le_stringAt (a + (argv.length + 1) * 8) argv i
      have h2 := hbehind i arg hi
      omega
    · rcases Nat.lt_or_gt_of_ne hne with hij | hij
      · have := stringAt_lt (o := a + (argv.length + 1) * 8) hi hij
        omega
      · have := stringAt_lt (o := a + (argv.length + 1) * 8) hj hij
        omega

/-! ### A new address space -/

/-- 64 pages, and no address space yet. -/
def smallMachine : Machine := ⟨fun _ _ => .ofWord 0, fun _ => false, 16, 64, 0, 0, []⟩

theorem reachable_smallMachine : spaces.Reachable ⟨smallMachine, [], []⟩ := by
  have hinit : Spaces.Init ⟨smallMachine, [], []⟩ :=
    ⟨by decide, rfl, List.nodup_nil, by simp, by simp [smallMachine],
      fun hslab => absurd hslab.1 (by decide), fun _ _ => rfl, rfl⟩
  exact .init hinit

theorem exists_placed {argv : List (List UInt8)} (h : argsBytes argv = 4096) :
    ∃ root l l₁, Loader.Inv [] [] root smallMachine l ∧ Placed l argv 0x1000 l₁ := by
  have hisok : (generateCleanVirtualAddressing smallMachine >>= fun new =>
      Loader.allocateVirtualRange ⟨new.2.setPml4Phys new.1, initialRegions⟩ 0x1000 0x2000
        false).isOk = true := by
    decide +kernel
  obtain ⟨l₁, hok⟩ := exists_of_isOk hisok
  obtain ⟨⟨root, m₁⟩, hgen, hal⟩ := bind_eq_ok.mp hok
  have hacc := (reachable_spaces_inv reachable_smallMachine).accounted
  rcases generate_spec hacc with ⟨root', m₁', hgen', hspec⟩ | ⟨hfail, -⟩
  · obtain ⟨rfl, rfl⟩ := Prod.mk.inj (Except.ok.inj (hgen.symm.trans hgen'))
    refine ⟨root, _, l₁, (Loader.Holding.of_generated hspec []).inv, initialRegions, ?_, ?_⟩
    · rw [h]
      rfl
    · rw [h]
      exact hal
  · rw [hgen] at hfail
    cases hfail

/-- One argument of one byte. -/
theorem argument_block_one_byte : ∃ root l l₁, Placed l [[0x61]] 0x1000 l₁ ∧
    ∃ m pointer, setupArgsForNewProcess l [[0x61]] = .ok (1, 0x1000, ⟨m, l₁.regions⟩) ∧
      ArgumentBlock [[0x61]] 0x1000 pointer m root := by
  obtain ⟨root, l, l₁, hinv, hp⟩ := exists_placed (show argsBytes [[0x61]] = 4096 by decide)
  exact ⟨root, l, l₁, hp, ((argument_block_iff hinv hp).mpr (by decide)).2⟩

/-- A string of 4070 bytes and an empty one: the size is that of a page, and the last zero is put
right behind it. -/
theorem argument_block_last_zero : ∃ root l l₁, Loader.Inv [] [] root smallMachine l ∧
    Placed l [List.replicate 4070 0x61, []] 0x1000 l₁ ∧
    ¬ ∀ w ∈ issued l₁.machine (argStores 0x1000 [List.replicate 4070 0x61, []]),
      w.Within 0x1000 (0x1000 + argsBytes [List.replicate 4070 0x61, []]) := by
  obtain ⟨root, l, l₁, hinv, hp⟩ :=
    exists_placed (show argsBytes [List.replicate 4070 0x61, []] = 4096 by decide +kernel)
  refine ⟨root, l, l₁, hinv, hp, fun hissued => ?_⟩
  exact absurd (fits_of_issued hinv hp hissued) (by decide +kernel)

end Stuos.Elf
