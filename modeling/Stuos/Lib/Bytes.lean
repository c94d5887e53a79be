import Mathlib.Algebra.Order.Ring.Int
import Mathlib.Data.List.Basic
import Mathlib.Data.List.GetD

/-!
# Byte memories

A byte memory gives every address a byte.  `read m a n` is the `n` bytes from
`a` on and `write m a bs` puts the bytes `bs` there; a memory, a disk and a
sector are all used through these two.  What the proofs need is said once here:
a write is read back (`read_write_self`), a write elsewhere is not seen
(`read_write_of_disjoint`), and consecutive reads and writes join
(`read_add`, `write_append`).

Numbers wrap at 64 bits (`u64`) and are stored little-endian: `leBytes k v` is the `k`-byte
encoding and `leVal` reads it back (`leVal_leBytes`).  `beBytes` and `beVal` have the bytes in
the other order.
-/

namespace Stuos.Lib

/-- A byte for every address. -/
abbrev Mem := Nat → UInt8

namespace Mem

/-- The `n` bytes from `a` on. -/
def read (m : Mem) (a n : Nat) : List UInt8 := (List.range n).map (fun i => m (a + i))

/-- The memory with the bytes `bs` from `a` on. -/
def write (m : Mem) (a : Nat) (bs : List UInt8) : Mem :=
  fun i => if a ≤ i ∧ i < a + bs.length then bs.getD (i - a) 0 else m i

@[simp] theorem read_length (m : Mem) (a n : Nat) : (m.read a n).length = n := by
  simp [read]

@[simp] theorem read_zero (m : Mem) (a : Nat) : m.read a 0 = [] := rfl

theorem read_getElem? (m : Mem) (a n i : Nat) :
    (m.read a n)[i]? = if i < n then some (m (a + i)) else none := by
  by_cases h : i < n
  · simp [read, h]
  · rw [if_neg h, List.getElem?_eq_none]
    simp only [read_length]
    omega

theorem read_eq_read {m m' : Mem} {a a' n : Nat} (h : ∀ i < n, m (a + i) = m' (a' + i)) :
    m.read a n = m'.read a' n := by
  apply List.ext_getElem?
  intro i
  rw [read_getElem?, read_getElem?]
  by_cases hi : i < n
  · rw [if_pos hi, if_pos hi, h i hi]
  · rw [if_neg hi, if_neg hi]

theorem read_congr {m m' : Mem} {a n : Nat} (h : ∀ i, a ≤ i → i < a + n → m i = m' i) :
    m.read a n = m'.read a n :=
  read_eq_read fun i hi => h (a + i) (Nat.le_add_right a i) (Nat.add_lt_add_left hi a)

theorem read_add (m : Mem) (a n k : Nat) :
    m.read a (n + k) = m.read a n ++ m.read (a + n) k := by
  simp [read, List.range_add, Function.comp_def, Nat.add_assoc]

theorem read_succ (m : Mem) (a n : Nat) : m.read a (n + 1) = m.read a n ++ [m (a + n)] := by
  rw [read_add]
  rfl

theorem read_cons (m : Mem) (a n : Nat) : m.read a (n + 1) = m a :: m.read (a + 1) n := by
  rw [Nat.add_comm, read_add]
  rfl

theorem take_drop_read (m : Mem) {size offset : Nat} (n : Nat) (h : offset ≤ size) :
    ((m.read 0 size).drop offset).take n = m.read offset (min n (size - offset)) := by
  obtain ⟨k, rfl⟩ := Nat.exists_eq_add_of_le h
  have hdrop : (m.read 0 (offset + k)).drop offset = m.read offset k := by
    rw [read_add, List.drop_left' (read_length m 0 offset), Nat.zero_add]
  rw [hdrop, Nat.add_sub_cancel_left, read, ← List.map_take, List.take_range]
  rfl

theorem read_eq_take_append_replicate {m m' : Mem} {size : Nat} (len : Nat)
    (h : ∀ i < size, m' i = m i) :
    m'.read 0 len = (m.read 0 size).take len ++ List.replicate (len - size) 0 ↔
      ∀ i, size ≤ i → i < len → m' i = 0 := by
  have hat : ∀ i, ((m.read 0 size).take len ++ List.replicate (len - size) 0)[i]? =
      if i < len then if i < size then some (m i) else some 0 else none := by
    intro i
    rw [List.getElem?_append, List.length_take, read_length, List.getElem?_take, read_getElem?,
      List.getElem?_replicate, Nat.zero_add]
    split <;> split <;> grind
  constructor
  · intro heq i h1 h2
    have hi := congrArg (fun bytes => bytes[i]?) heq
    simp only [read_getElem?, hat] at hi
    rw [if_pos h2, if_pos h2, if_neg (by omega), Nat.zero_add, Option.some.injEq] at hi
    exact hi
  · intro hzero
    apply List.ext_getElem?
    intro i
    rw [read_getElem?, hat, Nat.zero_add]
    by_cases h2 : i < len
    · rw [if_pos h2, if_pos h2]
      by_cases h1 : i < size
      · rw [if_pos h1, h i h1]
      · rw [if_neg h1, hzero i (by omega) h2]
    · rw [if_neg h2, if_neg h2]

theorem write_of_lt (m : Mem) {a : Nat} (bs : List UInt8) {i : Nat} (h : i < a) :
    m.write a bs i = m i := by
  rw [write, if_neg (by omega)]

theorem write_of_ge (m : Mem) {a : Nat} (bs : List UInt8) {i : Nat} (h : a + bs.length ≤ i) :
    m.write a bs i = m i := by
  rw [write, if_neg (by omega)]

theorem write_of_mem (m : Mem) {a : Nat} (bs : List UInt8) {i : Nat} (h1 : a ≤ i)
    (h2 : i < a + bs.length) : m.write a bs i = bs.getD (i - a) 0 := by
  rw [write, if_pos ⟨h1, h2⟩]

@[simp] theorem write_nil (m : Mem) (a : Nat) : m.write a [] = m := by
  funext i
  rw [write, if_neg (by simp)]

/-- **A write is read back.** -/
theorem read_write_self (m : Mem) (a : Nat) (bs : List UInt8) :
    (m.write a bs).read a bs.length = bs := by
  apply List.ext_getElem?
  intro i
  rw [read_getElem?]
  by_cases hi : i < bs.length
  · rw [if_pos hi, write_of_mem m bs (by omega) (by omega), Nat.add_sub_cancel_left,
      List.getD_eq_getElem _ _ hi, List.getElem?_eq_getElem hi]
  · rw [if_neg hi, List.getElem?_eq_none (by omega)]

theorem read_write_length (m : Mem) (a : Nat) {bs : List UInt8} {n : Nat} (h : bs.length = n) :
    (m.write a bs).read a n = bs := by
  rw [← h, read_write_self]

/-- **A write elsewhere is not seen.** -/
theorem read_write_of_disjoint (m : Mem) {a : Nat} (bs : List UInt8) {b n : Nat}
    (h : b + n ≤ a ∨ a + bs.length ≤ b) : (m.write a bs).read b n = m.read b n := by
  apply read_congr
  intro i h1 h2
  rcases h with h | h
  · exact write_of_lt m bs (by omega)
  · exact write_of_ge m bs (by omega)

theorem write_write (m : Mem) (a : Nat) {bs cs : List UInt8} (h : bs.length = cs.length) :
    (m.write a bs).write a cs = m.write a cs := by
  funext i
  by_cases hi : a ≤ i ∧ i < a + cs.length
  · rw [write, if_pos hi, write, if_pos hi]
  · rw [write, if_neg hi, write, h, if_neg hi, write, if_neg hi]

theorem write_append (m : Mem) (a : Nat) (bs cs : List UInt8) :
    m.write a (bs ++ cs) = (m.write a bs).write (a + bs.length) cs := by
  funext i
  by_cases h1 : a ≤ i ∧ i < a + bs.length
  · rw [write_of_mem m (bs ++ cs) h1.1 (by rw [List.length_append]; omega),
      write_of_lt _ cs h1.2, write_of_mem m bs h1.1 h1.2,
      List.getD_append _ _ _ _ (by omega)]
  · by_cases h2 : a + bs.length ≤ i ∧ i < a + bs.length + cs.length
    · rw [write_of_mem m (bs ++ cs) (by omega) (by rw [List.length_append]; omega),
        write_of_mem _ cs h2.1 h2.2, List.getD_append_right _ _ _ _ (by omega)]
      congr 1
      omega
    · rw [write, if_neg (by rw [List.length_append]; omega), write, if_neg h2, write, if_neg h1]

theorem write_cons (m : Mem) (a : Nat) (b : UInt8) (bs : List UInt8) :
    (m.write (a + 1) bs).write a [b] = m.write a (b :: bs) := by
  funext i
  by_cases ha : i = a
  · subst ha
    rw [write_of_mem _ [b] (Nat.le_refl i) (by simp),
      write_of_mem _ (b :: bs) (Nat.le_refl i) (by simp), Nat.sub_self]
    rfl
  · have hcons : m.write a (b :: bs) i = m.write (a + 1) bs i := by
      rw [← List.singleton_append, write_append, List.length_singleton]
      unfold write
      simp only [List.length_singleton]
      rw [if_neg (show ¬ (a ≤ i ∧ i < a + 1) by omega)]
    rw [hcons, write, if_neg (by rw [List.length_singleton]; omega)]

theorem write_read_self (m : Mem) (a n : Nat) : m.write a (m.read a n) = m := by
  funext i
  rw [write]
  split
  case isTrue h =>
    have hi := read_getElem? m a n (i - a)
    rw [read_length] at h
    rw [if_pos (by omega), Nat.add_sub_cancel' h.1] at hi
    rw [List.getD_eq_getElem?_getD, hi]
    rfl
  case isFalse h => rfl

end Mem

/-! ### Characters -/

def newline : UInt8 := 10

def toupper (c : UInt8) : UInt8 := if 97 ≤ c ∧ c ≤ 122 then c - 32 else c

/-! ### Numbers -/

/-- A value as a `uint64_t` holds it. -/
def u64 (n : Nat) : Nat := n % 2 ^ 64

theorem u64_lt (n : Nat) : u64 n < 2 ^ 64 := Nat.mod_lt _ (by decide)

theorem u64_of_lt {n : Nat} (h : n < 2 ^ 64) : u64 n = n := Nat.mod_eq_of_lt h

theorem u64_sub {a b : Nat} (hab : b ≤ a) (ha : a < 2 ^ 64) : u64 (a + 2 ^ 64 - b) = a - b := by
  rw [u64, Nat.sub_add_comm hab, Nat.add_mod_right]
  exact Nat.mod_eq_of_lt (Nat.lt_of_le_of_lt (Nat.sub_le a b) ha)

/-- The number a byte string names, least significant byte first. -/
def leVal : List UInt8 → Nat
  | [] => 0
  | b :: bs => b.toNat + 256 * leVal bs

/-- The `k` low bytes of `v`, least significant first. -/
def leBytes : Nat → Nat → List UInt8
  | 0, _ => []
  | k + 1, v => UInt8.ofNat v :: leBytes k (v / 256)

@[simp] theorem leBytes_length : ∀ k v, (leBytes k v).length = k := by
  intro k
  induction k with
  | zero => intro v; rfl
  | succ k ih => intro v; simp [leBytes, ih]

theorem leVal_lt : ∀ bs : List UInt8, leVal bs < 256 ^ bs.length := by
  intro bs
  induction bs with
  | nil => simp [leVal]
  | cons b bs ih =>
    have hb : b.toNat < 256 := b.toNat_lt
    rw [leVal, List.length_cons, Nat.pow_succ]
    omega

/-- **A number that fits its width is read back.** -/
theorem leVal_leBytes : ∀ k v, v < 256 ^ k → leVal (leBytes k v) = v := by
  intro k
  induction k with
  | zero => intro v hv; simp [leVal, leBytes] at hv ⊢; omega
  | succ k ih =>
    intro v hv
    rw [Nat.pow_succ] at hv
    rw [leBytes, leVal, ih (v / 256) (by omega), UInt8.toNat_ofNat']
    omega

theorem leVal_leBytes_mod : ∀ k v, leVal (leBytes k v) = v % 256 ^ k := by
  intro k
  induction k with
  | zero =>
    intro v
    rw [leBytes, leVal, Nat.pow_zero, Nat.mod_one]
  | succ k ih =>
    intro v
    have hpow : 256 ^ (k + 1) = 256 * 256 ^ k := Nat.pow_succ'
    rw [leBytes, leVal, ih, UInt8.toNat_ofNat', hpow, Nat.mod_mul]

theorem leBytes_leVal (bs : List UInt8) : leBytes bs.length (leVal bs) = bs := by
  induction bs with
  | nil => rfl
  | cons b bs ih =>
    have hb : b.toNat < 256 := b.toNat_lt
    have hlow : UInt8.ofNat (b.toNat + 256 * leVal bs) = b := by
      apply UInt8.toNat.inj
      rw [UInt8.toNat_ofNat']
      omega
    have hhigh : (b.toNat + 256 * leVal bs) / 256 = leVal bs := by omega
    rw [List.length_cons, leVal, leBytes, hlow, hhigh, ih]

/-- The number a byte string names, most significant byte first. -/
def beVal (bs : List UInt8) : Nat := leVal bs.reverse

/-- The `k` low bytes of `v`, most significant first. -/
def beBytes (k v : Nat) : List UInt8 := (leBytes k v).reverse

@[simp] theorem beBytes_length (k v : Nat) : (beBytes k v).length = k := by
  rw [beBytes, List.length_reverse, leBytes_length]

theorem beVal_beBytes (k v : Nat) : beVal (beBytes k v) = v % 256 ^ k := by
  rw [beVal, beBytes, List.reverse_reverse, leVal_leBytes_mod]

theorem beVal_concat (bs : List UInt8) (b : UInt8) :
    beVal (bs ++ [b]) = beVal bs * 256 + b.toNat := by
  rw [beVal, List.reverse_append, List.reverse_singleton, List.singleton_append, leVal, beVal]
  omega

theorem beVal_lt (bs : List UInt8) : beVal bs < 256 ^ bs.length := by
  have h := leVal_lt bs.reverse
  rwa [List.length_reverse] at h

end Stuos.Lib
