import Stuos.Lib.Bytes

/-!
# `memmove`

The library and the kernel each have a copy.  It goes through the bytes upwards if the source lies
behind the destination and downwards if it lies before it.

* `copyUp_eq`, `copyDown_eq`: what has been written so far is a part of what the source held at first,
  and what is still to be read has not been written.
* `moveBytes_eq`: so the bytes of the source are written as if they had been read all at once.
-/

namespace Stuos.Libc

open Stuos.Lib

/-! ### The source -/

/-- `pdest[i] = psrc[i]` -/
def copyByte (m : Mem) (pdest psrc i : Nat) : Mem :=
  m.write (u64 (pdest + i)) [m (u64 (psrc + i))]

/-- `for (size_t i = 0; i < n; i++)`, from `i` on with so many rounds left. -/
def copyUp (m : Mem) (pdest psrc i : Nat) : Nat → Mem
  | 0 => m
  | left + 1 => copyUp (copyByte m pdest psrc i) pdest psrc (i + 1) left

/-- `for (size_t i = n; i > 0; i--)` -/
def copyDown (m : Mem) (pdest psrc : Nat) : Nat → Mem
  | 0 => m
  | i + 1 => copyDown (copyByte m pdest psrc i) pdest psrc i

/-- The body that both have, with what it returns. -/
def moveBytes (m : Mem) (dest src n : Nat) : Nat × Mem :=
  if dest < src then (dest, copyUp m dest src 0 n)
  else if src < dest then (dest, copyDown m dest src n)
  else (dest, m)

def memmove (m : Mem) (dest src n : Nat) : Nat × Mem := moveBytes m dest src n

end Stuos.Libc

namespace Stuos.KernLibc

open Stuos.Lib

/-- The copy in `kern_libc.c`. -/
def memmove (m : Mem) (dest src n : Nat) : Nat × Mem := Libc.moveBytes m dest src n

end Stuos.KernLibc

namespace Stuos.Libc

open Stuos.Lib

/-- The bytes that were at `src` are at `dest`, and nothing else has changed. -/
def Moved (m m' : Mem) (dest src n : Nat) : Prop :=
  m'.read dest n = m.read src n ∧ ∀ a, a < dest ∨ dest + n ≤ a → m' a = m a

/-! ### One direction at a time -/

variable {dest src n : Nat}

theorem copyByte_eq (m : Mem) {i : Nat} (hd : dest + n ≤ 2 ^ 64) (hs : src + n ≤ 2 ^ 64)
    (hi : i < n) : copyByte m dest src i = m.write (dest + i) [m (src + i)] := by
  rw [copyByte, u64_of_lt (by omega), u64_of_lt (by omega)]

/-- **Upwards**: the bytes before `i` have been written, none of which is still to be read. -/
theorem copyUp_eq (m : Mem) (hd : dest + n ≤ 2 ^ 64) (hs : src + n ≤ 2 ^ 64) (h : dest < src) :
    ∀ left i, i + left = n →
      copyUp (m.write dest (m.read src i)) dest src i left = m.write dest (m.read src n) := by
  intro left
  induction left with
  | zero =>
    intro i hi
    rw [copyUp, ← hi, Nat.add_zero]
  | succ left ih =>
    intro i hi
    have hread : m.write dest (m.read src i) (src + i) = m (src + i) :=
      Mem.write_of_ge m _ (by rw [Mem.read_length]; omega)
    have hstep : copyByte (m.write dest (m.read src i)) dest src i =
        m.write dest (m.read src (i + 1)) := by
      rw [copyByte_eq _ hd hs (by omega), hread, Mem.read_succ, Mem.write_append, Mem.read_length]
    rw [copyUp, hstep, ih (i + 1) (by omega)]

/-- **Downwards**: the bytes from `i` on have been written, none of which is still to be read. -/
theorem copyDown_eq (m : Mem) (hd : dest + n ≤ 2 ^ 64) (hs : src + n ≤ 2 ^ 64) (h : src < dest) :
    ∀ i done, i + done = n →
      copyDown (m.write (dest + i) (m.read (src + i) done)) dest src i =
        m.write dest (m.read src n) := by
  intro i
  induction i with
  | zero =>
    intro done hdone
    rw [copyDown, ← hdone, Nat.zero_add]
    rfl
  | succ i ih =>
    intro done hdone
    have hread : m.write (dest + (i + 1)) (m.read (src + (i + 1)) done) (src + i) = m (src + i) :=
      Mem.write_of_lt m _ (by omega)
    have hstep : copyByte (m.write (dest + (i + 1)) (m.read (src + (i + 1)) done)) dest src i =
        m.write (dest + i) (m.read (src + i) (done + 1)) := by
      rw [copyByte_eq _ hd hs (by omega), hread, ← Nat.add_assoc, Mem.write_cons, Mem.read_cons]
      rfl
    rw [copyDown, hstep, ih (done + 1) (by omega)]

/-! ### Both together -/

/-- **`memmove` writes what it would read all at once.** -/
theorem moveBytes_eq (m : Mem) (hd : dest + n ≤ 2 ^ 64) (hs : src + n ≤ 2 ^ 64) :
    moveBytes m dest src n = (dest, m.write dest (m.read src n)) := by
  rw [moveBytes]
  split
  case isTrue h =>
    have hup := copyUp_eq m hd hs h n 0 (Nat.zero_add n)
    rw [Mem.read_zero, Mem.write_nil] at hup
    rw [hup]
  case isFalse h =>
    split
    case isTrue h' =>
      have hdown := copyDown_eq m hd hs h' n 0 (Nat.add_zero n)
      rw [Mem.read_zero, Mem.write_nil] at hdown
      rw [hdown]
    case isFalse h' =>
      obtain rfl : dest = src := by omega
      rw [Mem.write_read_self]

theorem moved_write (m : Mem) (dest src n : Nat) :
    Moved m (m.write dest (m.read src n)) dest src n := by
  have hlength : (m.read src n).length = n := Mem.read_length m src n
  have hback := Mem.read_write_self m dest (m.read src n)
  rw [hlength] at hback
  refine ⟨hback, fun a ha => ?_⟩
  rcases ha with ha | ha
  · exact Mem.write_of_lt m _ ha
  · exact Mem.write_of_ge m _ (by omega)

/-- **`memmove`**: whatever the overlap, the bytes arrive and nothing else changes, in both
copies. -/
theorem memmove_moved (m : Mem) (hd : dest + n ≤ 2 ^ 64) (hs : src + n ≤ 2 ^ 64) :
    Moved m (memmove m dest src n).2 dest src n ∧
      Moved m (KernLibc.memmove m dest src n).2 dest src n := by
  have hmoved : Moved m (moveBytes m dest src n).2 dest src n := by
    rw [moveBytes_eq m hd hs]
    exact moved_write m dest src n
  exact ⟨hmoved, hmoved⟩

/-- Three bytes moved up by one, where each read byte but the first has to be read in time. -/
theorem memmove_moved_three :
    Moved (fun a => UInt8.ofNat a) (memmove (fun a => UInt8.ofNat a) 8 7 3).2 8 7 3 ∧
      Moved (fun a => UInt8.ofNat a) (KernLibc.memmove (fun a => UInt8.ofNat a) 8 7 3).2 8 7 3 :=
  memmove_moved _ (by decide) (by decide)

end Stuos.Libc
