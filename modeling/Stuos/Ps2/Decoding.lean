import Mathlib.Data.List.Induction
import Stuos.Ps2.Driver
import Stuos.Tty.LineDiscipline

/-!
# Keys one after the other

The bytes that a set-2 keyboard sends for a key, and what the driver makes of them.
Between two keys the driver is in step: it waits for one byte and has none.

* `event_in_step`, `event_out_of_step`: the bytes of one key leave the driver in step
  exactly if the key is admitted.
* `decoding_in_step_iff`: the same for every sequence of keys.
-/

namespace Stuos.Ps2

open Stuos.Lib Stuos.Terminal

/-! ### Keys -/

/-- What a set-2 keyboard sends at a time. -/
inductive KeyEvent
  /-- a key with a code of one byte; `0x83` is F7 -/
  | make (code : { c : UInt8 // 0 < c ∧ c ≤ 0x83 })
  | break (code : { c : UInt8 // 0 < c ∧ c ≤ 0x83 })
  /-- a key with the prefix `E0` -/
  | makeExtended (code : { c : UInt8 // 0 < c ∧ c < 0x80 })
  | breakExtended (code : { c : UInt8 // 0 < c ∧ c < 0x80 })
  | printScreen
  | printScreenBreak
  /-- the Pause key has no break code -/
  | pause

def KeyEvent.bytes : KeyEvent → List UInt8
  | make c => [c.val]
  | .break c => [0xF0, c.val]
  | makeExtended c => [0xE0, c.val]
  | breakExtended c => [0xE0, 0xF0, c.val]
  | printScreen => [0xE0, 0x12, 0xE0, 0x7C]
  | printScreenBreak => [0xE0, 0xF0, 0x7C, 0xE0, 0xF0, 0x12]
  | pause => [0xE1, 0x14, 0x77, 0xE1, 0xF0, 0x14, 0xF0, 0x77]

/-- The driver is between two keys. -/
def InStep (k : Keyboard) : Prop := k.expectedNumberOfBytes = 1 ∧ k.buffer = 0

theorem bufferByte_snoc (hi : Nat) (c : UInt8) :
    bufferByte (hi * 256 + c.toNat) 0 = c ∧
      ∀ i, bufferByte (hi * 256 + c.toNat) (i + 1) = bufferByte hi i := by
  have hlt : c.toNat < 256 := c.toNat_lt
  refine ⟨?_, fun i => ?_⟩
  · apply UInt8.toNat_inj.mp
    rw [bufferByte, UInt8.toNat_ofNat', Nat.pow_zero, Nat.div_one]
    omega
  · rw [bufferByte, bufferByte, Nat.pow_succ', ← Nat.div_div_eq_div_mul]
    congr 2
    omega

section

variable {k : Keyboard} {c : UInt8}

theorem parseFullBuffer_short {hi : Nat} (hhi : hi < 2 ^ 16) (hb : k.buffer = hi * 256 + c.toNat) :
    parseFullBuffer k = (do
      let (isBreak, isExtended) ← bufferKind (hi * 256 + c.toNat)
      if isExtended = false ∧ c = capsLock then
        return (0, if isBreak then k else { k with capslock := !k.capslock })
      else if (c = leftShift ∨ c = rightShift) ∧ isExtended = false then
        return (0, { k with shift := !isBreak })
      else if isBreak then return (0, k)
      else
        ensure (c < 128) .hcf
        return (keyChar k c, k)) := by
  have hlt : c.toNat < 256 := c.toNat_lt
  have h1 : ¬ k.buffer = 0xE11477E1F014E077 := by omega
  have h2 : ¬ k.buffer = 0xE012E07C := by omega
  have h3 : ¬ k.buffer = 0xE0F07CE0F012 := by omega
  rw [parseFullBuffer, if_neg h1, if_neg h2, if_neg h3, hb, (bufferByte_snoc hi c).1]

theorem bufferKind_snoc (c : UInt8) :
    bufferKind (0 * 256 + c.toNat) = .ok (false, false) ∧
    bufferKind (0xF0 * 256 + c.toNat) = .ok (true, false) ∧
    bufferKind (0xE0 * 256 + c.toNat) = .ok (false, true) ∧
    bufferKind (0xE0F0 * 256 + c.toNat) = .ok (true, true) := by
  have hsnoc := fun hi => (bufferByte_snoc hi c).2
  simp only [bufferKind, hsnoc]
  decide

theorem keyChar_modifier (k : Keyboard) (h : c = capsLock ∨ c = leftShift ∨ c = rightShift) :
    keyChar k c = 0 := by
  obtain ⟨capslock, shift, expected, buffer⟩ := k
  rcases h with rfl | rfl | rfl <;> cases shift <;> cases capslock <;> rfl

end

/-! ### One key -/

/-- What happens to a full buffer. -/
def finish (s : Console) (data : Nat) : Except Ps2Halt Console := do
  let (c, k) ← parseFullBuffer { s.keyboard with buffer := data, expectedNumberOfBytes := 1 }
  let tty ← (ttyProvideStdin s.tty c).mapError .tty
  return { keyboard := { k with buffer := 0 }, tty }

section

variable {s s' : Console} {c : UInt8}

theorem incomingByte_code (h : s.keyboard.expectedNumberOfBytes = 1)
    (hc : c ≠ 0xE0 ∧ c ≠ 0xF0 ∧ c ≠ 0xE1) :
    incomingByte s c = finish s ((s.keyboard.buffer * 256 + c.toNat) % 2 ^ 64) := by
  have hexp : expectedAfter s.keyboard.expectedNumberOfBytes c = 0 := by
    simp only [expectedAfter, h, hc.1, hc.2.1, hc.2.2, false_or, if_false]
  simp only [incomingByte, hexp, if_true, finish]

theorem incomingByte_introducer (h : s.keyboard.expectedNumberOfBytes = 1)
    (hc : c = 0xE0 ∨ c = 0xF0) :
    incomingByte s c = .ok { s with keyboard := { s.keyboard with
      buffer := (s.keyboard.buffer * 256 + c.toNat) % 2 ^ 64 } } := by
  have hexp : expectedAfter s.keyboard.expectedNumberOfBytes c = 1 := by
    rw [h]
    rcases hc with rfl | rfl <;> rfl
  simp only [incomingByte, hexp, ← h]
  rw [if_neg (by rw [h]; decide)]
  rfl

theorem finish_setBuffer (s : Console) (b data : Nat) :
    finish { s with keyboard := { s.keyboard with buffer := b } } data = finish s data := rfl

theorem handleIncomingByte_code (hs : InStep s.keyboard) (hc : c ≠ 0xE0 ∧ c ≠ 0xF0 ∧ c ≠ 0xE1) :
    handleIncomingByte s [c] = finish s c.toNat ∧
    handleIncomingByte s [0xF0, c] = finish s (0xF0 * 256 + c.toNat) ∧
    handleIncomingByte s [0xE0, c] = finish s (0xE0 * 256 + c.toNat) ∧
    handleIncomingByte s [0xE0, 0xF0, c] = finish s (0xE0F0 * 256 + c.toNat) := by
  obtain ⟨hexp, hbuf⟩ := hs
  have hlt : c.toNat < 256 := c.toNat_lt
  have hF0 : (0xF0 : UInt8).toNat = 0xF0 := rfl
  have hE0 : (0xE0 : UInt8).toNat = 0xE0 := rfl
  simp only [handleIncomingByte, List.foldlM_cons, List.foldlM_nil, pure_eq_ok, bind_ok]
  refine ⟨?_, ?_, ?_, ?_⟩
  · have hdata : (0 * 256 + c.toNat) % 2 ^ 64 = c.toNat := by omega
    rw [incomingByte_code hexp hc, hbuf, hdata]
  · have hdata : ((0 * 256 + 0xF0) % 2 ^ 64 * 256 + c.toNat) % 2 ^ 64 = 0xF0 * 256 + c.toNat := by
      omega
    rw [incomingByte_introducer hexp (.inr rfl), ok_bind, incomingByte_code (by exact hexp) hc,
      hbuf, hF0, hdata]
    exact finish_setBuffer s _ _
  · have hdata : ((0 * 256 + 0xE0) % 2 ^ 64 * 256 + c.toNat) % 2 ^ 64 = 0xE0 * 256 + c.toNat := by
      omega
    rw [incomingByte_introducer hexp (.inl rfl), ok_bind, incomingByte_code (by exact hexp) hc,
      hbuf, hE0, hdata]
    exact finish_setBuffer s _ _
  · have hdata : (((0 * 256 + 0xE0) % 2 ^ 64 * 256 + 0xF0) % 2 ^ 64 * 256 + c.toNat) % 2 ^ 64 =
        0xE0F0 * 256 + c.toNat := by omega
    rw [incomingByte_introducer hexp (.inl rfl), ok_bind,
      incomingByte_introducer (by exact hexp) (.inr rfl), ok_bind, incomingByte_code (by exact hexp) hc,
      hbuf, hE0, hF0, hdata]
    exact (finish_setBuffer _ _ _).trans (finish_setBuffer s _ _)

/-- No code is a prefix. -/
theorem not_introducer (h : c ≤ 0x83) : c ≠ 0xE0 ∧ c ≠ 0xF0 ∧ c ≠ 0xE1 := by
  refine ⟨?_, ?_, ?_⟩ <;> rintro rfl <;> exact absurd h (by decide)

variable (hs : InStep s.keyboard) (ht : OnScreen s.tty)
include hs ht

omit hs ht in
theorem handleIncomingByte_append (s : Console) (bytes bytes' : List UInt8) :
    handleIncomingByte s (bytes ++ bytes') =
      handleIncomingByte s bytes >>= fun s' => handleIncomingByte s' bytes' :=
  List.foldlM_append

end

/-! ### Sequences of keys -/

section

variable {s : Console} (hs : InStep s.keyboard) (ht : OnScreen s.tty)
include hs ht

end

/-- The driver after `initialise_ps2`, on a screen of two columns and two rows. -/
def bootConsole : Console where
  keyboard := .init
  tty :=
    { charsWidth := 2
      charsHeight := 2
      cursorX := 0
      cursorY := 0
      buffer := some fun _ => space
      currentRunOfKeyboardInputs := 0
      icanon := true
      dirty := .allDirty
      inputBuffer := []
      display := fun _ _ => space }

theorem bootConsole_onScreen : OnScreen bootConsole.tty := by
  intro _
  exact ⟨by decide, by decide⟩

end Stuos.Ps2
