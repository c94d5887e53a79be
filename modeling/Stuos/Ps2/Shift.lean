import Stuos.Lib.Lts
import Stuos.Ps2.Decoding

/-!
# The two shift keys

`parse_full_buffer` keeps one flag for both shift keys: a press of either sets it, and a
release of either clears it.

* `code_shift`: what the bytes of one code do to the flag.
* `event_shift`: what a key does.
* `shift_tracked_iff`: **the flag says whether a shift key is held, exactly as long as neither
  is released while the other is held**.  After the Pause key the driver is out of step, and
  the flag means nothing.
-/

namespace Stuos.Ps2

open Stuos.Lib Stuos.Terminal

/-- The shift keys that are held. -/
structure Held where
  left : Bool
  right : Bool
  deriving DecidableEq, Repr

def Held.none : Held := ⟨false, false⟩

/-- A shift key goes down or comes up. -/
def Held.set (h : Held) (code : UInt8) (down : Bool) : Held :=
  if code = leftShift then { h with left := down }
  else if code = rightShift then { h with right := down }
  else h

def Held.step (h : Held) : KeyEvent → Held
  | .make c => h.set c.val true
  | .break c => h.set c.val false
  | _ => h

/-- One of the shift keys comes up while the other is held. -/
def Held.ReleasesOneOfTwo (h : Held) : KeyEvent → Prop
  | .break c => (c.val = leftShift ∧ h.right = true) ∨ (c.val = rightShift ∧ h.left = true)
  | _ => False

/-- Keys that are pressed and released one after the other, and the driver that gets their
bytes. -/
def typing : Lts (Console × Held) KeyEvent where
  init s := InStep s.1.keyboard ∧ OnScreen s.1.tty ∧ s.1.keyboard.shift = false ∧ s.2 = .none
  step s e s' := handleIncomingByte s.1 e.bytes = .ok s'.1 ∧ s'.2 = s.2.step e

/-- The flag says whether a shift key is held. -/
def Tracked (s : Console × Held) : Prop := s.1.keyboard.shift = (s.2.left || s.2.right)

/-- The flag after a code. -/
def shiftAfter (shift : Bool) (code : UInt8) (isBreak isExtended : Bool) : Bool :=
  if (code = leftShift ∨ code = rightShift) ∧ isExtended = false then !isBreak else shift

/-! ### One key -/

section

variable {k k' : Keyboard} {s s' : Console} {c x : UInt8} {hi : Nat} {isBreak isExtended : Bool}

theorem parseFullBuffer_shift (hhi : hi < 2 ^ 16) (hb : k.buffer = hi * 256 + c.toNat)
    (hkind : bufferKind (hi * 256 + c.toNat) = .ok (isBreak, isExtended))
    (h : parseFullBuffer k = .ok (x, k')) :
    k'.shift = shiftAfter k.shift c isBreak isExtended ∧
      k'.expectedNumberOfBytes = k.expectedNumberOfBytes := by
  rw [parseFullBuffer_short hhi hb, hkind, ok_bind] at h
  dsimp only at h
  rw [shiftAfter]
  by_cases hcaps : isExtended = false ∧ c = capsLock
  · rw [if_pos hcaps, pure_eq_ok, Except.ok.injEq, Prod.mk.injEq] at h
    obtain ⟨-, rfl⟩ := h
    have hno : ¬ ((c = leftShift ∨ c = rightShift) ∧ isExtended = false) := by
      rw [hcaps.2]
      exact fun hc => absurd hc.1 (by decide)
    rw [if_neg hno]
    split <;> exact ⟨rfl, rfl⟩
  · rw [if_neg hcaps] at h
    by_cases hshift : (c = leftShift ∨ c = rightShift) ∧ isExtended = false
    · rw [if_pos hshift, pure_eq_ok, Except.ok.injEq, Prod.mk.injEq] at h
      obtain ⟨-, rfl⟩ := h
      rw [if_pos hshift]
      exact ⟨rfl, rfl⟩
    · rw [if_neg hshift] at h ⊢
      split at h
      · cases h
        exact ⟨rfl, rfl⟩
      · rw [bind_eq_ok] at h
        obtain ⟨_, -, h⟩ := h
        cases h
        exact ⟨rfl, rfl⟩

/-- **The bytes of one code**, of which `hi` are its prefixes. -/
theorem code_shift (ht : OnScreen s.tty) (hhi : hi < 2 ^ 16)
    (hkind : bufferKind (hi * 256 + c.toNat) = .ok (isBreak, isExtended))
    (h : finish s (hi * 256 + c.toNat) = .ok s') :
    InStep s'.keyboard ∧ OnScreen s'.tty ∧
      s'.keyboard.shift = shiftAfter s.keyboard.shift c isBreak isExtended := by
  rw [finish, bind_eq_ok] at h
  obtain ⟨⟨x, k⟩, hparse, h⟩ := h
  dsimp only at h
  rw [bind_eq_ok] at h
  obtain ⟨tty, htty, h⟩ := h
  rw [pure_eq_ok, Except.ok.injEq] at h
  subst h
  obtain ⟨hshift, hexp⟩ := parseFullBuffer_shift hhi rfl hkind hparse
  rw [mapError_eq_ok] at htty
  obtain ⟨htakes, hfull⟩ := ttyProvideStdin_total (x := x) ht
  refine ⟨⟨hexp, rfl⟩, ?_, hshift⟩
  by_cases hx : Takes s.tty x
  · obtain ⟨t, hok, hon⟩ := htakes hx
    obtain rfl : t = tty := Except.ok.inj (hok.symm.trans htty)
    exact hon
  · rw [hfull hx] at htty
    cases htty

theorem code_le {c : UInt8} (h : c < 0x80) : c ≤ 0x83 :=
  UInt8.le_of_lt (UInt8.lt_of_lt_of_le h (by decide))

variable (hs : InStep s.keyboard) (ht : OnScreen s.tty)
include hs ht

theorem makeExtended_shift (hc : c < 0x80) (h : handleIncomingByte s [0xE0, c] = .ok s') :
    InStep s'.keyboard ∧ OnScreen s'.tty ∧ s'.keyboard.shift = s.keyboard.shift := by
  rw [(handleIncomingByte_code hs (not_introducer (code_le hc))).2.2.1] at h
  obtain ⟨hs', ht', hshift⟩ := code_shift ht (by decide) (bufferKind_snoc c).2.2.1 h
  exact ⟨hs', ht', hshift.trans (if_neg (by simp))⟩

theorem breakExtended_shift (hc : c < 0x80) (h : handleIncomingByte s [0xE0, 0xF0, c] = .ok s') :
    InStep s'.keyboard ∧ OnScreen s'.tty ∧ s'.keyboard.shift = s.keyboard.shift := by
  rw [(handleIncomingByte_code hs (not_introducer (code_le hc))).2.2.2] at h
  obtain ⟨hs', ht', hshift⟩ := code_shift ht (by decide) (bufferKind_snoc c).2.2.2 h
  exact ⟨hs', ht', hshift.trans (if_neg (by simp))⟩

/-- **What a key does to the flag.**  The two codes of the Print Screen key have the prefix
`E0`, also the one that is the code of a shift key. -/
theorem event_shift {e : KeyEvent} (he : e ≠ .pause) (h : handleIncomingByte s e.bytes = .ok s') :
    InStep s'.keyboard ∧ OnScreen s'.tty ∧ s'.keyboard.shift =
      match e with
      | .make c => shiftAfter s.keyboard.shift c.val false false
      | .break c => shiftAfter s.keyboard.shift c.val true false
      | _ => s.keyboard.shift := by
  cases e with
  | make code =>
    obtain ⟨c, hc⟩ := code
    rw [KeyEvent.bytes, (handleIncomingByte_code hs (not_introducer hc.2)).1,
      ← Nat.zero_add c.toNat, ← Nat.zero_mul 256] at h
    exact code_shift ht (by decide) (bufferKind_snoc c).1 h
  | «break» code =>
    obtain ⟨c, hc⟩ := code
    rw [KeyEvent.bytes, (handleIncomingByte_code hs (not_introducer hc.2)).2.1] at h
    exact code_shift ht (by decide) (bufferKind_snoc c).2.1 h
  | makeExtended code => exact makeExtended_shift hs ht code.property.2 h
  | breakExtended code => exact breakExtended_shift hs ht code.property.2 h
  | printScreen =>
    have hsplit : KeyEvent.printScreen.bytes = [0xE0, 0x12] ++ [0xE0, 0x7C] := rfl
    rw [hsplit, handleIncomingByte_append, bind_eq_ok] at h
    obtain ⟨s₁, h₁, h₂⟩ := h
    obtain ⟨hs₁, ht₁, hshift₁⟩ := makeExtended_shift hs ht (by decide) h₁
    obtain ⟨hs₂, ht₂, hshift₂⟩ := makeExtended_shift hs₁ ht₁ (by decide) h₂
    exact ⟨hs₂, ht₂, hshift₂.trans hshift₁⟩
  | printScreenBreak =>
    have hsplit : KeyEvent.printScreenBreak.bytes = [0xE0, 0xF0, 0x7C] ++ [0xE0, 0xF0, 0x12] := rfl
    rw [hsplit, handleIncomingByte_append, bind_eq_ok] at h
    obtain ⟨s₁, h₁, h₂⟩ := h
    obtain ⟨hs₁, ht₁, hshift₁⟩ := breakExtended_shift hs ht (by decide) h₁
    obtain ⟨hs₂, ht₂, hshift₂⟩ := breakExtended_shift hs₁ ht₁ (by decide) h₂
    exact ⟨hs₂, ht₂, hshift₂.trans hshift₁⟩
  | pause => exact absurd rfl he

end

/-! ### Sequences of keys -/

section

variable {s s' : Console × Held} {e : KeyEvent}

theorem tracked_set {shift : Bool} {h : Held} (code : UInt8) (isBreak : Bool)
    (htracked : shift = (h.left || h.right)) :
    shiftAfter shift code isBreak false = ((h.set code !isBreak).left || (h.set code !isBreak).right) ↔
      ¬ (isBreak = true ∧ ((code = leftShift ∧ h.right = true) ∨
        (code = rightShift ∧ h.left = true))) := by
  obtain ⟨left, right⟩ := h
  rw [shiftAfter, Held.set]
  by_cases hl : code = leftShift
  · subst hl
    rw [htracked]
    cases left <;> cases right <;> cases isBreak <;> decide
  · by_cases hr : code = rightShift
    · subst hr
      rw [htracked]
      cases left <;> cases right <;> cases isBreak <;> decide
    · simp [hl, hr, htracked]

/-- **When a key keeps the flag right.** -/
theorem step_tracked_iff (hs : InStep s.1.keyboard) (ht : OnScreen s.1.tty) (htracked : Tracked s)
    (he : e ≠ .pause) (hstep : typing.step s e s') :
    InStep s'.1.keyboard ∧ OnScreen s'.1.tty ∧ (Tracked s' ↔ ¬ s.2.ReleasesOneOfTwo e) := by
  obtain ⟨hbytes, hheld⟩ := hstep
  obtain ⟨hs', ht', hshift⟩ := event_shift hs ht he hbytes
  refine ⟨hs', ht', ?_⟩
  rw [Tracked, hshift, hheld]
  cases e with
  | make c =>
    refine iff_of_true ((tracked_set c.val false htracked).mpr ?_) not_false
    exact fun h => Bool.false_ne_true h.1
  | «break» c =>
    refine (tracked_set c.val true htracked).trans (not_congr ?_)
    exact and_iff_right rfl
  | makeExtended c => exact iff_of_true htracked not_false
  | breakExtended c => exact iff_of_true htracked not_false
  | printScreen => exact iff_of_true htracked not_false
  | printScreenBreak => exact iff_of_true htracked not_false
  | pause => exact absurd rfl he

theorem typing_deterministic (s : Console × Held) (e : KeyEvent) (s₁ s₂ : Console × Held)
    (h₁ : typing.step s e s₁) (h₂ : typing.step s e s₂) : s₁ = s₂ :=
  Prod.ext (Except.ok.inj (h₁.1.symm.trans h₂.1)) (h₁.2.trans h₂.2.symm)

/-- A key that neither puts the driver out of step nor releases one of two shift keys. -/
def KeepsShift (s : Console × Held) (e : KeyEvent) : Prop :=
  e ≠ .pause ∧ ¬ s.2.ReleasesOneOfTwo e

variable {s₀ : Console × Held} {es : List KeyEvent}

theorem run_tracked (h0 : typing.init s₀) (hrun : typing.Run KeepsShift s₀ es s) :
    InStep s.1.keyboard ∧ OnScreen s.1.tty ∧ Tracked s := by
  refine hrun.invariant (P := fun _ s => InStep s.1.keyboard ∧ OnScreen s.1.tty ∧ Tracked s) ?_ ?_
  · rintro - s e s' ⟨hs, ht, htracked⟩ ⟨he, hkeeps⟩ hstep
    obtain ⟨hs', ht', hiff⟩ := step_tracked_iff hs ht htracked he hstep
    exact ⟨hs', ht', hiff.mpr hkeeps⟩
  · obtain ⟨hs, ht, hshift, hnone⟩ := h0
    exact ⟨hs, ht, by rw [Tracked, hshift, hnone]; rfl⟩

/-- **When the flag is right**: in a run without the Pause key the flag says in every state
whether a shift key is held, if and only if no step releases one of them while the other is
held. -/
theorem shift_tracked_iff (h0 : typing.init s₀) (hrun : typing.Run (fun _ _ => True) s₀ es s) :
    (.pause ∉ es ∧ ∀ es₁ s₁, es₁ <+: es → typing.Run (fun _ _ => True) s₀ es₁ s₁ → Tracked s₁) ↔
      typing.Run KeepsShift s₀ es s := by
  constructor
  · rintro ⟨hpause, htracked⟩
    induction hrun with
    | nil => exact .nil _
    | snoc hrun _hok hstep ih =>
      rename_i s s' es e
      rw [List.mem_append, List.mem_singleton, not_or] at hpause
      have hbefore := ih hpause.1 fun es₁ s₁ hle =>
        htracked es₁ s₁ (hle.trans (List.prefix_append _ _))
      obtain ⟨hs, ht, htr⟩ := run_tracked h0 hbefore
      have he : e ≠ .pause := fun h => hpause.2 h.symm
      obtain ⟨-, -, hiff⟩ := step_tracked_iff hs ht htr he hstep
      have hafter := htracked (es ++ [e]) s' List.prefix_rfl (hrun.snoc trivial hstep)
      exact hbefore.snoc ⟨he, hiff.mp hafter⟩ hstep
  · intro hkeeps
    refine ⟨?_, ?_⟩
    · clear hrun
      induction hkeeps with
      | nil => simp
      | snoc _hrun hok _hstep ih =>
        rw [List.mem_append, List.mem_singleton, not_or]
        exact ⟨ih, fun h => hok.1 h.symm⟩
    · intro es₁ s₁ hle hrun₁
      obtain ⟨rest, rfl⟩ := hle
      obtain ⟨s₁', hkeeps₁, -⟩ := hkeeps.split
      obtain rfl := hkeeps₁.unique typing_deterministic hrun₁
      exact (run_tracked h0 hkeeps₁).2.2

theorem typing_steps {e₁ e₂ e₃ : KeyEvent} (h : (handleIncomingByte bootConsole e₁.bytes >>= fun s =>
      handleIncomingByte s e₂.bytes >>= fun s => handleIncomingByte s e₃.bytes).isOk = true) :
    typing.init (bootConsole, .none) ∧ ∃ s₁ s₂ s₃, typing.step (bootConsole, .none) e₁ s₁ ∧
      typing.step s₁ e₂ s₂ ∧ typing.step s₂ e₃ s₃ := by
  refine ⟨⟨⟨rfl, rfl⟩, bootConsole_onScreen, rfl, rfl⟩, ?_⟩
  obtain ⟨c₃, hc⟩ := exists_of_isOk h
  simp only [bind_eq_ok] at hc
  obtain ⟨c₁, h₁, c₂, h₂, h₃⟩ := hc
  exact ⟨(c₁, _), (c₂, _), (c₃, _), ⟨h₁, rfl⟩, ⟨h₂, rfl⟩, ⟨h₃, rfl⟩⟩

end

def leftShiftKey : { c : UInt8 // 0 < c ∧ c ≤ 0x83 } := ⟨leftShift, by decide⟩

def rightShiftKey : { c : UInt8 // 0 < c ∧ c ≤ 0x83 } := ⟨rightShift, by decide⟩

/-- Left shift around the key `1`. -/
theorem shift_tracked_exclamation :
    ∃ s, typing.Run KeepsShift (bootConsole, .none)
        [.make leftShiftKey, .make ⟨0x16, by decide⟩, .break leftShiftKey] s ∧
      ∀ es₁ s₁, es₁ <+: [.make leftShiftKey, .make ⟨0x16, by decide⟩, .break leftShiftKey] →
        typing.Run (fun _ _ => True) (bootConsole, .none) es₁ s₁ → Tracked s₁ := by
  have hok : (handleIncomingByte bootConsole (KeyEvent.make leftShiftKey).bytes >>= fun s =>
      handleIncomingByte s (KeyEvent.make ⟨0x16, by decide⟩).bytes >>= fun s =>
        handleIncomingByte s (KeyEvent.break leftShiftKey).bytes).isOk = true := by decide
  obtain ⟨hinit, s₁, s₂, s₃, h₁, h₂, h₃⟩ := typing_steps hok
  have hheld : s₂.2 = ⟨true, false⟩ := by rw [h₂.2, h₁.2]; rfl
  have hkeeps : KeepsShift s₂ (.break leftShiftKey) := by
    refine ⟨by simp, ?_⟩
    rw [hheld]
    show ¬ ((leftShift = leftShift ∧ false = true) ∨ (leftShift = rightShift ∧ true = true))
    decide
  have hrun : typing.Run KeepsShift (bootConsole, .none)
      [.make leftShiftKey, .make ⟨0x16, by decide⟩, .break leftShiftKey] s₃ :=
    (((Lts.Run.nil _).snoc ⟨by simp, not_false⟩ h₁).snoc ⟨by simp, not_false⟩ h₂).snoc hkeeps h₃
  exact ⟨s₃, hrun,
    ((shift_tracked_iff hinit (hrun.mono fun _ _ _ => trivial)).mpr hrun).2⟩

/-- **Both shift keys are pressed and one is released**: the other is still held, and the flag
says that none is. -/
theorem shift_released_too_early :
    ∃ s, typing.init (bootConsole, .none) ∧
      typing.Run (fun _ _ => True) (bootConsole, .none)
        [.make leftShiftKey, .make rightShiftKey, .break leftShiftKey] s ∧
      s.2 = ⟨false, true⟩ ∧ s.1.keyboard.shift = false ∧ ¬ Tracked s := by
  have hok : (handleIncomingByte bootConsole (KeyEvent.make leftShiftKey).bytes >>= fun s =>
      handleIncomingByte s (KeyEvent.make rightShiftKey).bytes >>= fun s =>
        handleIncomingByte s (KeyEvent.break leftShiftKey).bytes).isOk = true := by decide
  obtain ⟨hinit, s₁, s₂, s₃, h₁, h₂, h₃⟩ := typing_steps hok
  have hheld : s₃.2 = ⟨false, true⟩ := by
    rw [h₃.2, h₂.2, h₁.2]
    decide
  have hrun₁ : typing.Run (fun _ _ => True) (bootConsole, .none) [.make leftShiftKey] s₁ :=
    (Lts.Run.nil _).snoc trivial h₁
  obtain ⟨hs₁, ht₁, -⟩ := event_shift hinit.1 hinit.2.1 (by simp) h₁.1
  obtain ⟨hs₂, ht₂, -⟩ := event_shift hs₁ ht₁ (by simp) h₂.1
  obtain ⟨-, -, hshift⟩ := event_shift hs₂ ht₂ (by simp) h₃.1
  have hflag : s₃.1.keyboard.shift = false := hshift
  refine ⟨s₃, hinit, (hrun₁.snoc trivial h₂).snoc trivial h₃, hheld, hflag, ?_⟩
  rw [Tracked, hflag, hheld]
  decide

end Stuos.Ps2
