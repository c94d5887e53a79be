import Stuos.Tty.InputBuffer
import Stuos.Usb.Trb

/-!
# The USB keyboard

`xhci_keyboard.c`.  A report lists the keys that are down, in no particular order and with
zeros for slots that are not used; `packet_recv` compares it with the report before it in an
array with an entry for every keycode.  `calls` lists the calls of `handle_keypress`, oldest
first.  The doorbell that is rung at the end is not modelled.

* `releaseLoop_calls`, `pressLoop_spec`: what the two loops call.
* `packetRecv_spec`: the calls for one report.
* `packetRecv_total`: a report is handled if the terminal has room for its characters.
* `report_differences`: **in every run, the calls for a report are its differences from the one
  before it**.
-/

namespace Stuos.Usb

open Stuos.Lib Stuos.Terminal

def trbTypeNormal : BitVec 6 := 1

def trbTypeTransfer : BitVec 6 := 32

/-- `status.type_transfer.completion_code`. -/
def TRB.completionCode (t : TRB) : BitVec 8 := t.reserved0.extractLsb' 24 8

/-- `status.type_transfer.trb_transfer_length`. -/
def TRB.transferLength (t : TRB) : BitVec 24 := t.reserved0.extractLsb' 0 24

structure InputReport where
  modifierKeys : UInt8
  reserved0 : UInt8
  keycodes : Vector UInt8 6
  deriving DecidableEq, Repr

def InputReport.zero : InputReport := ⟨0, 0, .replicate 6 0⟩

/-- `sizeof(struct InputReport)`. -/
def InputReport.size : BitVec 32 := 8

structure PacketRecvState where
  repPhys : BitVec 64
  inIndex : Nat
  previousReport : InputReport
  shiftCurrentlyPressed : Bool
  capslockOn : Bool

/-- The entries of `key_map`: a keycode, its character, and the one with shift. -/
def keyMapTable : List (UInt8 × UInt8 × UInt8) := [
  (0x04, 'a'.toUInt8, 'A'.toUInt8), (0x05, 'b'.toUInt8, 'B'.toUInt8),
  (0x06, 'c'.toUInt8, 'C'.toUInt8), (0x07, 'd'.toUInt8, 'D'.toUInt8),
  (0x08, 'e'.toUInt8, 'E'.toUInt8), (0x09, 'f'.toUInt8, 'F'.toUInt8),
  (0x0A, 'g'.toUInt8, 'G'.toUInt8), (0x0B, 'h'.toUInt8, 'H'.toUInt8),
  (0x0C, 'i'.toUInt8, 'I'.toUInt8), (0x0D, 'j'.toUInt8, 'J'.toUInt8),
  (0x0E, 'k'.toUInt8, 'K'.toUInt8), (0x0F, 'l'.toUInt8, 'L'.toUInt8),
  (0x10, 'm'.toUInt8, 'M'.toUInt8), (0x11, 'n'.toUInt8, 'N'.toUInt8),
  (0x12, 'o'.toUInt8, 'O'.toUInt8), (0x13, 'p'.toUInt8, 'P'.toUInt8),
  (0x14, 'q'.toUInt8, 'Q'.toUInt8), (0x15, 'r'.toUInt8, 'R'.toUInt8),
  (0x16, 's'.toUInt8, 'S'.toUInt8), (0x17, 't'.toUInt8, 'T'.toUInt8),
  (0x18, 'u'.toUInt8, 'U'.toUInt8), (0x19, 'v'.toUInt8, 'V'.toUInt8),
  (0x1A, 'w'.toUInt8, 'W'.toUInt8), (0x1B, 'x'.toUInt8, 'X'.toUInt8),
  (0x1C, 'y'.toUInt8, 'Y'.toUInt8), (0x1D, 'z'.toUInt8, 'Z'.toUInt8),
  (0x1E, '1'.toUInt8, '!'.toUInt8), (0x1F, '2'.toUInt8, '@'.toUInt8),
  (0x20, '3'.toUInt8, '#'.toUInt8), (0x21, '4'.toUInt8, '$'.toUInt8),
  (0x22, '5'.toUInt8, '%'.toUInt8), (0x23, '6'.toUInt8, '^'.toUInt8),
  (0x24, '7'.toUInt8, '&'.toUInt8), (0x25, '8'.toUInt8, '*'.toUInt8),
  (0x26, '9'.toUInt8, '('.toUInt8), (0x27, '0'.toUInt8, ')'.toUInt8),
  (0x28, newline, newline), (0x2A, backspace, backspace), (0x2B, 9, 9), (0x2C, space, space),
  (0x2D, '-'.toUInt8, '_'.toUInt8), (0x2E, '='.toUInt8, '+'.toUInt8), (0x2F, 91, 123),
  (0x30, 93, 125), (0x31, 92, '|'.toUInt8), (0x32, '#'.toUInt8, '~'.toUInt8),
  (0x33, ';'.toUInt8, ':'.toUInt8), (0x34, 39, 34), (0x35, 96, '~'.toUInt8),
  (0x36, ','.toUInt8, '<'.toUInt8), (0x37, '.'.toUInt8, '>'.toUInt8),
  (0x38, '/'.toUInt8, '?'.toUInt8)]

/-- `key_map[keycode][shifted]`. -/
def keyMap (keycode : UInt8) (shifted : Bool) : UInt8 :=
  match keyMapTable.lookup keycode with
  | none => 0
  | some (plain, other) => if shifted then other else plain

/-- `handle_keypress`: the character, or 0. -/
def handleKeypress (keycode : UInt8) (isBreak : Bool) (state : PacketRecvState) :
    UInt8 × PacketRecvState :=
  let state :=
    if keycode = 0xE1 ∨ keycode = 0xE5 then { state with shiftCurrentlyPressed := !isBreak }
    else state
  let state := if keycode = 0x39 then { state with capslockOn := !isBreak } else state
  if isBreak then (0, state)
  else
    let character := keyMap keycode state.shiftCurrentlyPressed
    (if state.capslockOn then toupper character else character, state)

/-- The handler's data, the ring it gets its reports from, and the terminal it types into. -/
structure UsbKeyboard where
  state : PacketRecvState
  inRing : Ring
  tty : Tty
  calls : List (UInt8 × Bool)

namespace UsbKeyboard

/-- `tty_provide_stdin(handle_keypress(..))`. -/
def keypress (s : UsbKeyboard) (keycode : UInt8) (isBreak : Bool) :
    Except TtyHalt UsbKeyboard := do
  let r := handleKeypress keycode isBreak s.state
  let tty ← ttyProvideStdin s.tty r.1
  return { s with state := r.2, tty := tty, calls := s.calls ++ [(keycode, isBreak)] }

/-- The loop that fills in new keys with 1. -/
def markNew (codesSparse : UInt8 → UInt8) : List UInt8 → (UInt8 → UInt8)
  | [] => codesSparse
  | keycode :: rest =>
    if keycode = 0 then markNew codesSparse rest
    else markNew (Function.update codesSparse keycode 1) rest

/-- The loop over the keycodes of the previous report. -/
def releaseLoop (s : UsbKeyboard) (codesSparse : UInt8 → UInt8) :
    List UInt8 → Except TtyHalt (UsbKeyboard × (UInt8 → UInt8))
  | [] => .ok (s, codesSparse)
  | oldKeycode :: rest =>
    if oldKeycode = 0 then releaseLoop s codesSparse rest
    else do
      -- currently not pressed, used to be pressed
      let s ← (if codesSparse oldKeycode = 0 then s.keypress oldKeycode true else .ok s)
      releaseLoop s (Function.update codesSparse oldKeycode 2) rest

/-- The loop over the keycodes of the new report. -/
def pressLoop (s : UsbKeyboard) (codesSparse : UInt8 → UInt8) :
    List UInt8 → Except TtyHalt UsbKeyboard
  | [] => .ok s
  | keycode :: rest =>
    if keycode = 0 then pressLoop s codesSparse rest
    else do
      -- used to be unpressed, is currently pressed
      let s ← (if codesSparse keycode = 1 then s.keypress keycode false else .ok s)
      pressLoop s codesSparse rest

/-- The TRB that asks for the next report. -/
def reportTrb (state : PacketRecvState) : TRB :=
  { TRB.zero with
    parameter := state.repPhys
    reserved0 := InputReport.size
    -- interrupt_on_completion
    reserved1 := 16
    trbType := trbTypeNormal }

/-- `packet_recv`; `rep` is what the controller has put at `rep_phys`. -/
def packetRecv (s : UsbKeyboard) (recv : TRB) (rep : InputReport) : Except TtyHalt UsbKeyboard := do
  ensure (recv.trbType = trbTypeTransfer) .hcf
  ensure (recv.completionCode = 1) .hcf
  ensure (recv.transferLength = 0) .hcf
  let codesSparse := markNew (fun _ => 0) rep.keycodes.toList
  let r ← releaseLoop s codesSparse s.state.previousReport.keycodes.toList
  let s ← pressLoop r.1 r.2 rep.keycodes.toList
  let state := { s.state with previousReport := rep }
  return { s with state := state, inRing := enqueueRing s.inRing (reportTrb state) }

end UsbKeyboard

inductive UsbEvent
  | report (recv : TRB) (rep : InputReport)
  /-- Something else happens to the terminal. -/
  | tty (ev : TtyEvent)

/-- Reports from a keyboard that `initialise_keyboard` has set up, and whatever else goes on at
the terminal. -/
def usbKeyboard : Lts UsbKeyboard UsbEvent where
  init s := s.state.previousReport = .zero ∧ s.state.shiftCurrentlyPressed = false ∧
    s.state.capslockOn = false ∧ OnScreen s.tty ∧ s.tty.icanon = true
  step s ev s' := match ev with
    | .report recv rep => s.packetRecv recv rep = .ok s'
    | .tty ev => ∃ t, terminal.step s.tty ev t ∧ s' = { s with tty := t }

/-! ### What a report says -/

/-- The keycodes of a report. -/
def InputReport.keys (r : InputReport) : List UInt8 := r.keycodes.toList.filter (· ≠ 0)

/-- No keycode occurs twice. -/
def InputReport.Distinct (r : InputReport) : Prop := r.keys.Nodup

/-- The last report after an event, if it was `r` before. -/
def UsbEvent.reportAfter (r : InputReport) : UsbEvent → InputReport
  | .report _ rep => rep
  | .tty _ => r

/-- The last report of a run; before the first one no key is down. -/
def lastReport (l : List UsbEvent) : InputReport := l.foldl UsbEvent.reportAfter .zero

/-- The calls between two reports: a release for each key that has come up, and after those a
press for each key that has gone down. -/
def Differences (calls calls' : List (UInt8 × Bool)) (old new : InputReport) : Prop :=
  ∃ released pressed : List UInt8,
    calls' = calls ++ released.map (fun c => (c, true)) ++ pressed.map (fun c => (c, false)) ∧
    released.Nodup ∧ pressed.Nodup ∧
    (∀ c, c ∈ released ↔ c ∈ old.keys ∧ c ∉ new.keys) ∧
    ∀ c, c ∈ pressed ↔ c ∈ new.keys ∧ c ∉ old.keys

theorem InputReport.mem_keys {r : InputReport} {c : UInt8} :
    c ∈ r.keys ↔ c ∈ r.keycodes.toList ∧ c ≠ 0 := by
  simp [InputReport.keys]

/-! ### The loops -/

namespace UsbKeyboard

variable {s s' : UsbKeyboard}

/-- The terminal can be typed into. -/
def Live (s : UsbKeyboard) : Prop := OnScreen s.tty ∧ s.tty.icanon = true

/-- What typing leaves alone. -/
structure Keeps (s s' : UsbKeyboard) : Prop where
  previousReport : s'.state.previousReport = s.state.previousReport
  live : s.Live → s'.Live

theorem Keeps.refl (s : UsbKeyboard) : Keeps s s := ⟨rfl, id⟩

theorem Keeps.trans {s'' : UsbKeyboard} (h : Keeps s s') (h' : Keeps s' s'') : Keeps s s'' :=
  ⟨h'.previousReport.trans h.previousReport, h'.live ∘ h.live⟩

theorem markNew_apply (codes : UInt8 → UInt8) (news : List UInt8) (c : UInt8) :
    markNew codes news c = if c ∈ news ∧ c ≠ 0 then 1 else codes c := by
  induction news generalizing codes with
  | nil => simp [markNew]
  | cons keycode rest ih =>
    rw [markNew]
    split
    · rename_i hzero
      rw [ih]
      by_cases hc : c = 0
      · simp [hc]
      · simp [hc, hzero]
    · rename_i hne
      rw [ih]
      by_cases hc : c = keycode
      · subst hc
        simp [hne]
      · simp [hc]

theorem handleKeypress_previousReport (keycode : UInt8) (isBreak : Bool)
    (state : PacketRecvState) :
    (handleKeypress keycode isBreak state).2.previousReport = state.previousReport := by
  simp only [handleKeypress]
  split <;> split <;> split <;> rfl

/-- **One call of `handle_keypress`.** -/
theorem keypress_spec {keycode : UInt8} {isBreak : Bool}
    (h : s.keypress keycode isBreak = .ok s') :
    s'.calls = s.calls ++ [(keycode, isBreak)] ∧ Keeps s s' := by
  simp only [keypress, bind_eq_ok, pure_eq_ok, Except.ok.injEq] at h
  obtain ⟨tty, htty, rfl⟩ := h
  have hstep : terminal.step s.tty (.key (handleKeypress keycode isBreak s.state).1) tty := htty
  refine ⟨rfl, handleKeypress_previousReport keycode isBreak s.state, ?_⟩
  rintro ⟨hon, hic⟩
  obtain ⟨hon', hic', -⟩ := step_input hon hic hstep
  exact ⟨hon', hic'⟩

theorem releaseLoop_key {codes codes' : UInt8 → UInt8} {old : UInt8} {rest : List UInt8}
    (hne : old ≠ 0) (h : s.releaseLoop codes (old :: rest) = .ok (s', codes')) :
    ∃ s₁, s₁.releaseLoop (Function.update codes old 2) rest = .ok (s', codes') ∧ Keeps s s₁ ∧
      s₁.calls = s.calls ++ if codes old = 0 then [(old, true)] else [] := by
  rw [releaseLoop, if_neg hne, bind_eq_ok] at h
  obtain ⟨s₁, h₁, h⟩ := h
  refine ⟨s₁, h, ?_⟩
  split at h₁
  · rename_i hunmarked
    obtain ⟨hcalls, hkeeps⟩ := keypress_spec h₁
    exact ⟨hkeeps, by rw [hcalls, if_pos hunmarked]⟩
  · rename_i hmarked
    rw [Except.ok.injEq] at h₁
    subst h₁
    exact ⟨.refl s, by rw [if_neg hmarked, List.append_nil]⟩

theorem releaseLoop_codes {codes codes' : UInt8 → UInt8} {olds : List UInt8}
    (h : s.releaseLoop codes olds = .ok (s', codes')) :
    (∀ c, codes' c = if c ∈ olds ∧ c ≠ 0 then 2 else codes c) ∧ Keeps s s' := by
  induction olds generalizing s codes with
  | nil =>
    rw [releaseLoop, Except.ok.injEq, Prod.mk.injEq] at h
    obtain ⟨rfl, rfl⟩ := h
    exact ⟨by simp, .refl s⟩
  | cons old rest ih =>
    by_cases hzero : old = 0
    · rw [releaseLoop, if_pos hzero] at h
      obtain ⟨hcodes, hkeeps⟩ := ih h
      refine ⟨fun c => ?_, hkeeps⟩
      rw [hcodes]
      by_cases hc : c = 0
      · simp [hc]
      · simp [hc, hzero]
    · obtain ⟨s₁, h₁, hkeeps₁, -⟩ := releaseLoop_key hzero h
      obtain ⟨hcodes, hkeeps⟩ := ih h₁
      refine ⟨fun c => ?_, hkeeps₁.trans hkeeps⟩
      rw [hcodes]
      by_cases hc : c = old
      · subst hc
        simp [hzero]
      · simp [hc]

/-- **The release loop**: one call for each old key that is not marked. -/
theorem releaseLoop_calls {codes codes' : UInt8 → UInt8} {olds : List UInt8}
    (h : s.releaseLoop codes olds = .ok (s', codes')) :
    ∃ released : List UInt8, s'.calls = s.calls ++ released.map (fun c => (c, true)) ∧
      released.Nodup ∧ ∀ c, c ∈ released ↔ (c ∈ olds ∧ c ≠ 0) ∧ codes c = 0 := by
  induction olds generalizing s codes with
  | nil =>
    rw [releaseLoop, Except.ok.injEq, Prod.mk.injEq] at h
    obtain ⟨rfl, rfl⟩ := h
    exact ⟨[], by simp, .nil, by simp⟩
  | cons old rest ih =>
    by_cases hzero : old = 0
    · rw [releaseLoop, if_pos hzero] at h
      obtain ⟨released, hcalls, hnodup, hmem⟩ := ih h
      refine ⟨released, hcalls, hnodup, fun c => ?_⟩
      rw [hmem]
      by_cases hc : c = 0
      · simp [hc]
      · simp [hc, hzero]
    · obtain ⟨s₁, h₁, -, hcalls₁⟩ := releaseLoop_key hzero h
      obtain ⟨released, hcalls, hnodup, hmem⟩ := ih h₁
      by_cases hunmarked : codes old = 0
      · rw [if_pos hunmarked] at hcalls₁
        refine ⟨old :: released, ?_, ?_, fun c => ?_⟩
        · rw [hcalls, hcalls₁, List.map_cons, List.append_assoc, List.singleton_append]
        · refine List.nodup_cons.mpr ⟨fun hold => ?_, hnodup⟩
          have hmarked := ((hmem old).mp hold).2
          rw [Function.update_self] at hmarked
          exact absurd hmarked (by decide)
        · rw [List.mem_cons, hmem]
          by_cases hc : c = old
          · subst hc
            simp [hzero, hunmarked]
          · simp [hc]
      · rw [if_neg hunmarked, List.append_nil] at hcalls₁
        refine ⟨released, by rw [hcalls, hcalls₁], hnodup, fun c => ?_⟩
        rw [hmem]
        by_cases hc : c = old
        · subst hc
          simp [hunmarked]
        · simp [hc]

/-- **The press loop**: one call for each new keycode that is still marked with 1. -/
theorem pressLoop_spec {codes : UInt8 → UInt8} {news : List UInt8}
    (h : s.pressLoop codes news = .ok s') :
    s'.calls = s.calls ++
        (news.filter fun c => decide (c ≠ 0) && decide (codes c = 1)).map (fun c => (c, false)) ∧
      Keeps s s' := by
  induction news generalizing s with
  | nil =>
    rw [pressLoop, Except.ok.injEq] at h
    subst h
    exact ⟨(List.append_nil _).symm, .refl s⟩
  | cons keycode rest ih =>
    rw [pressLoop] at h
    split at h
    · rename_i hzero
      obtain ⟨hcalls, hkeeps⟩ := ih h
      rw [List.filter_cons_of_neg (by simp [hzero])]
      exact ⟨hcalls, hkeeps⟩
    · rename_i hne
      rw [bind_eq_ok] at h
      obtain ⟨s₁, h₁, h⟩ := h
      obtain ⟨hcalls, hkeeps⟩ := ih h
      split at h₁
      · rename_i hone
        obtain ⟨hcalls₁, hkeeps₁⟩ := keypress_spec h₁
        rw [List.filter_cons_of_pos (by simp [hne, hone]), hcalls, hcalls₁, List.map_cons,
          List.append_assoc, List.singleton_append]
        exact ⟨rfl, hkeeps₁.trans hkeeps⟩
      · rename_i hone
        rw [Except.ok.injEq] at h₁
        subst h₁
        rw [List.filter_cons_of_neg (by simp [hone])]
        exact ⟨hcalls, hkeeps⟩

theorem packetRecv_parts {recv : TRB} {rep : InputReport} (h : s.packetRecv recv rep = .ok s') :
    ∃ r s₂, s.releaseLoop (markNew (fun _ => 0) rep.keycodes.toList)
        s.state.previousReport.keycodes.toList = .ok r ∧
      r.1.pressLoop r.2 rep.keycodes.toList = .ok s₂ ∧ s'.calls = s₂.calls ∧ s'.tty = s₂.tty ∧
      s'.state.previousReport = rep := by
  simp only [packetRecv, bind_eq_ok, ensure_eq_ok, pure_eq_ok, Except.ok.injEq] at h
  obtain ⟨_, -, _, -, _, -, r, hrelease, s₂, hpress, rfl⟩ := h
  exact ⟨r, s₂, hrelease, hpress, rfl, rfl, rfl⟩

/-- **One report.** -/
theorem packetRecv_spec {recv : TRB} {rep : InputReport} (hrep : rep.Distinct)
    (h : s.packetRecv recv rep = .ok s') :
    Differences s.calls s'.calls s.state.previousReport rep := by
  obtain ⟨⟨s₁, codes⟩, s₂, hrelease, hpress, hcalls', -⟩ := packetRecv_parts h
  obtain ⟨released, hcalls, hnodup, hmem⟩ := releaseLoop_calls hrelease
  obtain ⟨hcodes, -⟩ := releaseLoop_codes hrelease
  obtain ⟨hcalls₂, -⟩ := pressLoop_spec hpress
  simp only [markNew_apply, ← InputReport.mem_keys] at hcodes hmem
  dsimp only at hcalls₂
  -- what is still marked with 1 was not down before
  have hpressed : ∀ c, codes c = 1 ↔ c ∈ rep.keys ∧ c ∉ s.state.previousReport.keys := by
    intro c
    rw [hcodes]
    by_cases hold : c ∈ s.state.previousReport.keys
    · simp [hold]
    · by_cases hc : c ∈ rep.keys <;> simp [hold, hc]
  refine ⟨released, rep.keys.filter fun c => decide (codes c = 1), ?_, hnodup, hrep.filter _,
    fun c => ?_, fun c => ?_⟩
  · rw [hcalls', hcalls₂, hcalls, InputReport.keys, List.filter_filter]
    simp only [Bool.and_comm, ne_eq]
  · rw [hmem]
    by_cases hc : c ∈ rep.keys <;> simp [hc]
  · rw [List.mem_filter, decide_eq_true_eq, hpressed]
    exact ⟨fun h => h.2, fun h => ⟨h.1, h⟩⟩

theorem packetRecv_live {recv : TRB} {rep : InputReport} (h : s.packetRecv recv rep = .ok s')
    (hlive : s.Live) : s'.Live := by
  obtain ⟨⟨s₁, codes⟩, s₂, hrelease, hpress, -, htty, -⟩ := packetRecv_parts h
  obtain ⟨-, hkeeps⟩ := releaseLoop_codes hrelease
  obtain ⟨-, hkeeps₂⟩ := pressLoop_spec hpress
  have hlive₂ := (hkeeps.trans hkeeps₂).live hlive
  rw [Live, htty]
  exact hlive₂

/-! ### The terminal takes the characters -/

/-- Room for `n` more characters. -/
def Room (s : UsbKeyboard) (n : Nat) : Prop := s.tty.inputBuffer.length + n ≤ inputBufLength

theorem keypress_release (s : UsbKeyboard) (keycode : UInt8) :
    ∃ s', s.keypress keycode true = .ok s' ∧ s'.tty = s.tty :=
  ⟨_, rfl, rfl⟩

theorem keypress_press {n : Nat} (hlive : s.Live) (h : s.Room (n + 1)) (keycode : UInt8) :
    ∃ s', s.keypress keycode false = .ok s' ∧ s'.Live ∧ s'.Room n := by
  obtain ⟨hon, hic⟩ := hlive
  unfold Room at h
  have htakes : Takes s.tty (handleKeypress keycode false s.state).1 := .inr (.inr (by omega))
  obtain ⟨t, ht, -⟩ := (ttyProvideStdin_total hon).1 htakes
  have hstep : terminal.step s.tty (.key (handleKeypress keycode false s.state).1) t := ht
  obtain ⟨hon', hic', hinput⟩ := step_input hon hic hstep
  dsimp only at hinput
  refine ⟨_, by rw [keypress, ht]; rfl, ⟨hon', hic'⟩, ?_⟩
  show t.inputBuffer.length + n ≤ inputBufLength
  rw [hinput]
  split
  · omega
  · split
    · rw [List.length_dropLast]
      omega
    · rw [List.length_append, List.length_singleton]
      omega

theorem releaseLoop_total (s : UsbKeyboard) (codes : UInt8 → UInt8) (olds : List UInt8) :
    ∃ r, s.releaseLoop codes olds = .ok r ∧ r.1.tty = s.tty := by
  induction olds generalizing s codes with
  | nil => exact ⟨_, rfl, rfl⟩
  | cons old rest ih =>
    rw [releaseLoop]
    by_cases hzero : old = 0
    · rw [if_pos hzero]
      exact ih s codes
    · rw [if_neg hzero]
      by_cases hcode : codes old = 0
      · obtain ⟨s', hs', htty⟩ := keypress_release s old
        obtain ⟨r, hr, hrtty⟩ := ih s' (Function.update codes old 2)
        rw [if_pos hcode, hs', ok_bind]
        exact ⟨r, hr, hrtty.trans htty⟩
      · rw [if_neg hcode, ok_bind]
        exact ih s _

theorem pressLoop_total {news : List UInt8} (codes : UInt8 → UInt8) (hlive : s.Live)
    (h : s.Room news.length) : ∃ s', s.pressLoop codes news = .ok s' := by
  induction news generalizing s with
  | nil => exact ⟨_, rfl⟩
  | cons keycode rest ih =>
    have hrest : s.Room rest.length := by
      unfold Room at h ⊢
      rw [List.length_cons] at h
      omega
    rw [pressLoop]
    by_cases hzero : keycode = 0
    · rw [if_pos hzero]
      exact ih hlive hrest
    · rw [if_neg hzero]
      by_cases hcode : codes keycode = 1
      · obtain ⟨s', hs', hlive', hroom⟩ := keypress_press hlive h keycode
        rw [if_pos hcode, hs', ok_bind]
        exact ih hlive' hroom
      · rw [if_neg hcode, ok_bind]
        exact ih hlive hrest

/-- The event for a report that has come in whole. -/
def Completed (recv : TRB) : Prop :=
  recv.trbType = trbTypeTransfer ∧ recv.completionCode = 1 ∧ recv.transferLength = 0

theorem packetRecv_total {recv : TRB} (rep : InputReport) (hrecv : Completed recv)
    (hlive : s.Live) (h : s.Room 6) : ∃ s', s.packetRecv recv rep = .ok s' := by
  obtain ⟨htype, hcode, hlength⟩ := hrecv
  obtain ⟨r, hr, htty⟩ := releaseLoop_total s (markNew (fun _ => 0) rep.keycodes.toList)
    s.state.previousReport.keycodes.toList
  have hroom : r.1.Room rep.keycodes.toList.length := by
    rw [Vector.length_toList, Room, htty]
    exact h
  have hlive' : r.1.Live := by
    rw [Live, htty]
    exact hlive
  obtain ⟨s', hs'⟩ := pressLoop_total r.2 hlive' hroom
  rw [packetRecv, ensure_of htype, ensure_of hcode, ensure_of hlength]
  simp only [ok_bind, hr, hs']
  exact ⟨_, rfl⟩

end UsbKeyboard

/-! ### Runs -/

variable {s₀ s : UsbKeyboard} {l : List UsbEvent}

theorem run_previousReport (h0 : usbKeyboard.init s₀)
    (hrun : usbKeyboard.Run (fun _ _ => True) s₀ l s) :
    s.state.previousReport = lastReport l ∧ s.Live := by
  obtain ⟨hzero, -, -, hlive⟩ := h0
  refine hrun.invariant (P := fun l s => s.state.previousReport = lastReport l ∧ s.Live) ?_
    ⟨hzero, hlive⟩
  rintro l s ev s' ⟨hprev, hlive⟩ - hstep
  rw [lastReport, List.foldl_append, ← lastReport]
  cases ev with
  | report recv rep =>
    have hrecv : s.packetRecv recv rep = .ok s' := hstep
    obtain ⟨-, -, -, -, -, -, hrep⟩ := UsbKeyboard.packetRecv_parts hrecv
    exact ⟨hrep, UsbKeyboard.packetRecv_live hrecv hlive⟩
  | tty ev =>
    obtain ⟨t, ht, rfl⟩ := hstep
    obtain ⟨hon, hic, -⟩ := step_input hlive.1 hlive.2 ht
    exact ⟨hprev, hon, hic⟩

/-- **The calls for a report are its differences from the one before it**, and a report that
has come in whole is handled if the terminal has room for six characters. -/
theorem report_differences (h0 : usbKeyboard.init s₀)
    (hrun : usbKeyboard.Run (fun _ _ => True) s₀ l s) (recv : TRB) {rep : InputReport}
    (hrep : rep.Distinct) :
    (∀ s', s.packetRecv recv rep = .ok s' →
      Differences s.calls s'.calls (lastReport l) rep) ∧
    (UsbKeyboard.Completed recv → s.Room 6 → ∃ s', s.packetRecv recv rep = .ok s') := by
  obtain ⟨hprev, hlive⟩ := run_previousReport h0 hrun
  refine ⟨fun s' hs' => ?_, fun hrecv hroom =>
    UsbKeyboard.packetRecv_total rep hrecv hlive hroom⟩
  rw [← hprev]
  exact UsbKeyboard.packetRecv_spec hrep hs'

/-- With A and B down, B moves to another slot, A comes up and C goes down. -/
theorem report_differences_three_keys :
    ∃ s₀ recv rep₁ rep₂ s s', usbKeyboard.init s₀ ∧
      usbKeyboard.Run (fun _ _ => True) s₀ [.report recv rep₁] s ∧ rep₁.keys = [4, 5] ∧
      rep₂.keys = [5, 6] ∧ s.packetRecv recv rep₂ = .ok s' ∧
      Differences s.calls s'.calls rep₁ rep₂ := by
  let recv : TRB := { TRB.zero with reserved0 := 0x01000000, trbType := trbTypeTransfer }
  let rep₁ : InputReport := ⟨0, 0, #v[4, 0, 5, 0, 0, 0]⟩
  let rep₂ : InputReport := ⟨0, 0, #v[0, 5, 6, 0, 0, 0]⟩
  let fresh (t : Tty) : UsbKeyboard := ⟨⟨0, 4, .zero, false, false⟩, createRing 0, t, []⟩
  have hok : (initialiseTty 32 32 >>= fun t => (fresh t).packetRecv recv rep₁ >>= fun s =>
      ensure (s.tty.inputBuffer.length + 6 ≤ inputBufLength) TtyHalt.hcf).isOk = true := by
    decide
  obtain ⟨u, hu⟩ := exists_of_isOk hok
  simp only [bind_eq_ok, ensure_eq_ok] at hu
  obtain ⟨t, ht, s, hs, hroom⟩ := hu
  have htty : terminal.init t := ⟨32, 32, ht⟩
  have h0 : usbKeyboard.init (fresh t) := ⟨rfl, rfl, rfl, .init htty, (Inv.init htty).icanon⟩
  have hstep : usbKeyboard.step (fresh t) (.report recv rep₁) s := hs
  have hrun : usbKeyboard.Run (fun _ _ => True) (fresh t) [.report recv rep₁] s :=
    .snoc (.nil _) trivial hstep
  have hdistinct : rep₂.Distinct := by
    unfold InputReport.Distinct
    decide
  obtain ⟨hdiff, htotal⟩ := report_differences h0 hrun recv hdistinct
  obtain ⟨s', hs'⟩ := htotal ⟨by decide, by decide, by decide⟩ hroom
  exact ⟨fresh t, recv, rep₁, rep₂, s, s', h0, hrun, by decide, by decide, hs', hdiff s' hs'⟩

end Stuos.Usb
