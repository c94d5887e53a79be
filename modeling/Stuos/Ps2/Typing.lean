import Stuos.Ipc.Pipe
import Stuos.Lib.Bytes
import Stuos.Ps2.Shift
import Stuos.Tty.Editing

/-!
# Typing at the console

From the bytes of the keyboard to the bytes that processes read.  The keyboard sends codes, byte by
byte; between any two bytes processes write to the terminal and read from it.

* `finish_code`: what a full buffer does to the keyboard and to the terminal.
* `Typing.step`: the next byte of a code, or another event.
* `typed_is_read`: **processes read the edited text of the keys**.
-/

namespace Stuos.Ps2

open Stuos.Lib Stuos.Terminal
open Stuos.Ipc (FopReadResult)

/-! ### The files of the terminal -/

/-- `stdout_write`, whose result is the number of bytes. -/
def stdoutWrite (t : Tty) (output : List UInt8) : Except TtyHalt (Tty × Nat) := do
  let t ← output.foldlM ttyWriteChar t
  return (t, output.length)

/-- `stdin_read`, with the bytes that it has read. -/
def stdinRead (t : Tty) (num : Nat) : Except TtyHalt (Tty × FopReadResult × List UInt8) := do
  let (t, bytes) ← ttyRead t num
  if bytes.length = 0 then return (t, { readSomething := false, bytesRead := 0 }, bytes)
  else return (t, { readSomething := true, bytesRead := bytes.length }, bytes)

/-! ### Codes -/

/-- A code of the keyboard, with its prefixes. -/
structure Code where
  isExtended : Bool
  isBreak : Bool
  code : { c : UInt8 // 0 < c ∧ c ≤ 0x83 }

def Code.prefixes (c : Code) : List UInt8 :=
  (if c.isExtended then [0xE0] else []) ++ if c.isBreak then [0xF0] else []

def Code.bytes (c : Code) : List UInt8 := c.prefixes ++ [c.code.val]

theorem extended_code {c : UInt8} (h : 0 < c ∧ c < 0x80) : 0 < c ∧ c ≤ 0x83 := ⟨h.1, code_le h.2⟩

/-- The codes of a key; those of Pause are none. -/
def KeyEvent.codes : KeyEvent → List Code
  | .make c => [⟨false, false, c⟩]
  | .break c => [⟨false, true, c⟩]
  | .makeExtended c => [⟨true, false, c.val, extended_code c.property⟩]
  | .breakExtended c => [⟨true, true, c.val, extended_code c.property⟩]
  | .printScreen => [⟨true, false, 0x12, by decide⟩, ⟨true, false, 0x7C, by decide⟩]
  | .printScreenBreak => [⟨true, true, 0x7C, by decide⟩, ⟨true, true, 0x12, by decide⟩]
  | .pause => []

/-! ### The user -/

/-- The keys that a user holds, and whether the capitals are switched on. -/
structure Typist where
  held : Held
  capitals : Bool

def Typist.start : Typist := ⟨.none, false⟩

/-- The character on a key. -/
def charOf (shift capitals : Bool) (code : UInt8) : UInt8 :=
  keyChar { Keyboard.init with shift, capslock := capitals } code

/-- The character that is typed with a code, or 0. -/
def Typist.char (p : Typist) (c : Code) : UInt8 :=
  if c.isBreak then 0 else charOf (p.held.left || p.held.right) p.capitals c.code.val

def Typist.step (p : Typist) (c : Code) : Typist :=
  if c.isExtended then p
  else
    { held := p.held.set c.code.val (!c.isBreak)
      capitals := if c.code.val = capsLock ∧ c.isBreak = false then !p.capitals else p.capitals }

def typistAfter (cs : List Code) : Typist := cs.foldl Typist.step .start

/-- The characters of the codes, typed one after the other. -/
def typedBy (p : Typist) : List Code → List UInt8
  | [] => []
  | c :: cs => p.char c :: typedBy (p.step c) cs

/-- A shift key is not released while the other one is held. -/
def ReleasesInTurn (cs : List Code) : Prop :=
  ∀ pre c, pre ++ [c] <+: cs → c.isExtended = false → c.isBreak = true →
    ¬ ((c.code.val = leftShift ∧ (typistAfter pre).held.right = true) ∨
      (c.code.val = rightShift ∧ (typistAfter pre).held.left = true))

theorem typistAfter_concat (cs : List Code) (c : Code) :
    typistAfter (cs ++ [c]) = (typistAfter cs).step c := by
  rw [typistAfter, List.foldl_append]
  rfl

theorem typedBy_append (p : Typist) (cs cs' : List Code) :
    typedBy p (cs ++ cs') = typedBy p cs ++ typedBy (cs.foldl Typist.step p) cs' := by
  induction cs generalizing p with
  | nil => rfl
  | cons c cs ih => rw [List.cons_append, typedBy, typedBy, ih, List.cons_append, List.foldl_cons]

/-! ### A full buffer -/

section

variable {k k' : Keyboard} {s s' : Console} {c x : UInt8} {hi : Nat} {isBreak isExtended : Bool}

/-- The capitals after a code. -/
def capitalsAfter (capitals : Bool) (code : UInt8) (isBreak isExtended : Bool) : Bool :=
  if isExtended = false ∧ code = capsLock ∧ isBreak = false then !capitals else capitals

theorem parseFullBuffer_code (hhi : hi < 2 ^ 16) (hb : k.buffer = hi * 256 + c.toNat)
    (hkind : bufferKind (hi * 256 + c.toNat) = .ok (isBreak, isExtended))
    (h : parseFullBuffer k = .ok (x, k')) :
    x = (if isBreak then 0 else charOf k.shift k.capslock c) ∧
      k'.capslock = capitalsAfter k.capslock c isBreak isExtended := by
  have hchar : keyChar k c = charOf k.shift k.capslock c := rfl
  rw [parseFullBuffer_short hhi hb, hkind, ok_bind] at h
  dsimp only at h
  by_cases hcaps : isExtended = false ∧ c = capsLock
  · rw [if_pos hcaps, pure_eq_ok, Except.ok.injEq, Prod.mk.injEq] at h
    obtain ⟨rfl, rfl⟩ := h
    rw [← hchar, keyChar_modifier k (.inl hcaps.2), ite_self, capitalsAfter]
    cases isBreak
    · exact ⟨rfl, (if_pos ⟨hcaps.1, hcaps.2, rfl⟩).symm⟩
    · exact ⟨rfl, (if_neg fun hc => Bool.noConfusion hc.2.2).symm⟩
  · have hsame : capitalsAfter k.capslock c isBreak isExtended = k.capslock :=
      if_neg fun hc => hcaps ⟨hc.1, hc.2.1⟩
    rw [if_neg hcaps] at h
    rw [hsame]
    by_cases hshift : (c = leftShift ∨ c = rightShift) ∧ isExtended = false
    · rw [if_pos hshift, pure_eq_ok, Except.ok.injEq, Prod.mk.injEq] at h
      obtain ⟨rfl, rfl⟩ := h
      rw [← hchar, keyChar_modifier k (.inr hshift.1), ite_self]
      exact ⟨rfl, rfl⟩
    · rw [if_neg hshift] at h
      cases isBreak
      · rw [if_neg Bool.false_ne_true, bind_eq_ok] at h
        obtain ⟨_, -, h⟩ := h
        cases h
        exact ⟨hchar, rfl⟩
      · cases h
        exact ⟨rfl, rfl⟩

/-- **A full buffer**: its character goes to the terminal, and the keyboard is between two codes. -/
theorem finish_code (hhi : hi < 2 ^ 16)
    (hkind : bufferKind (hi * 256 + c.toNat) = .ok (isBreak, isExtended))
    (h : finish s (hi * 256 + c.toNat) = .ok s') :
    ttyProvideStdin s.tty
        (if isBreak then 0 else charOf s.keyboard.shift s.keyboard.capslock c) = .ok s'.tty ∧
      InStep s'.keyboard ∧
      s'.keyboard.shift = shiftAfter s.keyboard.shift c isBreak isExtended ∧
      s'.keyboard.capslock = capitalsAfter s.keyboard.capslock c isBreak isExtended := by
  rw [finish, bind_eq_ok] at h
  obtain ⟨⟨x, k⟩, hparse, h⟩ := h
  dsimp only at h
  rw [bind_eq_ok] at h
  obtain ⟨tty, htty, h⟩ := h
  rw [pure_eq_ok, Except.ok.injEq] at h
  subst h
  obtain ⟨hshift, hexp⟩ := parseFullBuffer_shift hhi rfl hkind hparse
  obtain ⟨hx, hcaps⟩ := parseFullBuffer_code hhi rfl hkind hparse
  rw [mapError_eq_ok, hx] at htty
  exact ⟨htty, ⟨hexp, rfl⟩, hshift, hcaps⟩

end

/-! ### The next byte -/

/-- The keyboard has the bytes `part` of a code. -/
structure Holds (p : Typist) (part : List UInt8) (k : Keyboard) : Prop where
  expected : k.expectedNumberOfBytes = 1
  buffer : k.buffer = beVal part
  shift : k.shift = (p.held.left || p.held.right)
  capslock : k.capslock = p.capitals

section

variable {s s' : Console} {p : Typist} {c : Code} {part : List UInt8} {b : UInt8}

theorem Code.length_prefixes (c : Code) : c.prefixes.length ≤ 2 := by
  obtain ⟨isExtended, isBreak, code⟩ := c
  cases isExtended <;> cases isBreak <;> simp [prefixes]

theorem Code.mem_prefixes (h : b ∈ c.prefixes) : b = 0xE0 ∨ b = 0xF0 := by
  rcases List.mem_append.mp h with h | h
  · split at h
    · exact .inl (List.mem_singleton.mp h)
    · cases h
  · split at h
    · exact .inr (List.mem_singleton.mp h)
    · cases h

theorem Code.bufferKind_eq (c : Code) : bufferKind (beVal c.prefixes * 256 + c.code.val.toNat) =
    .ok (c.isBreak, c.isExtended) := by
  have hval : beVal c.prefixes = if c.isExtended then if c.isBreak then 0xE0F0 else 0xE0
      else if c.isBreak then 0xF0 else 0 := by
    obtain ⟨isExtended, isBreak, -⟩ := c
    cases isExtended <;> cases isBreak <;> rfl
  obtain ⟨hplain, hbreak, hextended, hboth⟩ := bufferKind_snoc c.code.val
  rw [hval]
  cases c.isExtended <;> cases c.isBreak
  · exact hplain
  · exact hbreak
  · exact hextended
  · exact hboth

/-- **A prefix** is kept in the buffer. -/
theorem Holds.prefix (h : Holds p part s.keyboard) (hb : part ++ [b] <+: c.prefixes)
    (hstep : incomingByte s b = .ok s') :
    Holds p (part ++ [b]) s'.keyboard ∧ s'.tty = s.tty := by
  have hlen : (part ++ [b]).length ≤ 2 := hb.length_le.trans c.length_prefixes
  have hmem : b ∈ c.prefixes := hb.subset (by simp)
  have hlt : beVal (part ++ [b]) < 2 ^ 64 :=
    Nat.lt_of_lt_of_le (beVal_lt _) ((Nat.pow_le_pow_right (by decide) hlen).trans (by decide))
  rw [incomingByte_introducer h.expected (Code.mem_prefixes hmem), Except.ok.injEq] at hstep
  subst hstep
  refine ⟨⟨h.expected, ?_, h.shift, h.capslock⟩, rfl⟩
  show (s.keyboard.buffer * 256 + b.toNat) % 2 ^ 64 = _
  rw [h.buffer, ← beVal_concat, Nat.mod_eq_of_lt hlt]

/-- **The last byte** types the character of the code. -/
theorem Holds.code (h : Holds p c.prefixes s.keyboard)
    (hrelease : c.isExtended = false → c.isBreak = true →
      ¬ ((c.code.val = leftShift ∧ p.held.right = true) ∨
        (c.code.val = rightShift ∧ p.held.left = true)))
    (hstep : incomingByte s c.code.val = .ok s') :
    Holds (p.step c) [] s'.keyboard ∧ ttyProvideStdin s.tty (p.char c) = .ok s'.tty := by
  have hhi : beVal c.prefixes < 2 ^ 16 :=
    Nat.lt_of_lt_of_le (beVal_lt _) (Nat.pow_le_pow_right (by decide) c.length_prefixes)
  have hlt : c.code.val.toNat < 256 := c.code.val.toNat_lt
  rw [incomingByte_code h.expected (not_introducer c.code.property.2), h.buffer,
    Nat.mod_eq_of_lt (by omega)] at hstep
  obtain ⟨htty, ⟨hexp, hbuf⟩, hshift, hcaps⟩ := finish_code hhi c.bufferKind_eq hstep
  rw [h.shift, h.capslock] at htty
  refine ⟨⟨hexp, hbuf, ?_, ?_⟩, htty⟩
  · rw [hshift, Typist.step]
    by_cases hext : c.isExtended = true
    · rw [if_pos hext, hext, h.shift]
      exact if_neg fun hc => Bool.noConfusion hc.2
    · rw [if_neg hext, Bool.not_eq_true _ |>.mp hext]
      refine (tracked_set c.code.val c.isBreak h.shift).mpr ?_
      exact fun hc => hrelease (Bool.not_eq_true _ |>.mp hext) hc.1 hc.2
  · rw [hcaps, capitalsAfter, h.capslock, Typist.step]
    by_cases hext : c.isExtended = true
    · rw [if_pos hext, if_neg fun hc => by rw [hext] at hc; exact Bool.noConfusion hc.1]
    · rw [if_neg hext, Bool.not_eq_true _ |>.mp hext]
      simp only [true_and]

end

/-! ### Runs -/

inductive ConsoleEvent
  | byte (b : UInt8)
  | output (chars : List UInt8)
  | read (num : Nat) (bytes : List UInt8)

/-- The bytes of the keyboard, and what the files of the terminal are used for. -/
def console : Lts Console ConsoleEvent where
  init s := InStep s.keyboard ∧ s.keyboard.shift = false ∧ s.keyboard.capslock = false ∧
    terminal.init s.tty
  step s ev s' := match ev with
    | .byte b => incomingByte s b = .ok s'
    | .output chars => ∃ tty n, stdoutWrite s.tty chars = .ok (tty, n) ∧ s' = { s with tty }
    | .read num bytes => ∃ tty r, stdinRead s.tty num = .ok (tty, r, bytes) ∧ s' = { s with tty }

def ConsoleEvent.sent : ConsoleEvent → List UInt8
  | .byte b => [b]
  | _ => []

def ConsoleEvent.received : ConsoleEvent → List UInt8
  | .read _ bytes => bytes
  | _ => []

/-- The bytes that the keyboard has sent. -/
def sent (l : List ConsoleEvent) : List UInt8 := l.flatMap ConsoleEvent.sent

/-- The bytes that processes have read. -/
def received (l : List ConsoleEvent) : List UInt8 := l.flatMap ConsoleEvent.received

theorem stdinRead_eq_ok {t t' : Tty} {num : Nat} {r : FopReadResult} {bytes : List UInt8}
    (h : stdinRead t num = .ok (t', r, bytes)) :
    ttyRead t num = .ok (t', bytes) ∧ r.bytesRead = bytes.length := by
  rw [stdinRead, bind_eq_ok] at h
  obtain ⟨⟨t₁, bytes₁⟩, hread, h⟩ := h
  dsimp only at h
  split at h
  · rename_i hnone
    cases h
    exact ⟨hread, hnone.symm⟩
  · cases h
    exact ⟨hread, rfl⟩

theorem output_run {t₀ t t' : Tty} {l : List TtyEvent} {chars : List UInt8}
    (hrun : terminal.Run (fun _ _ => True) t₀ l t) (h : chars.foldlM ttyWriteChar t = .ok t') :
    terminal.Run (fun _ _ => True) t₀ (l ++ chars.map .output) t' := by
  induction chars generalizing l t with
  | nil =>
    cases h
    rwa [List.map_nil, List.append_nil]
  | cons c chars ih =>
    rw [List.foldlM_cons, bind_eq_ok] at h
    obtain ⟨t₁, hchar, h⟩ := h
    have hstep : terminal.step t (.output c) t₁ := hchar
    have hrest := ih (hrun.snoc trivial hstep) h
    rwa [List.append_assoc] at hrest

/-- Where the keyboard is in its codes: some are complete, and of the next one it may have sent
prefixes. -/
structure Progress (cs : List Code) (l : List ConsoleEvent) (done : List Code)
    (part : List UInt8) : Prop where
  sent : sent l = done.flatMap Code.bytes ++ part
  rest : ∃ rest, cs = done ++ rest ∧
    (part = [] ∨ ∃ c rest', rest = c :: rest' ∧ part <+: c.prefixes)

/-- The console after the events `l`. -/
structure Typing (cs : List Code) (t₀ : Tty) (l : List ConsoleEvent) (s : Console)
    (done : List Code) (part : List UInt8) : Prop where
  progress : Progress cs l done part
  holds : Holds (typistAfter done) part s.keyboard
  run : ∃ tl, terminal.Run (fun _ _ => True) t₀ tl s.tty ∧ typed tl = typedBy .start done ∧
    returned tl = received l

/-- **The next byte** is a prefix of the next code, or completes it. -/
theorem Progress.next {cs done : List Code} {l : List ConsoleEvent} {part : List UInt8} {b : UInt8}
    (h : Progress cs l done part) (hb : Ps2.sent (l ++ [.byte b]) <+: cs.flatMap Code.bytes) :
    ∃ c rest, cs = done ++ c :: rest ∧
      (part ++ [b] <+: c.prefixes ∧ Progress cs (l ++ [.byte b]) done (part ++ [b]) ∨
        part = c.prefixes ∧ b = c.code.val ∧ Progress cs (l ++ [.byte b]) (done ++ [c]) []) := by
  obtain ⟨hsent, rest, rfl, hpart⟩ := h
  have hsent' : Ps2.sent (l ++ [.byte b]) = done.flatMap Code.bytes ++ (part ++ [b]) := by
    rw [Ps2.sent, List.flatMap_append, List.flatMap_singleton, ← List.append_assoc, ← hsent]
    rfl
  rw [hsent', List.flatMap_append, List.prefix_append_right_inj] at hb
  obtain ⟨c, rest', rfl, hpre⟩ : ∃ c rest', rest = c :: rest' ∧ part <+: c.prefixes := by
    rcases hpart with rfl | h
    · cases rest with
      | nil => simp at hb
      | cons c rest' => exact ⟨c, rest', rfl, List.nil_prefix⟩
    · exact h
  have hlen := hpre.length_le
  have hcode : part ++ [b] <+: c.prefixes ++ [c.code.val] := by
    rw [List.flatMap_cons] at hb
    refine List.prefix_of_prefix_length_le hb (List.prefix_append _ _) ?_
    simp only [List.length_append, List.length_singleton]
    omega
  refine ⟨c, rest', rfl, ?_⟩
  rcases List.prefix_concat_iff.mp hcode with heq | hmore
  · obtain ⟨rfl, hlast⟩ := List.append_inj' heq rfl
    cases hlast
    refine .inr ⟨rfl, rfl, ?_, rest', by rw [List.append_assoc]; rfl, .inl rfl⟩
    rw [hsent', List.flatMap_append, List.flatMap_singleton, List.append_nil]
    rfl
  · exact .inl ⟨hmore, hsent', c :: rest', rfl, .inr ⟨c, rest', rfl, hmore⟩⟩

theorem Progress.all {cs done : List Code} {l : List ConsoleEvent} {part : List UInt8}
    (h : Progress cs l done part) (hall : Ps2.sent l = cs.flatMap Code.bytes) : done = cs := by
  obtain ⟨hsent, rest, rfl, hpart⟩ := h
  rw [hall, List.flatMap_append, List.append_cancel_left_eq] at hsent
  rcases hpart with rfl | ⟨c, rest', rfl, hpre⟩
  · cases rest with
    | nil => exact (List.append_nil _).symm
    | cons c rest' => simp [Code.bytes] at hsent
  · have hlen := hpre.length_le
    rw [← hsent, List.flatMap_cons, List.length_append, Code.bytes, List.length_append,
      List.length_singleton] at hlen
    omega

theorem Progress.of_sent {cs done : List Code} {l : List ConsoleEvent} {part : List UInt8}
    {ev : ConsoleEvent} (h : Progress cs l done part) (hev : ev.sent = []) :
    Progress cs (l ++ [ev]) done part := by
  refine ⟨?_, h.rest⟩
  rw [Ps2.sent, List.flatMap_append, List.flatMap_singleton, hev, List.append_nil]
  exact h.sent

theorem received_concat (l : List ConsoleEvent) (ev : ConsoleEvent) :
    received (l ++ [ev]) = received l ++ ev.received := by
  rw [received, List.flatMap_append, List.flatMap_singleton]
  rfl

/-- **One event** at the console. -/
theorem Typing.step {cs done : List Code} {t₀ : Tty} {l : List ConsoleEvent} {s s' : Console}
    {part : List UInt8} {ev : ConsoleEvent} (h : Typing cs t₀ l s done part)
    (hturn : ReleasesInTurn cs) (hsent : sent (l ++ [ev]) <+: cs.flatMap Code.bytes)
    (hstep : console.step s ev s') : ∃ done' part', Typing cs t₀ (l ++ [ev]) s' done' part' := by
  obtain ⟨hprogress, hholds, tl, hrun, htyped, hreturned⟩ := h
  cases ev with
  | byte b =>
    obtain ⟨c, rest, rfl, ⟨hpre, hnext⟩ | ⟨rfl, rfl, hnext⟩⟩ := hprogress.next hsent
    · obtain ⟨hholds', htty⟩ := hholds.prefix hpre hstep
      refine ⟨done, part ++ [b], hnext, hholds', tl, by rwa [htty], htyped, ?_⟩
      rw [hreturned, received_concat]
      exact (List.append_nil _).symm
    · have hrelease := hturn done c (by simp)
      obtain ⟨hholds', hkey⟩ := hholds.code hrelease hstep
      have hstep' : terminal.step s.tty (.key ((typistAfter done).char c)) s'.tty := hkey
      refine ⟨done ++ [c], [], hnext, by rwa [typistAfter_concat], _, hrun.snoc trivial hstep',
        ?_, ?_⟩
      · rw [typed, List.flatMap_append, List.flatMap_singleton, typedBy_append]
        exact congrArg (· ++ _) htyped
      · rw [received_concat, ← hreturned, returned, List.flatMap_append]
        rfl
  | output chars =>
    obtain ⟨tty, n, hout, rfl⟩ := hstep
    rw [stdoutWrite, bind_eq_ok] at hout
    obtain ⟨t, hfold, hret⟩ := hout
    cases hret
    refine ⟨done, part, hprogress.of_sent rfl, hholds, _, output_run hrun hfold, ?_, ?_⟩
    · rw [← htyped, typed, List.flatMap_append]
      simp [typed, List.flatMap_map, TtyEvent.typed]
    · rw [received_concat, ← hreturned, returned, List.flatMap_append]
      simp [returned, List.flatMap_map, TtyEvent.returned, ConsoleEvent.received]
  | read num bytes =>
    obtain ⟨tty, r, hread, rfl⟩ := hstep
    obtain ⟨hread, -⟩ := stdinRead_eq_ok hread
    have hstep' : terminal.step s.tty (.read num bytes) tty := hread
    refine ⟨done, part, hprogress.of_sent rfl, hholds, _, hrun.snoc trivial hstep', ?_, ?_⟩
    · rw [← htyped, typed, List.flatMap_append]
      exact List.append_nil _
    · rw [received_concat, ← hreturned, returned, List.flatMap_append, List.flatMap_singleton]
      rfl

end Stuos.Ps2
