import Stuos.Tty.Terminal

/-!
# The PS/2 keyboard

`ps2_driver.c` with `SCANCODE_VERSION` 2: the bytes of a key are collected in a 64-bit
buffer by `handle_incoming_byte`, which counts the bytes that are still to come, and
`parse_full_buffer` turns a full buffer into a character for the terminal.
-/

namespace Stuos.Ps2

open Stuos.Lib Stuos.Terminal

/-- What stops the kernel here. -/
inductive Ps2Halt
  /-- an `HCF` or a failed `assert` of the driver -/
  | hcf
  /-- one of the terminal -/
  | tty (halt : TtyHalt)
  deriving DecidableEq, Repr

def leftShift : UInt8 := 0x12

def rightShift : UInt8 := 0x59

def capsLock : UInt8 := 0x58

/-- The entries of `lookup_nonextended`: a key code, its character, and the one with shift,
if there is another. -/
def lookupTable : List (UInt8 × UInt8 × UInt8) := [
  (0x1C, 'a'.toUInt8, 0), (0x32, 'b'.toUInt8, 0), (0x21, 'c'.toUInt8, 0),
  (0x23, 'd'.toUInt8, 0), (0x24, 'e'.toUInt8, 0), (0x2B, 'f'.toUInt8, 0),
  (0x34, 'g'.toUInt8, 0), (0x33, 'h'.toUInt8, 0), (0x43, 'i'.toUInt8, 0),
  (0x3B, 'j'.toUInt8, 0), (0x42, 'k'.toUInt8, 0), (0x4B, 'l'.toUInt8, 0),
  (0x3A, 'm'.toUInt8, 0), (0x31, 'n'.toUInt8, 0), (0x44, 'o'.toUInt8, 0),
  (0x4D, 'p'.toUInt8, 0), (0x15, 'q'.toUInt8, 0), (0x2D, 'r'.toUInt8, 0),
  (0x1B, 's'.toUInt8, 0), (0x2C, 't'.toUInt8, 0), (0x3C, 'u'.toUInt8, 0),
  (0x2A, 'v'.toUInt8, 0), (0x1D, 'w'.toUInt8, 0), (0x22, 'x'.toUInt8, 0),
  (0x35, 'y'.toUInt8, 0), (0x1A, 'z'.toUInt8, 0),
  (0x16, '1'.toUInt8, '!'.toUInt8), (0x1E, '2'.toUInt8, 34), (0x26, '3'.toUInt8, 0),
  (0x25, '4'.toUInt8, '$'.toUInt8), (0x2E, '5'.toUInt8, '%'.toUInt8),
  (0x36, '6'.toUInt8, '^'.toUInt8), (0x3D, '7'.toUInt8, '!'.toUInt8),
  (0x3E, '8'.toUInt8, '*'.toUInt8), (0x46, '9'.toUInt8, '('.toUInt8),
  (0x45, '0'.toUInt8, ')'.toUInt8), (0x4E, '-'.toUInt8, '_'.toUInt8),
  (0x55, '='.toUInt8, '+'.toUInt8), (0x5A, newline, 0), (0x66, backspace, 0),
  (0x29, space, 0), (0x4A, '/'.toUInt8, '?'.toUInt8), (0x49, '.'.toUInt8, '>'.toUInt8),
  (0x41, ','.toUInt8, '<'.toUInt8), (0x5D, 92, '|'.toUInt8), (0x4C, ';'.toUInt8, ':'.toUInt8),
  (0x52, 39, '@'.toUInt8)]

/-- `lookup_nonextended[code][shifted]`. -/
def lookupNonextended (code : UInt8) (shifted : Bool) : UInt8 :=
  match lookupTable.lookup code with
  | none => 0
  | some (plain, other) => if shifted then other else plain

/-- The static variables of the driver; `buffer` is a `uint64_t`. -/
structure Keyboard where
  capslock : Bool
  shift : Bool
  expectedNumberOfBytes : Nat
  buffer : Nat
  deriving DecidableEq, Repr

def Keyboard.init : Keyboard :=
  { capslock := false, shift := false, expectedNumberOfBytes := 1, buffer := 0 }

/-- A byte of `union BufferData`, from the least significant one on. -/
def bufferByte (data i : Nat) : UInt8 := UInt8.ofNat (data / 256 ^ i)

/-- The last part of `parse_full_buffer`: the character of a key, or 0. -/
def keyChar (k : Keyboard) (code : UInt8) : UInt8 :=
  let value := lookupNonextended code k.shift
  -- if there is no value, try the non-shift version
  let value := if value = 0 then lookupNonextended code false else value
  if value = 0 then 0
  else if k.shift || k.capslock then toupper value
  else value

/-- Is it a break code, and is it an extended one. -/
def bufferKind (data : Nat) : Except Ps2Halt (Bool × Bool) :=
  if bufferByte data 2 = 0xE0 then do
    -- must be E0 F0 xx
    ensure (bufferByte data 1 = 0xF0) .hcf
    return (true, true)
  else do
    ensure (bufferByte data 2 = 0) .hcf
    if bufferByte data 1 = 0xF0 then return (true, false)
    else if bufferByte data 1 = 0xE0 then return (false, true)
    else
      ensure (bufferByte data 1 = 0) .hcf
      return (false, false)

/-- `parse_full_buffer`: the character, or 0. -/
def parseFullBuffer (k : Keyboard) : Except Ps2Halt (UInt8 × Keyboard) :=
  if k.buffer = 0xE11477E1F014E077 then .ok (0, k)
  -- printscreen, and its break
  else if k.buffer = 0xE012E07C then .ok (0, k)
  else if k.buffer = 0xE0F07CE0F012 then .ok (0, k)
  else do
    let (isBreak, isExtended) ← bufferKind k.buffer
    let code := bufferByte k.buffer 0
    if isExtended = false ∧ code = capsLock then
      return (0, if isBreak then k else { k with capslock := !k.capslock })
    else if (code = leftShift ∨ code = rightShift) ∧ isExtended = false then
      return (0, { k with shift := !isBreak })
    else if isBreak then return (0, k)
    else
      ensure (code < 128) .hcf
      return (keyChar k code, k)

/-- The driver and the terminal it types into. -/
structure Console where
  keyboard : Keyboard
  tty : Tty

/-- How many bytes are to come after this one. -/
def expectedAfter (expected : Nat) (first : UInt8) : Nat :=
  -- extended code or break code, need at least one more byte
  let expected := if first = 0xE0 ∨ first = 0xF0 then expected + 1 else expected
  -- pause key is weird
  let expected := if first = 0xE1 then 7 else expected
  expected - 1

/-- One turn of the loop of `handle_incoming_byte`. -/
def incomingByte (s : Console) (first : UInt8) : Except Ps2Halt Console := do
  let k := { s.keyboard with
    buffer := (s.keyboard.buffer * 256 + first.toNat) % 2 ^ 64
    expectedNumberOfBytes := expectedAfter s.keyboard.expectedNumberOfBytes first }
  if k.expectedNumberOfBytes = 0 then
    let (c, k) ← parseFullBuffer { k with expectedNumberOfBytes := 1 }
    let tty ← (ttyProvideStdin s.tty c).mapError .tty
    return { keyboard := { k with buffer := 0 }, tty }
  else return { s with keyboard := k }

/-- `handle_incoming_byte`, with the bytes that the controller has for it. -/
def handleIncomingByte (s : Console) (bytes : List UInt8) : Except Ps2Halt Console :=
  bytes.foldlM incomingByte s

end Stuos.Ps2
