import Mathlib.Data.List.Basic
import Mathlib.Logic.Function.Basic
import Stuos.Lib.Bytes
import Stuos.Lib.Halt

/-!
# The terminal

`tty.c`.  The text on the screen is edited by `write_from_multiple_sources`, which counts
in `current_run_of_keyboard_inputs` how many characters a backspace may still erase; the
input that processes read is edited by `tty_provide_stdin`, which takes a character off
for a backspace whenever there is one.

The display is a grid of cells of 16 by 16 pixels, and a cell shows the character that
`blit_char` drew last.
-/

namespace Stuos.Terminal

open Stuos.Lib

/-- What stops the kernel here. -/
inductive TtyHalt
  | hcf
  deriving DecidableEq, Repr

/-- `current_buffer_dirty_status`. -/
inductive DirtyStatus
  | onlyPrevCharAffected
  | allDirty
  deriving DecidableEq, Repr

def charScreenSize : Nat := 16

def inputBufLength : Nat := 1000

def backspace : UInt8 := 8

def space : UInt8 := 32

def questionMark : UInt8 := 63

/-- The static state of `tty.c`.  A null `buffer` is `none`; `inputBuffer` is the part of
`input_buffer` below `next`; `display` is what the cells show. -/
structure Tty where
  charsWidth : Nat
  charsHeight : Nat
  cursorX : Nat
  cursorY : Nat
  buffer : Option (Nat → UInt8)
  currentRunOfKeyboardInputs : Nat
  icanon : Bool
  dirty : DirtyStatus
  inputBuffer : List UInt8
  display : Nat → Nat → UInt8

/-- `find_newline_in_input_buffer`. -/
def findNewline : List UInt8 → Nat
  | [] => 0
  | c :: cs => if c = newline then 1 else
    match findNewline cs with
    | 0 => 0
    | i + 1 => i + 2

/-- `index_buffer`. -/
def indexBuffer (t : Tty) (x y : Nat) : Except TtyHalt Nat := do
  ensure (y < t.charsHeight) .hcf
  ensure (x < t.charsWidth) .hcf
  return x + t.charsWidth * y

/-- `memset(buffer + start, ' ', n)`. -/
def blank (buffer : Nat → UInt8) (start n : Nat) : Nat → UInt8 :=
  fun i => if start ≤ i ∧ i < start + n then space else buffer i

/-! ### Rendering -/

/-- `blit_char`, in cells. -/
def blitChar (display : Nat → Nat → UInt8) (c : UInt8) (x y : Nat) : Nat → Nat → UInt8 :=
  Function.update display x (Function.update (display x) y c)

/-- The loop of `blit_row` from column `x` on. -/
def blitRowFrom (display : Nat → Nat → UInt8) (chars : Nat → UInt8) (y : Nat)
    (seenNewline : Bool) (x : Nat) : Nat → (Nat → Nat → UInt8)
  | 0 => display
  | n + 1 =>
    let seenNewline := seenNewline || chars x == newline
    -- blank if a newline has been entered
    let curr := if seenNewline then space else chars x
    blitRowFrom (blitChar display curr x y) chars y seenNewline (x + 1) n

def blitRow (t : Tty) (display : Nat → Nat → UInt8) (chars : Nat → UInt8) (y : Nat) :
    Nat → Nat → UInt8 :=
  blitRowFrom display chars y false 0 t.charsWidth

/-- `blit`: the display after it. -/
def blit (t : Tty) (buffer : Nat → UInt8) : Except TtyHalt (Nat → Nat → UInt8) :=
  match t.dirty with
  | .onlyPrevCharAffected => do
    let idx ← indexBuffer t (t.cursorX - 1) t.cursorY
    return blitChar t.display (buffer idx) (t.cursorX - 1) (t.charsHeight - 1)
  | .allDirty =>
    -- from the row after the cursor, all the way back round to the cursor
    (List.range t.charsHeight).foldlM (fun display line => do
      let start ← indexBuffer t 0 ((line + t.cursorY + 1) % t.charsHeight)
      return blitRow t display (fun x => buffer (start + x)) line) t.display

/-- `initialise_tty`, on a display of this many pixels.  `malloc(0)` returns null. -/
def initialiseTty (width height : Nat) : Except TtyHalt Tty := do
  let charsWidth := width / charScreenSize
  let charsHeight := height / charScreenSize
  let bufLen := charsWidth * charsHeight
  let t : Tty :=
    { charsWidth := charsWidth
      charsHeight := charsHeight
      cursorX := 0
      cursorY := 0
      buffer := if bufLen = 0 then none else some (fun _ => space)
      currentRunOfKeyboardInputs := 0
      icanon := true
      dirty := .allDirty
      inputBuffer := []
      display := fun _ _ => 0 }
  let display ← blit t (fun _ => space)
  return { t with display := display }

/-! ### Writing -/

/-- `do_newline`. -/
def doNewline (t : Tty) (buffer : Nat → UInt8) : Except TtyHalt Tty := do
  let t := { t with cursorY := (t.cursorY + 1) % t.charsHeight, cursorX := 0 }
  let start ← indexBuffer t t.cursorX t.cursorY
  return { t with buffer := some (blank buffer start t.charsWidth), dirty := .allDirty }

/-- The cursor one cell back, wrapping at the left edge and at the top. -/
def retreat (t : Tty) : Tty :=
  if t.cursorX = 0 then
    { t with
      cursorY := if t.cursorY = 0 then t.charsHeight - 1 else t.cursorY - 1
      cursorX := t.charsWidth - 1 }
  else { t with cursorX := t.cursorX - 1 }

/-- The backspace branch of `write_from_multiple_sources`. -/
def eraseChar (t : Tty) (buffer : Nat → UInt8) : Except TtyHalt Tty := do
  let t := retreat { t with currentRunOfKeyboardInputs := t.currentRunOfKeyboardInputs - 1 }
  let idx ← indexBuffer t t.cursorX t.cursorY
  let buffer := Function.update buffer idx space
  let t := { t with buffer := some buffer, dirty := .allDirty }
  let display ← blit t buffer
  return { t with display := display }

/-- The cursor after the character `c`. -/
def advance (t : Tty) (buffer : Nat → UInt8) (c : UInt8) : Except TtyHalt Tty :=
  if c = newline then
    -- don't allow backspacing to before a newline
    doNewline { t with currentRunOfKeyboardInputs := 0 } buffer
  else .ok { t with cursorX := t.cursorX + 1, dirty := .onlyPrevCharAffected }

/-- A new line at the right edge. -/
def wrapLine (t : Tty) (buffer : Nat → UInt8) : Except TtyHalt Tty :=
  if t.cursorX = t.charsWidth then doNewline t buffer else .ok t

/-- The rest of `write_from_multiple_sources`: a character is written at the cursor. -/
def putChar (t : Tty) (buffer : Nat → UInt8) (c : UInt8) (isFromKeyboard : Bool) :
    Except TtyHalt Tty := do
  let idx ← indexBuffer t t.cursorX t.cursorY
  let buffer := if t.cursorX = 0 then blank buffer idx t.charsWidth else buffer
  let buffer := Function.update buffer idx c
  let t := { t with
    buffer := some buffer
    currentRunOfKeyboardInputs :=
      if isFromKeyboard then t.currentRunOfKeyboardInputs + 1 else 0 }
  let t ← advance t buffer c
  let t ← wrapLine t (t.buffer.getD buffer)
  let t := { t with cursorY := t.cursorY % t.charsHeight }
  let display ← blit t (t.buffer.getD buffer)
  return { t with display := display }

def writeFromMultipleSources (t : Tty) (c : UInt8) (isFromKeyboard : Bool) :
    Except TtyHalt Tty :=
  match t.buffer with
  | none => .ok t
  | some buffer =>
    -- `char` is signed
    let c := if 128 ≤ c then questionMark else c
    if c = backspace ∧ isFromKeyboard ∧ t.icanon then
      if t.currentRunOfKeyboardInputs = 0 then .ok t else eraseChar t buffer
    else putChar t buffer c isFromKeyboard

def ttyWriteChar (t : Tty) (c : UInt8) : Except TtyHalt Tty :=
  writeFromMultipleSources t c false

def ttyProvideStdin (t : Tty) (x : UInt8) : Except TtyHalt Tty := do
  if x = 0 then return t
  let t ← writeFromMultipleSources t x true
  if x = backspace ∧ t.icanon then
    -- underflow is the empty list
    return { t with inputBuffer := t.inputBuffer.dropLast }
  else
    ensure (t.inputBuffer.length ≠ inputBufLength) .hcf
    return { t with inputBuffer := t.inputBuffer ++ [x] }

/-- `tty_read`, with the bytes it copied out. -/
def ttyRead (t : Tty) (num : Nat) : Except TtyHalt (Tty × List UInt8) := do
  ensure (t.icanon = true) .hcf
  -- don't read past a newline, or don't read anything
  let num := min num (findNewline t.inputBuffer)
  return ({ t with inputBuffer := t.inputBuffer.drop num }, t.inputBuffer.take num)

end Stuos.Terminal
