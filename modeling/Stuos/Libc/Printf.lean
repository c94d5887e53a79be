import Stuos.Lib.Bytes
import Stuos.Lib.Loop
import Stuos.Libc.CString

/-!
# Formatted output

`printf.c`: the characters of a format go through an `output_gadget_t`, which counts all of them
and keeps the first `max_chars`, in a buffer or by calling a function.

A pointer into the format is the rest of it, with its terminator.  `Stop.nul` is the `return` of
`ADVANCE_IN_FORMAT_STRING`.  `print_floating_point` is left out: a format that comes to it ends there,
with `Stop.floatingPoint`.

* `OutputGadget.puts`: characters one after the other.
-/

namespace Stuos.Libc.Printf

open Stuos.Lib

/-! ### The gadget -/

def maxPossibleBufferSize : Nat := 2 ^ 31 - 1

/-- `output_gadget_t`.  `function` is the characters that the function has been called with, and
`none` if it is `NULL`. -/
structure OutputGadget where
  function : Option (List UInt8)
  buffer : Option Mem
  pos : UInt32
  maxChars : UInt32

def putcharViaGadget (gadget : OutputGadget) (c : UInt8) : OutputGadget :=
  let writePos := gadget.pos
  let gadget := { gadget with pos := gadget.pos + 1 }
  if writePos ≥ gadget.maxChars then gadget
  else
    match gadget.function with
    | some calls => { gadget with function := some (calls ++ [c]) }
    | none => { gadget with buffer := gadget.buffer.map fun m => m.write writePos.toNat [c] }

def appendTerminationWithGadget (gadget : OutputGadget) : OutputGadget :=
  if gadget.function.isSome ∨ gadget.maxChars = 0 then gadget
  else
    let nullCharPos := if gadget.pos < gadget.maxChars then gadget.pos else gadget.maxChars - 1
    { gadget with buffer := gadget.buffer.map fun m => m.write nullCharPos.toNat [0] }

def discardingGadget : OutputGadget where
  function := none
  buffer := none
  pos := 0
  maxChars := 0

def bufferGadget (buffer : Option Mem) (bufferSize : Nat) : OutputGadget :=
  let usableBufferSize := if bufferSize > maxPossibleBufferSize then maxPossibleBufferSize
    else bufferSize
  match buffer with
  | none => discardingGadget
  | some m => { discardingGadget with buffer := some m, maxChars := UInt32.ofNat usableBufferSize }

def functionGadget : OutputGadget :=
  { discardingGadget with
    function := some []
    maxChars := UInt32.ofNat maxPossibleBufferSize }

/-- The same character `n` times: the loops that pad. -/
def pad (c : UInt8) : Nat → OutputGadget → OutputGadget
  | 0, output => output
  | n + 1, output => pad c n (putcharViaGadget output c)

/-- The `printf_flags_t` bits. -/
structure Flags where
  zeropad : Bool := false
  left : Bool := false
  plus : Bool := false
  space : Bool := false
  hash : Bool := false
  uppercase : Bool := false
  char : Bool := false
  short : Bool := false
  long : Bool := false
  longLong : Bool := false
  precision : Bool := false
  pointer : Bool := false
  signed : Bool := false
  longDouble : Bool := false
  deriving DecidableEq, Repr

/-! ### Numbers -/

/-- `while (output->pos - start_pos < width)`. -/
def padFrom (startPos : UInt32) (width : Nat) : Nat → OutputGadget → OutputGadget
  | 0, output => output
  | fuel + 1, output =>
    if (output.pos - startPos).toNat < width then
      padFrom startPos width fuel (putcharViaGadget output 32)
    else output

/-- The loop `while (len)` of `out_rev_`: `buf` is what is left. -/
def putReversed (output : OutputGadget) (buf : List UInt8) : OutputGadget :=
  buf.reverse.foldl putcharViaGadget output

def outRev (output : OutputGadget) (buf : List UInt8) (width : Nat) (flags : Flags) :
    OutputGadget :=
  let startPos := output.pos
  let output := if !flags.left && !flags.zeropad then pad 32 (width - buf.length) output else output
  let output := putReversed output buf
  if flags.left then padFrom startPos width width output else output

def integerBufferSize : Nat := 32

/-- `while ((len < n) && (len < PRINTF_INTEGER_BUFFER_SIZE)) buf[len++] = '0';` -/
def padZeros (n : Nat) (buf : List UInt8) : List UInt8 :=
  buf ++ List.replicate (min n integerBufferSize - buf.length) 48

/-- `if (len < PRINTF_INTEGER_BUFFER_SIZE) buf[len++] = c;` -/
def putInBuf (c : UInt8) (buf : List UInt8) : List UInt8 :=
  if buf.length < integerBufferSize then buf ++ [c] else buf

/-- The part of `print_integer_finalization` that handles `#`. -/
def handleHash (buf : List UInt8) (unpaddedLen base precision width : Nat) (flags : Flags) :
    List UInt8 :=
  if flags.hash || flags.pointer then
    let buf :=
      -- take back some padding digits to fit in the prefix
      if !flags.precision ∧ buf.length ≠ 0 ∧ (buf.length = precision ∨ buf.length = width) then
        let buf := if unpaddedLen < buf.length then buf.dropLast else buf
        if buf.length ≠ 0 ∧ (base = 16 ∨ base = 2) ∧ unpaddedLen < buf.length then buf.dropLast
        else buf
      else buf
    let buf :=
      if base = 16 ∧ !flags.uppercase ∧ buf.length < integerBufferSize then buf ++ [120]  -- 'x'
      else if base = 16 ∧ flags.uppercase ∧ buf.length < integerBufferSize then buf ++ [88]  -- 'X'
      else if base = 2 ∧ buf.length < integerBufferSize then buf ++ [98]  -- 'b'
      else buf
    putInBuf 48 buf
  else buf

/-- The sign. -/
def putSign (buf : List UInt8) (negative : Bool) (flags : Flags) : List UInt8 :=
  if negative then putInBuf 45 buf
  else if flags.plus then putInBuf 43 buf
  else if flags.space then putInBuf 32 buf
  else buf

/-- The `width` that is left when a sign has taken its place. -/
def signedWidth (negative : Bool) (width : Nat) (flags : Flags) : Nat :=
  if !flags.left && width != 0 && flags.zeropad && (negative || flags.plus || flags.space)
  then width - 1 else width

def printIntegerFinalization (output : OutputGadget) (buf : List UInt8) (negative : Bool)
    (base precision width : Nat) (flags : Flags) : OutputGadget :=
  let unpaddedLen := buf.length
  let width := signedWidth negative width flags
  let buf := if !flags.left && flags.zeropad then padZeros width buf else buf
  let buf := padZeros precision buf
  let flags := if base = 8 ∧ buf.length > unpaddedLen then { flags with hash := false } else flags
  let buf := handleHash buf unpaddedLen base precision width flags
  outRev output (putSign buf negative flags) width flags

def digitChar (uppercase : Bool) (digit : Nat) : UInt8 :=
  UInt8.ofNat (if digit < 10 then 48 + digit else (if uppercase then 65 else 97) + digit - 10)

/-- The loop over the digits, the last one first. -/
def digitChars (uppercase : Bool) (base : Nat) : Nat → Nat → List UInt8
  | 0, _ => []
  | room + 1, value =>
    digitChar uppercase (value % base) ::
      if value / base ≠ 0 then digitChars uppercase base room (value / base) else []

def printInteger (output : OutputGadget) (value : Nat) (negative : Bool)
    (base precision width : Nat) (flags : Flags) : OutputGadget :=
  if value = 0 then
    if !flags.precision then
      printIntegerFinalization output [48] negative base precision width
        { flags with hash := false }
    else if base = 16 then
      printIntegerFinalization output [] negative base precision width { flags with hash := false }
    else printIntegerFinalization output [] negative base precision width flags
  else printIntegerFinalization output (digitChars flags.uppercase base integerBufferSize value)
    negative base precision width flags

/-! ### Formats -/

/-- How the loop over the format ends in the middle of a round. -/
inductive Stop
  | fault (f : Fault)
  | nul
  /-- the call of `print_floating_point` -/
  | floatingPoint
  deriving DecidableEq, Repr

def peek (p : Ptr) : Except Stop UInt8 := orHalt (.fault .overread) p.head?

/-- `ADVANCE_IN_FORMAT_STRING`. -/
def advance (p : Ptr) : Except Stop Ptr := do
  let c ← peek p.tail
  if c = 0 then .error .nul else return p.tail

def isDigit (c : UInt8) : Bool := 48 ≤ c && c ≤ 57

/-- `atou_`, when the number so far is `i`. -/
def atou : Ptr → Nat → Except Stop (Nat × Ptr)
  | [], _ => .error (.fault .overread)
  | c :: rest, i =>
    if isDigit c then atou rest ((i * 10 + (c.toNat - 48)) % 2 ^ 32) else .ok (i, c :: rest)

/-- `parse_flags`, when the flags so far are `flags`. -/
def parseFlags : Ptr → Flags → Except Stop (Flags × Ptr)
  | [], _ => .error (.fault .overread)
  | c :: rest, flags =>
    if c = 48 then parseFlags rest { flags with zeropad := true }
    else if c = 45 then parseFlags rest { flags with left := true }
    else if c = 43 then parseFlags rest { flags with plus := true }
    else if c = 32 then parseFlags rest { flags with space := true }
    else if c = 35 then parseFlags rest { flags with hash := true }
    else .ok (flags, c :: rest)

/-- `do { ADVANCE } while (is_digit_(*format));` -/
def skipDigits : Ptr → Except Stop Ptr
  | [] => .error (.fault .overread)
  | [_] => .error (.fault .overread)
  | _ :: c :: rest =>
    if c = 0 then .error .nul
    else if isDigit c then skipDigits (c :: rest)
    else .ok (c :: rest)

/-- An argument in a register: a number or a pointer, and what lies there. -/
structure Arg where
  word : BitVec 64
  target : Ptr

/-- The rest of the `va_list`. -/
abbrev Args := List Arg

/-- `va_arg`. -/
def Args.word : Args → Except Stop (Arg × Args)
  | [] => .error (.fault .overread)
  | a :: rest => .ok (a, rest)

/-- The argument as an `int`. -/
def Arg.int (a : Arg) : BitVec 32 := a.word.truncate 32

/-- A specifier with what is in front of it; `format` points at the specifier. -/
structure Spec where
  format : Ptr
  args : Args
  flags : Flags
  width : Nat
  precision : Nat

/-- The width field. -/
def parseWidth (s : Spec) : Except Stop Spec := do
  let c ← peek s.format
  if isDigit c then
    let (width, format) ← atou s.format 0
    return { s with width := width, format := format }
  else if c = 42 then  -- '*'
    let (a, args) ← s.args.word
    let w := a.int.toInt
    let s := if w < 0 then { s with flags := { s.flags with left := true }, width := (-w).toNat }
      else { s with width := w.toNat }
    let format ← advance s.format
    return { s with format := format, args := args }
  else return s

/-- The precision field. -/
def parsePrecision (s : Spec) : Except Stop Spec := do
  let c ← peek s.format
  if c = 46 then  -- '.'
    let s := { s with flags := { s.flags with precision := true } }
    let format ← advance s.format
    let c ← peek format
    if c = 45 then  -- '-'
      let format ← skipDigits format
      return { s with format := format, flags := { s.flags with precision := false } }
    else if isDigit c then
      let (precision, format) ← atou format 0
      return { s with precision := precision, format := format }
    else if c = 42 then  -- '*'
      let (a, args) ← s.args.word
      let p := a.int.toInt
      let s := if p < 0 then { s with flags := { s.flags with precision := false } }
        else { s with precision := p.toNat }
      let format ← advance format
      return { s with format := format, args := args }
    else return { s with format := format }
  else return s

/-- The length field; `ptrdiff_t`, `intmax_t` and `size_t` are as long as a `long`. -/
def parseLength (s : Spec) : Except Stop Spec := do
  let c ← peek s.format
  if c = 108 then  -- 'l'
    let format ← advance s.format
    let c ← peek format
    if c = 108 then
      let format ← advance format
      return { s with format := format, flags := { s.flags with long := true, longLong := true } }
    else return { s with format := format, flags := { s.flags with long := true } }
  else if c = 76 then  -- 'L'
    let format ← advance s.format
    return { s with format := format, flags := { s.flags with longDouble := true } }
  else if c = 104 then  -- 'h'
    let format ← advance s.format
    let c ← peek format
    if c = 104 then
      let format ← advance format
      return { s with format := format, flags := { s.flags with short := true, char := true } }
    else return { s with format := format, flags := { s.flags with short := true } }
  else if c = 116 ∨ c = 106 ∨ c = 122 then  -- 't', 'j', 'z'
    let format ← advance s.format
    return { s with format := format, flags := { s.flags with long := true } }
  else return s

/-- `%[flags][width][.precision][length]`, from the `%` on. -/
def parseSpec (format : Ptr) (args : Args) : Except Stop Spec := do
  let format ← advance format
  let (flags, format) ← parseFlags format {}
  let s ← parseWidth { format := format, args := args, flags := flags, width := 0, precision := 0 }
  let s ← parsePrecision s
  parseLength s

/-! ### Conversions -/

/-- Characters one after the other. -/
def OutputGadget.puts (output : OutputGadget) (text : List UInt8) : OutputGadget :=
  text.foldl putcharViaGadget output

/-- The loop over a format, in between.  `stored` is what `%n` has stored: the address, the number
of bytes, and the value. -/
structure State where
  output : OutputGadget
  format : Ptr
  args : Args
  stored : List (BitVec 64 × Nat × UInt32)

/-- The base of a specifier. -/
def specifierBase (c : UInt8) : Nat :=
  if c = 120 ∨ c = 88 then 16  -- 'x', 'X'
  else if c = 111 then 8  -- 'o'
  else if c = 98 then 2  -- 'b'
  else 10

/-- The flags of a specifier for integers. -/
def integerFlags (c : UInt8) (flags : Flags) : Flags :=
  let flags := if c = 100 ∨ c = 105 then { flags with signed := true } else flags  -- 'd', 'i'
  let flags := if specifierBase c = 10 then { flags with hash := false } else flags
  let flags := if c = 88 then { flags with uppercase := true } else flags
  if flags.precision then { flags with zeropad := false } else flags

/-- The argument of a signed specifier. -/
def Arg.signed (a : Arg) (flags : Flags) : Int :=
  if flags.longLong || flags.long then a.word.toInt
  else if flags.char then (a.int.truncate 8).toInt
  else if flags.short then (a.int.truncate 16).toInt
  else a.int.toInt

/-- The argument of an unsigned specifier. -/
def Arg.unsigned (a : Arg) (flags : Flags) : Nat :=
  if flags.longLong || flags.long then a.word.toNat
  else if flags.char then (a.int.truncate 8).toNat
  else if flags.short then (a.int.truncate 16).toNat
  else a.int.toNat

/-- The specifiers `d`, `i`, `u`, `x`, `X`, `o` and `b`. -/
def printIntegerArg (output : OutputGadget) (c : UInt8) (a : Arg) (precision width : Nat)
    (flags : Flags) : OutputGadget :=
  let base := specifierBase c
  let flags := integerFlags c flags
  if flags.signed then
    let value := a.signed flags
    printInteger output value.natAbs (value < 0) base precision width flags
  else
    let flags := { flags with plus := false, space := false }
    printInteger output (a.unsigned flags) false base precision width flags

/-- `strnlen_s`. -/
def strnlenS : Ptr → Nat → Except Stop Nat
  | [], _ => .error (.fault .overread)
  | c :: rest, maxsize =>
    if c = 0 then .ok 0
    else match maxsize with
      | 0 => .ok 0
      | maxsize + 1 => do
        let n ← strnlenS rest maxsize
        return n + 1

/-- The loop that prints a string. -/
def putString (usePrecision : Bool) : Ptr → Nat → OutputGadget → Except Stop OutputGadget
  | [], _, _ => .error (.fault .overread)
  | c :: rest, precision, output =>
    if c ≠ 0 ∧ (!usePrecision ∨ precision ≠ 0) then
      putString usePrecision rest ((precision + 2 ^ 32 - 1) % 2 ^ 32) (putcharViaGadget output c)
    else .ok output

/-- The specifier `s`. -/
def printString (output : OutputGadget) (a : Arg) (precision width : Nat) (flags : Flags) :
    Except Stop OutputGadget := do
  if a.word = 0 then
    return outRev output [41, 108, 108, 117, 110, 40] width flags  -- ")llun("
  else
    let l ← strnlenS a.target (if precision ≠ 0 then precision else maxPossibleBufferSize)
    let l := if flags.precision then min l precision else l
    let output := if !flags.left then pad 32 (width - l) output else output
    let output ← putString flags.precision a.target precision output
    return if flags.left then pad 32 (width - l) output else output

/-- The specifier `c`. -/
def printChar (output : OutputGadget) (a : Arg) (width : Nat) (flags : Flags) : OutputGadget :=
  let output := if !flags.left then pad 32 (width - 1) output else output
  let output := putcharViaGadget output (UInt8.ofBitVec (a.int.truncate 8))
  if flags.left then pad 32 (width - 1) output else output

/-- The specifier `p`. -/
def printPointer (output : OutputGadget) (a : Arg) (precision : Nat) (flags : Flags) :
    OutputGadget :=
  let width := 18
  let flags := { flags with zeropad := true, pointer := true }
  if a.word = 0 then outRev output [41, 108, 105, 110, 40] width flags  -- ")lin("
  else printInteger output a.word.toNat false 16 precision width flags

/-- How many bytes the specifier `n` stores. -/
def storedSize (flags : Flags) : Nat :=
  if flags.char then 1 else if flags.short then 2 else if flags.long || flags.longLong then 8 else 4

/-- The last `switch`. -/
def convert (s : Spec) (output : OutputGadget)
    (stored : List (BitVec 64 × Nat × UInt32)) : Except Stop State := do
  let c ← peek s.format
  let format := s.format.tail
  if c ∈ ([100, 105, 117, 120, 88, 111, 98] : List UInt8) then  -- 'd', 'i', 'u', 'x', 'X', 'o', 'b'
    let (a, args) ← s.args.word
    return ⟨printIntegerArg output c a s.precision s.width s.flags, format, args, stored⟩
  else if c ∈ ([102, 70, 101, 69, 103, 71] : List UInt8) then  -- 'f', 'F', 'e', 'E', 'g', 'G'
    .error .floatingPoint
  else if c = 99 then  -- 'c'
    let (a, args) ← s.args.word
    return ⟨printChar output a s.width s.flags, format, args, stored⟩
  else if c = 115 then  -- 's'
    let (a, args) ← s.args.word
    let output ← printString output a s.precision s.width s.flags
    return ⟨output, format, args, stored⟩
  else if c = 112 then  -- 'p'
    let (a, args) ← s.args.word
    return ⟨printPointer output a s.precision s.flags, format, args, stored⟩
  else if c = 110 then  -- 'n'
    let (a, args) ← s.args.word
    return ⟨output, format, args, stored ++ [(a.word, storedSize s.flags, output.pos)]⟩
  else
    -- '%' and whatever has no meaning
    return ⟨putcharViaGadget output c, format, s.args, stored⟩

/-- A round of `format_string_loop`. -/
def formatRound (s : State) : Except Stop (Loop.Step State State) :=
  match s.format with
  | [] => .error (.fault .overread)
  | c :: rest =>
    if c = 0 then .ok (.done s)
    else if c ≠ 37 then  -- '%'
      .ok (.again { s with output := putcharViaGadget s.output c, format := rest })
    else
      match parseSpec s.format s.args >>= fun spec => convert spec s.output s.stored with
      | .error .nul => .ok (.done s)
      | .error e => .error e
      | .ok s' => .ok (.again s')

/-- `vsnprintf_impl` on a gadget comes to an end: the gadget, what has been stored, and the value
that is returned. -/
def VsnprintfImpl (output : OutputGadget) (format : Ptr) (args : Args)
    (o : Except Stop (OutputGadget × List (BitVec 64 × Nat × UInt32) × Int32)) : Prop :=
  ∃ o', Loop.Ends formatRound ⟨output, format, args, []⟩ o' ∧
    o = o'.map fun s =>
      (appendTerminationWithGadget s.output, s.stored, s.output.pos.toInt32)

end Stuos.Libc.Printf
