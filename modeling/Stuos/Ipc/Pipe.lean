import Mathlib.Data.List.Basic
import Stuos.Lib.Halt
import Stuos.Lib.Lts

/-!
# Pipes

The pipe half of `pipes_and_files.c`.  `fop_generate_pipe` makes two ends that
point at each other; each end owns the buffer it *reads*, and a write goes to the
buffer of the other end.

A buffer is a `malloc`ed block.  `copyInto` is what a `memcpy` leaves in the
block; bytes it sends past the end of the block belong to some other block and
are not part of this model.

* `pipe_fifo_of_fromStart`: along a run in which every write, and every read that
  has something to return, finds the reader's cursor at the start of its buffer,
  what was returned followed by what is still buffered is what was written.
* `pipe_second_read_repeats`: without that, it is not.  A read copies from the
  start of the buffer and not from the cursor, so a second read returns the first
  byte again.
-/

namespace Stuos.Ipc

open Stuos.Lib

/-- What stops the kernel here: an `HCF`, a pointer to a closed end, or a copy
through a null pointer. -/
inductive PipeHalt
  | hcf
  | useAfterFree
  | nullCopy
  deriving DecidableEq, Repr

/-- The two ends made by `fop_generate_pipe`. -/
inductive PipeEnd
  | a
  | b
  deriving DecidableEq, Repr

def PipeEnd.other : PipeEnd → PipeEnd
  | .a => .b
  | .b => .a

/-- `struct PipeSpecialData`.  A null `buffer` is `none`; a block is the bytes it
holds. -/
structure PipeSpecialData where
  otherPipeData : Option PipeEnd
  buffer : Option (List UInt8)
  bufferLength : Nat
  readerNextByte : Nat
  deriving DecidableEq, Repr

/-- `struct FopReadResult`. -/
structure FopReadResult where
  readSomething : Bool
  bytesRead : Nat
  deriving DecidableEq, Repr

/-- The special data of both ends; a freed one is `none`. -/
structure Pipe where
  a : Option PipeSpecialData
  b : Option PipeSpecialData
  deriving DecidableEq, Repr

def Pipe.get (p : Pipe) : PipeEnd → Option PipeSpecialData
  | .a => p.a
  | .b => p.b

def Pipe.set (p : Pipe) (e : PipeEnd) (d : Option PipeSpecialData) : Pipe :=
  match e with
  | .a => { p with a := d }
  | .b => { p with b := d }

@[simp] theorem Pipe.get_set_self (p : Pipe) (e : PipeEnd) (d : Option PipeSpecialData) :
    (p.set e d).get e = d := by
  cases e <;> rfl

@[simp] theorem Pipe.get_set_other (p : Pipe) (e : PipeEnd) (d : Option PipeSpecialData) :
    (p.set e.other d).get e = p.get e := by
  cases e <;> rfl

@[simp] theorem PipeEnd.other_other (e : PipeEnd) : e.other.other = e := by
  cases e <;> rfl

/-! ### Blocks -/

/-- `malloc` as the pipe uses it: no block for no bytes. -/
def malloc (n : Nat) : Option (List UInt8) :=
  if n = 0 then none else some (List.replicate n 0)

/-- What `memcpy(dst + off, src, ..)` leaves in the block `dst`. -/
def copyInto (dst : List UInt8) (off : Nat) (src : List UInt8) : List UInt8 :=
  dst.take off ++ src.take (dst.length - off) ++ dst.drop (off + src.length)

/-- `memcpy` to a pointer that may be null. -/
def memcpyTo (dst : Option (List UInt8)) (off : Nat) (src : List UInt8) :
    Except PipeHalt (Option (List UInt8)) :=
  if src = [] then .ok dst
  else match dst with
    | none => .error .nullCopy
    | some d => .ok (some (copyInto d off src))

/-- The first `n` bytes behind a pointer that may be null. -/
def bytesAt (buffer : Option (List UInt8)) (n : Nat) : List UInt8 :=
  (buffer.getD []).take n

/-! ### The operations -/

def fopGeneratePipe : Pipe :=
  { a := some { otherPipeData := some .b, buffer := none, bufferLength := 0, readerNextByte := 0 }
    b := some { otherPipeData := some .a, buffer := none, bufferLength := 0, readerNextByte := 0 } }

def pipeWrite (p : Pipe) (e : PipeEnd) (outputBuf : List UInt8) :
    Except PipeHalt (Pipe × Nat) := do
  let special ← orHalt .useAfterFree (p.get e)
  let o ← orHalt .hcf special.otherPipeData
  let data ← orHalt .useAfterFree (p.get o)
  let newBufferLength := outputBuf.length + data.bufferLength - data.readerNextByte
  let newBuffer := malloc newBufferLength
  -- a copy of no bytes touches nothing, so the `if(data->buffer_length)` is in `memcpyTo`
  let newBuffer ← memcpyTo newBuffer 0 (bytesAt data.buffer data.bufferLength)
  let newBuffer ← memcpyTo newBuffer data.bufferLength outputBuf
  .ok (p.set o (some { data with
    buffer := newBuffer, bufferLength := newBufferLength, readerNextByte := 0 }),
    outputBuf.length)

/-- `pipe_read`, with the bytes it copied to `output_buf`. -/
def pipeRead (p : Pipe) (e : PipeEnd) (num : Nat) :
    Except PipeHalt (Pipe × FopReadResult × List UInt8) := do
  let data ← orHalt .useAfterFree (p.get e)
  if data.otherPipeData = none ∨ num = 0 then
    -- if write end is closed, I can't read
    return (p, { readSomething := true, bytesRead := 0 }, [])
  let maxBytesToRead := min num (data.bufferLength - data.readerNextByte)
  if maxBytesToRead = 0 then
    return (p, { readSomething := false, bytesRead := 0 }, [])
  if data.buffer = none then throw .nullCopy
  return (p.set e (some { data with readerNextByte := data.readerNextByte + maxBytesToRead }),
    { readSomething := true, bytesRead := maxBytesToRead }, bytesAt data.buffer maxBytesToRead)

/-- `pipe_close`: the other end, if it is still open, loses its pointer to this
one. -/
def pipeClose (p : Pipe) (e : PipeEnd) : Except PipeHalt Pipe := do
  let data ← orHalt .useAfterFree (p.get e)
  let p ← match data.otherPipeData with
    | none => pure p
    | some o => do
      let other ← orHalt .useAfterFree (p.get o)
      pure (p.set o (some { other with otherPipeData := none }))
  return p.set e none

/-! ### The channel from one end to the other -/

/-- A write to the one end, or a read from the other with what it returned. -/
inductive PipeEvent
  | write (bytes : List UInt8)
  | read (num : Nat) (result : FopReadResult) (bytes : List UInt8)
  deriving DecidableEq, Repr

/-- Any interleaving of writes to the end `w` and reads from the other end. -/
def channel (w : PipeEnd) : Lts Pipe PipeEvent where
  init p := p = fopGeneratePipe
  step p ev p' := match ev with
    | .write bytes => pipeWrite p w bytes = .ok (p', bytes.length)
    | .read num result bytes => pipeRead p w.other num = .ok (p', result, bytes)

/-- All bytes written, in order. -/
def written (l : List PipeEvent) : List UInt8 :=
  l.flatMap fun | .write bytes => bytes | .read .. => []

/-- All bytes returned by the reads, in order. -/
def returned (l : List PipeEvent) : List UInt8 :=
  l.flatMap fun | .write _ => [] | .read _ _ bytes => bytes

/-- `buffer[reader_next_byte..buffer_length]` of the reading end. -/
def buffered (p : Pipe) (w : PipeEnd) : List UInt8 :=
  match p.get w.other with
  | none => []
  | some d => (bytesAt d.buffer d.bufferLength).drop d.readerNextByte

/-- **First in, first out**: the reads have returned a prefix of what was written,
and the rest is in the buffer. -/
def Fifo (w : PipeEnd) (l : List PipeEvent) (p : Pipe) : Prop :=
  returned l <+: written l ∧ returned l ++ buffered p w = written l

/-- The reader's cursor is at the start of the buffer, or the read has nothing to
return. -/
def FromStart (w : PipeEnd) (p : Pipe) (ev : PipeEvent) : Prop :=
  ∀ d, p.get w.other = some d →
    match ev with
    | .write _ => d.readerNextByte = 0
    | .read num _ _ => d.readerNextByte = 0 ∨ d.readerNextByte = d.bufferLength ∨ num = 0

/-- Both ends are open, and the buffer is a block of `bufferLength` bytes with the
cursor inside. -/
structure Open (w : PipeEnd) (p : Pipe) (d : PipeSpecialData) : Prop where
  writer : ∃ dw, p.get w = some dw ∧ dw.otherPipeData = some w.other
  reader : p.get w.other = some d
  pointer : d.otherPipeData = some w
  block : (d.buffer.getD []).length = d.bufferLength
  null : d.buffer = none → d.bufferLength = 0
  cursor : d.readerNextByte ≤ d.bufferLength

theorem open_fopGeneratePipe (w : PipeEnd) :
    ∃ d, Open w fopGeneratePipe d ∧ d.bufferLength = 0 := by
  cases w <;> exact ⟨_, ⟨⟨_, rfl, rfl⟩, rfl, rfl, rfl, fun _ => rfl, Nat.le_refl _⟩, rfl⟩

theorem Open.bytesAt_all {w : PipeEnd} {p : Pipe} {d : PipeSpecialData} (h : Open w p d) :
    bytesAt d.buffer d.bufferLength = d.buffer.getD [] := by
  rw [bytesAt, List.take_of_length_le (Nat.le_of_eq h.block)]

theorem Open.buffered_eq {w : PipeEnd} {p : Pipe} {d : PipeSpecialData} (h : Open w p d) :
    buffered p w = (d.buffer.getD []).drop d.readerNextByte := by
  rw [buffered, h.reader]
  exact congrArg (List.drop _) h.bytesAt_all

/-- A block for bytes that may be none. -/
def blockOf (bs : List UInt8) : Option (List UInt8) := if bs = [] then none else some bs

@[simp] theorem blockOf_getD (bs : List UInt8) : (blockOf bs).getD [] = bs := by
  unfold blockOf
  split
  · simp [*]
  · rfl

theorem memcpyTo_some {d src : List UInt8} {off : Nat} (h : off + src.length ≤ d.length) :
    memcpyTo (some d) off src = .ok (some (d.take off ++ src ++ d.drop (off + src.length))) := by
  unfold memcpyTo
  split
  · next he => subst he; simp
  · simp only [copyInto]
    rw [List.take_of_length_le (l := src) (by omega)]

/-- With the cursor at the start, the two copies of a write fill the new block
exactly. -/
theorem copies_fill (old new : List UInt8) :
    (do let b ← memcpyTo (malloc (new.length + old.length)) 0 old
        memcpyTo b old.length new) = .ok (blockOf (old ++ new)) := by
  by_cases h : new.length + old.length = 0
  · have ho : old = [] := List.length_eq_zero_iff.mp (by omega)
    have hn : new = [] := List.length_eq_zero_iff.mp (by omega)
    subst ho hn
    rfl
  · have hm : malloc (new.length + old.length) =
        some (List.replicate (new.length + old.length) 0) := by rw [malloc, if_neg h]
    have hne : blockOf (old ++ new) = some (old ++ new) := by
      rw [blockOf, if_neg]
      intro he
      have := congrArg List.length he
      rw [List.length_append, List.length_nil] at this
      omega
    have h1 : memcpyTo (malloc (new.length + old.length)) 0 old =
        .ok (some (old ++ List.replicate new.length 0)) := by
      rw [hm, memcpyTo_some (by simp)]
      simp
    rw [h1, ok_bind, memcpyTo_some (by simp), hne]
    simp

/-- **A write with the cursor at the start** appends to the buffer. -/
theorem pipeWrite_fromStart {w : PipeEnd} {p : Pipe} {d : PipeSpecialData} (h : Open w p d)
    (h0 : d.readerNextByte = 0) (bytes : List UInt8) :
    pipeWrite p w bytes = .ok (p.set w.other (some { d with
      buffer := blockOf (d.buffer.getD [] ++ bytes)
      bufferLength := bytes.length + d.bufferLength
      readerNextByte := 0 }), bytes.length) := by
  obtain ⟨dw, hw, hother⟩ := h.writer
  have hfill := copies_fill (d.buffer.getD []) bytes
  rw [h.block] at hfill
  obtain ⟨b, hb1, hb2⟩ := bind_eq_ok.mp hfill
  simp only [pipeWrite, hw, hother, h.reader, orHalt_some, ok_bind, h0, Nat.sub_zero,
    h.bytesAt_all, hb1, hb2]

theorem Open.write {w : PipeEnd} {p : Pipe} {d : PipeSpecialData} (h : Open w p d)
    (bytes : List UInt8) :
    Open w (p.set w.other (some { d with
      buffer := blockOf (d.buffer.getD [] ++ bytes)
      bufferLength := bytes.length + d.bufferLength
      readerNextByte := 0 })) { d with
        buffer := blockOf (d.buffer.getD [] ++ bytes)
        bufferLength := bytes.length + d.bufferLength
        readerNextByte := 0 } where
  writer := by simpa using h.writer
  reader := by simp
  pointer := h.pointer
  block := by
    simp only [blockOf_getD, List.length_append, h.block]
    omega
  null := by
    intro he
    have := congrArg (fun o => (o.getD []).length) he
    simp only [blockOf_getD, List.length_append, h.block, Option.getD_none, List.length_nil] at this
    exact Nat.add_comm _ _ ▸ this
  cursor := Nat.zero_le _

/-- **What a read does**: nothing when there is nothing to return; otherwise it
returns the first bytes of the *buffer* and moves the cursor on. -/
theorem pipeRead_cases {w : PipeEnd} {p p' : Pipe} {d : PipeSpecialData} (h : Open w p d)
    {num : Nat} {r : FopReadResult} {bytes : List UInt8}
    (hr : pipeRead p w.other num = .ok (p', r, bytes)) :
    (p' = p ∧ bytes = []) ∨
      ∃ k, 0 < k ∧ k = min num (d.bufferLength - d.readerNextByte) ∧
        bytes = (d.buffer.getD []).take k ∧
        p' = p.set w.other (some { d with readerNextByte := d.readerNextByte + k }) := by
  simp only [pipeRead, h.reader, orHalt_some, ok_bind, h.pointer, reduceCtorEq, false_or,
    pure_eq_ok, throw_eq_error] at hr
  by_cases hn : num = 0
  · rw [if_pos hn] at hr
    cases hr
    exact .inl ⟨rfl, rfl⟩
  rw [if_neg hn] at hr
  by_cases hk : min num (d.bufferLength - d.readerNextByte) = 0
  · rw [if_pos hk] at hr
    cases hr
    exact .inl ⟨rfl, rfl⟩
  rw [if_neg hk] at hr
  by_cases hb : d.buffer = none
  · have := h.null hb
    omega
  rw [if_neg hb] at hr
  cases hr
  exact .inr ⟨_, Nat.pos_of_ne_zero hk, rfl, rfl, by rw [h.pointer]⟩

theorem Open.advance {w : PipeEnd} {p : Pipe} {d : PipeSpecialData} (h : Open w p d) {k : Nat}
    (hk : k ≤ d.bufferLength - d.readerNextByte) :
    Open w (p.set w.other (some { d with readerNextByte := d.readerNextByte + k }))
      { d with readerNextByte := d.readerNextByte + k } where
  writer := by simpa using h.writer
  reader := by simp
  pointer := h.pointer
  block := h.block
  null := h.null
  cursor := by
    have := h.cursor
    simp only
    omega

/-! ### First in, first out -/

@[simp] theorem written_snoc_write (l : List PipeEvent) (bytes : List UInt8) :
    written (l ++ [.write bytes]) = written l ++ bytes := by simp [written]

@[simp] theorem written_snoc_read (l : List PipeEvent) (num : Nat) (r : FopReadResult)
    (bytes : List UInt8) : written (l ++ [.read num r bytes]) = written l := by simp [written]

@[simp] theorem returned_snoc_write (l : List PipeEvent) (bytes : List UInt8) :
    returned (l ++ [.write bytes]) = returned l := by simp [returned]

@[simp] theorem returned_snoc_read (l : List PipeEvent) (num : Nat) (r : FopReadResult)
    (bytes : List UInt8) : returned (l ++ [.read num r bytes]) = returned l ++ bytes := by
  simp [returned]

/-- Nothing lost, duplicated or reordered so far, in a pipe with both ends open. -/
def Conserved (w : PipeEnd) (l : List PipeEvent) (p : Pipe) : Prop :=
  ∃ d, Open w p d ∧ returned l ++ buffered p w = written l

theorem Conserved.fifo {w : PipeEnd} {l : List PipeEvent} {p : Pipe} (h : Conserved w l p) :
    Fifo w l p := by
  obtain ⟨_, _, he⟩ := h
  exact ⟨⟨_, he⟩, he⟩

theorem Conserved.step {w : PipeEnd} {l : List PipeEvent} {p p' : Pipe} {ev : PipeEvent}
    (h : Conserved w l p) (hok : FromStart w p ev) (hst : (channel w).step p ev p') :
    Conserved w (l ++ [ev]) p' := by
  obtain ⟨d, ho, he⟩ := h
  have hs := hok d ho.reader
  rw [ho.buffered_eq] at he
  cases ev with
  | write bytes =>
    simp only [channel, pipeWrite_fromStart ho hs, Except.ok.injEq, Prod.mk.injEq, and_true] at hst
    subst hst
    refine ⟨_, ho.write bytes, ?_⟩
    rw [(ho.write bytes).buffered_eq]
    simp only [hs, List.drop_zero] at he
    simp [← he]
  | read num r bytes =>
    rcases pipeRead_cases ho hst with ⟨rfl, rfl⟩ | ⟨k, hpos, hk, rfl, rfl⟩
    · refine ⟨d, ho, ?_⟩
      rw [ho.buffered_eq]
      simpa using he
    · have h0 : d.readerNextByte = 0 := by
        rcases hs with hs | hs | hs <;> omega
      refine ⟨_, ho.advance (by omega), ?_⟩
      rw [(ho.advance (by omega)).buffered_eq]
      simp only [h0, List.drop_zero] at he
      simp [h0, ← he]

/-- **A pipe is first in, first out while its reader's cursor is at the start.**
In every run of writes and reads of any lengths that finds the cursor there, the
reads have returned a prefix of what was written and the buffer holds the rest. -/
theorem pipe_fifo_of_fromStart (w : PipeEnd) {l : List PipeEvent} {p : Pipe}
    (h : (channel w).Run (FromStart w) fopGeneratePipe l p) : Fifo w l p := by
  refine Conserved.fifo (h.invariant (P := Conserved w) ?_ ?_)
  · intro l s a s' hc hok hst
    exact hc.step hok hst
  · obtain ⟨d, ho, hl⟩ := open_fopGeneratePipe w
    refine ⟨d, ho, ?_⟩
    cases w <;> rfl

/-- The pipe with `bytes` in the buffer of end `a`, `k` of them read. -/
def pipeHolding (bytes : List UInt8) (k : Nat) : Pipe :=
  fopGeneratePipe.set .a (some ⟨some .b, some bytes, bytes.length, k⟩)

theorem pipe_fifo_of_fromStart_two_writes :
    (channel .b).Run (FromStart .b) fopGeneratePipe
        [.write [1, 2], .write [3], .read 2 ⟨true, 2⟩ [1, 2]] (pipeHolding [1, 2, 3] 2) ∧
      Fifo .b [.write [1, 2], .write [3], .read 2 ⟨true, 2⟩ [1, 2]] (pipeHolding [1, 2, 3] 2) := by
  have s1 : (channel .b).step fopGeneratePipe (.write [1, 2]) (pipeHolding [1, 2] 0) := rfl
  have s2 : (channel .b).step (pipeHolding [1, 2] 0) (.write [3]) (pipeHolding [1, 2, 3] 0) := rfl
  have s3 : (channel .b).step (pipeHolding [1, 2, 3] 0) (.read 2 ⟨true, 2⟩ [1, 2])
      (pipeHolding [1, 2, 3] 2) := rfl
  have r : (channel .b).Run (FromStart .b) fopGeneratePipe
      ([] ++ [.write [1, 2]] ++ [.write [3]] ++ [.read 2 ⟨true, 2⟩ [1, 2]]) _ :=
    (((Lts.Run.nil fopGeneratePipe).snoc (by intro d hd; cases hd; rfl) s1).snoc
      (by intro d hd; cases hd; rfl) s2).snoc (by intro d hd; cases hd; exact .inl rfl) s3
  exact ⟨r, pipe_fifo_of_fromStart .b r⟩

/-- **A second read returns the first byte again**: of the two bytes written, the
first is returned twice. -/
theorem pipe_second_read_repeats :
    ∃ l p, (channel .b).Run (fun _ _ => True) fopGeneratePipe l p ∧ ¬ Fifo .b l p := by
  have s1 : (channel .b).step fopGeneratePipe (.write [1, 2]) (pipeHolding [1, 2] 0) := rfl
  have s2 : (channel .b).step (pipeHolding [1, 2] 0) (.read 1 ⟨true, 1⟩ [1])
      (pipeHolding [1, 2] 1) := rfl
  have s3 : (channel .b).step (pipeHolding [1, 2] 1) (.read 1 ⟨true, 1⟩ [1])
      (pipeHolding [1, 2] 2) := rfl
  refine ⟨_, _, (((Lts.Run.nil fopGeneratePipe).snoc trivial s1).snoc trivial s2).snoc trivial s3,
    ?_⟩
  unfold Fifo
  decide

end Stuos.Ipc
