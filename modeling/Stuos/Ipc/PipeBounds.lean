import Stuos.Ipc.Pipe
import Stuos.Lib.Bytes

/-!
# The blocks of a pipe

`pipe_write` and `pipe_read` by lengths only, in 64 bits: the block that is allocated, and where the
copies into it go.  The new block has room for the unread bytes and the new ones, and all old bytes
are copied into it.

* `pipeWrite_lengths`, `pipeRead_lengths`: the pipes of `Stuos.Ipc.Pipe` have these lengths.
* `pipe_bounds_iff`: in every state the cursor is inside the buffer and the buffer is its block; the
  copies of a write are inside the new block exactly if nothing has been read since the last write,
  and the two lengths together are one of 64 bits.
-/

namespace Stuos.Ipc

open Stuos.Lib

/-- The lengths in `struct PipeSpecialData`, with the size of the block behind `buffer`. -/
structure PipeBuffer where
  allocated : Nat
  bufferLength : Nat
  readerNextByte : Nat
  deriving DecidableEq, Repr

/-- A copy to a place in a block. -/
structure BlockCopy where
  offset : Nat
  length : Nat
  deriving DecidableEq, Repr

/-- The copy stays inside a block of `size` bytes. -/
def BlockCopy.Inside (size : Nat) (c : BlockCopy) : Prop := c.offset + c.length ≤ size

section

variable (data : PipeBuffer) (num : Nat)

/-- `new_buffer_length` of `pipe_write`. -/
def newBufferLength : Nat := u64 (num + data.bufferLength + 2 ^ 64 - data.readerNextByte)

/-- The two copies of `pipe_write`. -/
def pipeWriteCopies : List BlockCopy :=
  (if data.bufferLength ≠ 0 then [⟨0, data.bufferLength⟩] else []) ++ [⟨data.bufferLength, num⟩]

/-- The other end after `pipe_write`. -/
def pipeWriteLengths : PipeBuffer where
  allocated := newBufferLength data num
  bufferLength := newBufferLength data num
  readerNextByte := 0

/-- The end after `pipe_read`. -/
def pipeReadLengths : PipeBuffer :=
  if num = 0 then data
  else
    let maxBytesToRead := min num (u64 (data.bufferLength + 2 ^ 64 - data.readerNextByte))
    if maxBytesToRead = 0 then data
    else { data with readerNextByte := u64 (data.readerNextByte + maxBytesToRead) }

end

/-- A call on a pipe. -/
inductive PipeCall
  | write (e : PipeEnd) (num : Nat)
  | read (e : PipeEnd) (num : Nat)
  deriving DecidableEq, Repr

/-- A pair of ends, with calls of any lengths on both of them. -/
def pipeBuffers : Lts (PipeEnd → PipeBuffer) PipeCall where
  init p := p = fun _ => ⟨0, 0, 0⟩
  step p call p' := match call with
    | .write e num => num < 2 ^ 64 ∧
        p' = Function.update p e.other (pipeWriteLengths (p e.other) num)
    | .read e num => num < 2 ^ 64 ∧ p' = Function.update p e (pipeReadLengths (p e) num)

/-! ### The pipes with their bytes -/

/-- The lengths of a pipe with its bytes. -/
def PipeSpecialData.lengths (d : PipeSpecialData) : PipeBuffer where
  allocated := (d.buffer.getD []).length
  bufferLength := d.bufferLength
  readerNextByte := d.readerNextByte

theorem length_malloc (n : Nat) : ((malloc n).getD []).length = n := by
  unfold malloc
  split
  · rename_i h0
    rw [h0]
    rfl
  · exact List.length_replicate

theorem length_memcpyTo {dst dst' : Option (List UInt8)} {off : Nat} {src : List UInt8}
    (h : memcpyTo dst off src = .ok dst') : (dst'.getD []).length = (dst.getD []).length := by
  unfold memcpyTo at h
  split at h
  · cases h
    rfl
  · cases dst with
    | none => cases h
    | some d =>
      cases h
      simp only [Option.getD_some, copyInto, List.length_append, List.length_take, List.length_drop]
      omega

/-- **A write** changes the lengths as `pipeWriteLengths` says. -/
theorem pipeWrite_lengths {p p' : Pipe} {e : PipeEnd} {bytes : List UInt8} {n : Nat}
    (h : pipeWrite p e bytes = .ok (p', n)) :
    ∃ o data data', p.get o = some data ∧ p'.get o = some data' ∧
      (data.readerNextByte ≤ data.bufferLength → bytes.length + data.bufferLength < 2 ^ 64 →
        data'.lengths = pipeWriteLengths data.lengths bytes.length) := by
  simp only [pipeWrite, bind_eq_ok, orHalt_eq_ok, Except.ok.injEq, Prod.mk.injEq] at h
  obtain ⟨special, -, o, -, data, hdata, b₁, h1, b₂, h2, rfl, -⟩ := h
  refine ⟨o, data, _, hdata, Pipe.get_set_self _ _ _, fun hcursor hlt => ?_⟩
  have hlen : (b₂.getD []).length = bytes.length + data.bufferLength - data.readerNextByte := by
    rw [length_memcpyTo h2, length_memcpyTo h1, length_malloc]
  have hnew : newBufferLength data.lengths bytes.length =
      bytes.length + data.bufferLength - data.readerNextByte := by
    show u64 (bytes.length + data.bufferLength + 2 ^ 64 - data.readerNextByte) = _
    unfold u64
    omega
  rw [pipeWriteLengths, hnew, PipeSpecialData.lengths]
  simp only [hlen]

/-- **A read** changes the lengths as `pipeReadLengths` says. -/
theorem pipeRead_lengths {p p' : Pipe} {e : PipeEnd} {num : Nat} {r : FopReadResult}
    {bytes : List UInt8} {data : PipeSpecialData} (hdata : p.get e = some data)
    (hopen : data.otherPipeData ≠ none) (hcursor : data.readerNextByte ≤ data.bufferLength)
    (hlt : data.bufferLength < 2 ^ 64) (h : pipeRead p e num = .ok (p', r, bytes)) :
    ∃ data', p'.get e = some data' ∧ data'.lengths = pipeReadLengths data.lengths num := by
  have havail : u64 (data.bufferLength + 2 ^ 64 - data.readerNextByte) =
      data.bufferLength - data.readerNextByte := u64_sub hcursor hlt
  simp only [pipeRead, hdata, orHalt_some, ok_bind, hopen, false_or] at h
  rw [pipeReadLengths]
  by_cases hnum : num = 0
  · rw [if_pos hnum] at h
    cases h
    exact ⟨data, hdata, by rw [if_pos hnum]⟩
  · rw [if_neg hnum] at h ⊢
    show ∃ data', p'.get e = some data' ∧ data'.lengths =
      if min num (u64 (data.bufferLength + 2 ^ 64 - data.readerNextByte)) = 0 then data.lengths else _
    rw [havail]
    by_cases hmax : min num (data.bufferLength - data.readerNextByte) = 0
    · rw [if_pos hmax] at h ⊢
      cases h
      exact ⟨data, hdata, rfl⟩
    · rw [if_neg hmax] at h ⊢
      split at h
      · cases h
      · cases h
        refine ⟨_, Pipe.get_set_self _ _ _, ?_⟩
        have hu : u64 (data.readerNextByte + min num (data.bufferLength - data.readerNextByte)) =
            data.readerNextByte + min num (data.bufferLength - data.readerNextByte) :=
          u64_of_lt (by omega)
        simp only [PipeSpecialData.lengths, havail, hu]

/-! ### Bounds -/

/-- The cursor is inside the buffer, and the buffer is its block. -/
structure PipeBuffer.Bounded (data : PipeBuffer) : Prop where
  cursor : data.readerNextByte ≤ data.bufferLength
  block : data.bufferLength = data.allocated
  lt : data.bufferLength < 2 ^ 64

theorem bounded_pipeWriteLengths (data : PipeBuffer) (num : Nat) :
    (pipeWriteLengths data num).Bounded :=
  ⟨Nat.zero_le _, rfl, Nat.mod_lt _ (by decide)⟩

theorem PipeBuffer.Bounded.read {data : PipeBuffer} (h : data.Bounded) (num : Nat) :
    (pipeReadLengths data num).Bounded := by
  have havail : u64 (data.bufferLength + 2 ^ 64 - data.readerNextByte) =
      data.bufferLength - data.readerNextByte := u64_sub h.cursor h.lt
  have hcursor := h.cursor
  have hlt := h.lt
  unfold pipeReadLengths
  split
  · exact h
  · simp only [havail]
    split
    · exact h
    · refine ⟨?_, h.block, h.lt⟩
      show u64 _ ≤ data.bufferLength
      rw [u64_of_lt (by omega)]
      omega

/-- **The bounds hold** after any calls. -/
theorem bounded_of_reachable {p : PipeEnd → PipeBuffer} (h : pipeBuffers.Reachable p) (e : PipeEnd) :
    (p e).Bounded := by
  refine h.invariant (P := fun p => ∀ e, (p e).Bounded) ?_ ?_ e
  · rintro p rfl e
    exact ⟨Nat.le_refl 0, rfl, Nat.two_pow_pos 64⟩
  · intro p call p' hp hstep e'
    cases call with
    | write e num =>
      obtain ⟨-, rfl⟩ := hstep
      by_cases he : e' = e.other
      · subst he
        rw [Function.update_self]
        exact bounded_pipeWriteLengths _ _
      · rw [Function.update_of_ne he]
        exact hp e'
    | read e num =>
      obtain ⟨-, rfl⟩ := hstep
      by_cases he : e' = e
      · subst he
        rw [Function.update_self]
        exact (hp e').read num
      · rw [Function.update_of_ne he]
        exact hp e'

/-- **When the copies of a write are inside the new block.** -/
theorem pipeWriteCopies_inside_iff {data : PipeBuffer} (h : data.Bounded) {num : Nat}
    (hnum : num < 2 ^ 64) :
    (∀ c ∈ pipeWriteCopies data num, c.Inside (newBufferLength data num)) ↔
      data.readerNextByte = 0 ∧ num + data.bufferLength < 2 ^ 64 := by
  have hcursor := h.cursor
  have hlt := h.lt
  have hlength : newBufferLength data num =
      if num + data.bufferLength - data.readerNextByte < 2 ^ 64 then
        num + data.bufferLength - data.readerNextByte
      else num + data.bufferLength - data.readerNextByte - 2 ^ 64 := by
    unfold newBufferLength u64
    split <;> omega
  constructor
  · intro hin
    have hsecond : data.bufferLength + num ≤ newBufferLength data num :=
      hin ⟨data.bufferLength, num⟩ (List.mem_append_right _ List.mem_cons_self)
    rw [hlength] at hsecond
    split at hsecond <;> omega
  · rintro ⟨h0, hsum⟩ c hc
    rw [hlength, h0, Nat.sub_zero, if_pos hsum]
    rw [pipeWriteCopies, List.mem_append, List.mem_singleton] at hc
    rcases hc with hc | rfl
    · split at hc
      · rw [List.mem_singleton.mp hc]
        show 0 + data.bufferLength ≤ num + data.bufferLength
        omega
      · exact absurd hc List.not_mem_nil
    · show data.bufferLength + num ≤ num + data.bufferLength
      omega

/-- **The bounds of a pipe.**  In every state that calls of any lengths lead to, the cursor is inside
the buffer and the buffer is its block; and the copies of the next write are inside the new block
exactly if the reader has read nothing of the buffer, and both lengths together have 64 bits. -/
theorem pipe_bounds_iff {p : PipeEnd → PipeBuffer} (h : pipeBuffers.Reachable p) :
    (∀ e, (p e).readerNextByte ≤ (p e).bufferLength ∧ (p e).bufferLength = (p e).allocated) ∧
      ∀ (e : PipeEnd) num, num < 2 ^ 64 →
        ((∀ c ∈ pipeWriteCopies (p e.other) num, c.Inside (newBufferLength (p e.other) num)) ↔
          (p e.other).readerNextByte = 0 ∧ num + (p e.other).bufferLength < 2 ^ 64) := by
  have hbounded := bounded_of_reachable h
  exact ⟨fun e => ⟨(hbounded e).cursor, (hbounded e).block⟩,
    fun e num hnum => pipeWriteCopies_inside_iff (hbounded e.other) hnum⟩

/-- The pipe with `bufferLength` bytes for end `a`, `readerNextByte` of them read. -/
def halfRead (bufferLength readerNextByte : Nat) : PipeEnd → PipeBuffer :=
  Function.update (fun _ => ⟨0, 0, 0⟩) .a ⟨bufferLength, bufferLength, readerNextByte⟩

theorem halfRead_reachable : pipeBuffers.Reachable (halfRead 2 0) :=
  (Lts.Reachable.init rfl).step (a := .write .b 2) ⟨by decide, rfl⟩

theorem pipe_bounds_two_bytes :
    pipeBuffers.Reachable (halfRead 2 0) ∧
      ∀ c ∈ pipeWriteCopies (halfRead 2 0 .a) 1, c.Inside (newBufferLength (halfRead 2 0 .a) 1) :=
  ⟨halfRead_reachable, ((pipe_bounds_iff halfRead_reachable).2 .b 1 (by decide)).mpr ⟨rfl, by decide⟩⟩

/-- **A write after a read of a part.**  Of two bytes one is read; the next byte is copied behind the
new block of two. -/
theorem pipe_write_past_block :
    pipeBuffers.Reachable (halfRead 2 1) ∧
      newBufferLength (halfRead 2 1 .a) 1 = 2 ∧
      ⟨2, 1⟩ ∈ pipeWriteCopies (halfRead 2 1 .a) 1 ∧ ¬ BlockCopy.Inside 2 ⟨2, 1⟩ := by
  refine ⟨halfRead_reachable.step (a := .read .a 1) ⟨by decide, ?_⟩, by decide, by decide, ?_⟩
  · funext e
    cases e <;> decide
  · show ¬ 2 + 1 ≤ 2
    decide

end Stuos.Ipc
