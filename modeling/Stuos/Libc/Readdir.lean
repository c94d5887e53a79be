import Stuos.Fs.OpenDirectory
import Stuos.Ipc.OpenFile

/-!
# Directory streams

`readdir` of `dirent.c` over an open directory of a FAT volume.  It reads one `struct dirent` into
`current` and leaves the place in the directory to the offset of the open file, so that streams with
one descriptor share it.

* `readdir_next`: `readdir` returns the entry at its place.
* `Streaming.step`: calls on other streams and other nodes leave the place and the listing alone.
* `readdir_lists_directory`: **a stream returns every entry once**, in the order of the listing.
-/

namespace Stuos.Libc

open Stuos.Lib Stuos.Fs Stuos.Fs.Fat

/-- `DIR`: the descriptor, and the memory of `current`. -/
structure DIR where
  fileDescriptorNumber : Nat
  current : Mem

/-- `opendir` with the descriptor that `open` returned. -/
def opendir (fd : Nat) : DIR where
  fileDescriptorNumber := fd
  current := fun _ => 0

/-- An open file of a volume. -/
structure OpenNode where
  ino : Nat
  offset : Nat

/-- `READ_FD_SYSCALL` on an open file: the bytes that it stores. -/
def readFd (vol : Fat16Volume) (disk : Mem) (file : OpenNode) (numBytes : Nat) :
    Except Halt (OpenNode × List UInt8) := do
  let (data, bytes) ← Ipc.fileRead (Ipc.fatNode vol file.ino) ⟨disk, file.offset⟩ numBytes
  return ({ file with offset := data.offset }, bytes)

/-- `readdir`: the bytes of the entry that it returns a pointer to; `none` is `NULL`. -/
def readdir (vol : Fat16Volume) (disk : Mem) (dirp : DIR) (file : OpenNode) :
    Except Halt (OpenNode × DIR × Option (List UInt8)) := do
  let (file, bytes) ← readFd vol disk file direntSize
  let dirp := { dirp with current := dirp.current.write 0 bytes }
  if bytes.length ≠ direntSize then return (file, dirp, none)
  else return (file, dirp, some (dirp.current.read 0 direntSize))

variable {vol : Fat16Volume} {disk : Mem} {all : List Dirent}

/-- **The next entry**, and nothing behind the last one. -/
theorem readdir_next (hg : Geometry vol) {file : OpenNode} (hl : Lists vol disk file.ino all)
    {k : Nat} (hoff : file.offset = min k all.length * direntSize) (dirp : DIR) :
    ∃ dirp', readdir vol disk dirp file =
      .ok ({ file with offset := min (k + 1) all.length * direntSize }, dirp',
        all[k]?.map Dirent.toBytes) := by
  obtain ⟨hlen, hnames⟩ := hl.bounds
  have hfuel := direntFuel_lt hg
  have hlt : (all.length + 1) * direntSize < 2 ^ 64 := by
    rw [direntSize]
    omega
  have hread := hl.readFile (min k all.length)
  rw [← hoff] at hread
  rw [readdir, readFd, Ipc.fileRead]
  simp only [Ipc.fatNode, hread, Except.map, ok_bind, pure_eq_ok]
  by_cases hk : k < all.length
  · rw [Nat.min_eq_left hk.le] at hoff ⊢
    have htext := Dirent.length_toBytes (hnames _ (List.getElem_mem hk))
    have hend : file.offset + direntSize = (k + 1) * direntSize := by rw [hoff, Nat.succ_mul]
    have hle : (k + 1) * direntSize ≤ (all.length + 1) * direntSize :=
      Nat.mul_le_mul_right _ (by omega)
    simp only [List.getElem?_eq_getElem hk, Option.map_some, Option.getD_some, htext, hend,
      ne_eq, not_true_eq_false, if_false, u64_of_lt (Nat.lt_of_le_of_lt hle hlt),
      Nat.min_eq_left (Nat.succ_le_of_lt hk), Mem.read_write_length _ _ htext]
    exact ⟨_, rfl⟩
  · have hmin : min k all.length = all.length := by omega
    have hmin' : min (k + 1) all.length = all.length := by omega
    have hnone : all[k]? = none := List.getElem?_eq_none_iff.mpr (by omega)
    have hle : all.length * direntSize ≤ (all.length + 1) * direntSize :=
      Nat.mul_le_mul_right _ (by omega)
    rw [hmin] at hoff ⊢
    simp only [List.getElem?_eq_none (Nat.le_refl all.length), hnone, Option.map_none,
      Option.getD_none, List.length_nil, Nat.add_zero, hoff, hmin',
      u64_of_lt (Nat.lt_of_le_of_lt hle hlt)]
    exact ⟨_, rfl⟩

/-! ### Runs -/

/-- A process with its open files and directory streams, on a volume that others use too. -/
structure DirState where
  fat : FatState
  files : Nat → OpenNode
  dirs : Nat → DIR

/-- A call on the volume, or a `readdir` with the descriptor and what it returned. -/
inductive DirCall
  | fat (op : FatOp)
  | readdir (dirp fd : Nat) (returned : Option (List UInt8))

/-- The calls, in any order. -/
def dirStreams (vol : Fat16Volume) : Lts DirState DirCall where
  init _ := True
  step s call s' := match call with
    | .fat op => ∃ fat, op.exec vol s.fat = .ok fat ∧ s' = { s with fat }
    | .readdir dirp fd returned => (s.dirs dirp).fileDescriptorNumber = fd ∧ ∃ file dir,
        readdir vol s.fat.disk (s.dirs dirp) (s.files fd) = .ok (file, dir, returned) ∧
        s' = { s with files := Function.update s.files fd file,
                      dirs := Function.update s.dirs dirp dir }

/-- The call is safe and puts nothing into the directory behind a descriptor. -/
def SparesListing (vol : Fat16Volume) (fd : Nat) (s : DirState) : DirCall → Prop
  | .fat op => Safe vol s.fat op ∧ Elsewhere vol (view vol s.fat.disk) (s.files fd).ino op
  | .readdir .. => True

/-- What a call returned, if it is a `readdir` on the descriptor. -/
def DirCall.returnedOn (fd : Nat) : DirCall → Option (Option (List UInt8))
  | .fat _ => none
  | .readdir _ fd' returned => if fd' = fd then some returned else none

/-- The first `k` results: the entries in their order, then `NULL` again and again. -/
def streamResults (all : List Dirent) (k : Nat) : List (Option (List UInt8)) :=
  (List.range k).map fun i => all[i]?.map Dirent.toBytes

/-- The stream has returned the first `k` results. -/
structure Streaming (vol : Fat16Volume) (fd : Nat) (all : List Dirent) (k : Nat) (s : DirState) :
    Prop where
  wellFormed : WellFormed vol (view vol s.fat.disk)
  lists : Lists vol s.fat.disk (s.files fd).ino all
  offset : (s.files fd).offset = min k all.length * direntSize

/-- **A call moves the stream on** by one result if it is a `readdir` on it, and not at all
otherwise. -/
theorem Streaming.step (hg : Geometry vol) {fd k : Nat} {s s' : DirState} {call : DirCall}
    (h : Streaming vol fd all k s) (hok : SparesListing vol fd s call)
    (hstep : (dirStreams vol).step s call s') :
    call.returnedOn fd = none ∧ Streaming vol fd all k s' ∨
      call.returnedOn fd = some (all[k]?.map Dirent.toBytes) ∧ Streaming vol fd all (k + 1) s' := by
  cases call with
  | fat op =>
    obtain ⟨fat, hexec, rfl⟩ := hstep
    exact .inl ⟨rfl, (exec_kept hg h.wellFormed hok.1 hexec).1,
      h.lists.exec hg h.wellFormed hok.1 hok.2 hexec, h.offset⟩
  | readdir dirp fd' returned =>
    obtain ⟨-, file, dir, hread, rfl⟩ := hstep
    by_cases hfd : fd' = fd
    · subst hfd
      obtain ⟨dir', hnext⟩ := readdir_next hg h.lists h.offset (s.dirs dirp)
      rw [hnext] at hread
      cases hread
      refine .inr ⟨if_pos rfl, h.wellFormed, ?_, ?_⟩
      · simpa using h.lists
      · simp
    · have hother : Function.update s.files fd' file fd = s.files fd :=
        Function.update_of_ne (Ne.symm hfd) _ _
      refine .inl ⟨if_neg hfd, h.wellFormed, ?_, ?_⟩
      · simpa only [hother] using h.lists
      · simpa only [hother] using h.offset

/-- **`readdir` lists a directory.**  From an open directory on, through calls on the volume that
put nothing into it and calls of `readdir` on any streams, the calls on its descriptor return the
entries of the listing one after another, each of them once, and then `NULL`; and the next call
returns the next result. -/
theorem readdir_lists_directory (hg : Geometry vol) {s s' : DirState} {fd : Nat}
    {calls : List DirCall} (hwf : WellFormed vol (view vol s.fat.disk))
    (hl : Lists vol s.fat.disk (s.files fd).ino all) (hopen : (s.files fd).offset = 0)
    (hrun : (dirStreams vol).Run (SparesListing vol fd) s calls s') :
    ∃ k, calls.filterMap (·.returnedOn fd) = streamResults all k ∧
      ∀ dirp, ∃ file dir, readdir vol s'.fat.disk (s'.dirs dirp) (s'.files fd) =
        .ok (file, dir, all[k]?.map Dirent.toBytes) := by
  have hstreaming : ∃ k, calls.filterMap (·.returnedOn fd) = streamResults all k ∧
      Streaming vol fd all k s' := by
    refine hrun.invariant (P := fun calls s' => ∃ k,
      calls.filterMap (·.returnedOn fd) = streamResults all k ∧ Streaming vol fd all k s') ?_
      ⟨0, rfl, hwf, hl, by rw [hopen, Nat.zero_min, Nat.zero_mul]⟩
    rintro calls s₁ call s₂ ⟨k, hresults, hs₁⟩ hok hstep
    rw [List.filterMap_append, hresults]
    rcases hs₁.step hg hok hstep with ⟨hret, hs₂⟩ | ⟨hret, hs₂⟩
    · exact ⟨k, by simp [hret], hs₂⟩
    · exact ⟨k + 1, by simp [hret, streamResults, List.range_succ], hs₂⟩
  obtain ⟨k, hresults, hs'⟩ := hstreaming
  refine ⟨k, hresults, fun dirp => ?_⟩
  obtain ⟨dir, hnext⟩ := readdir_next hg hs'.lists hs'.offset (s'.dirs dirp)
  exact ⟨_, dir, hnext⟩

/-- The root directory of the volume with the files `A` and `B`, open under the descriptor 3. -/
def twoFilesOpen : DirState where
  fat := twoFatsDisk
  files := fun _ => { ino := iAmRootDir, offset := 0 }
  dirs := fun _ => opendir 3

theorem twoFilesOpen_lists : Lists twoFats twoFilesOpen.fat.disk (twoFilesOpen.files 3).ino
    [⟨0, [97]⟩, ⟨65536, [98]⟩] where
  node := .inl rfl
  stat := ⟨_, rfl, by decide⟩
  full := ⟨2, 3, by decide +kernel, by decide⟩

/-- The first entry, then bytes written to the file `A`, then the second entry. -/
theorem readdir_lists_two_files : ∃ s₁ s₂,
    (dirStreams twoFats).step twoFilesOpen (.readdir 0 3 (some (Dirent.toBytes ⟨0, [97]⟩))) s₁ ∧
    (dirStreams twoFats).step s₁ (.fat (.writeFile 0 511 [1, 2, 3])) s₂ ∧
    ∃ file dir, readdir twoFats s₂.fat.disk (s₂.dirs 0) (s₂.files 3) =
      .ok (file, dir, some (Dirent.toBytes ⟨65536, [98]⟩)) := by
  have hwf : WellFormed twoFats (view twoFats twoFilesOpen.fat.disk) := twoFatsDisk_wellFormed
  have hok : (FatOp.exec twoFats twoFilesOpen.fat (.writeFile 0 511 [1, 2, 3])).isOk = true := by
    decide +kernel
  obtain ⟨fat, hexec⟩ := exists_of_isOk hok
  have hsafe : Safe twoFats twoFilesOpen.fat (.writeFile 0 511 [1, 2, 3]) :=
    ⟨twoFatsDisk_isNode, .inl (.inl rfl)⟩
  obtain ⟨dir, hfirst⟩ := readdir_next twoFats_geometry twoFilesOpen_lists (k := 0) rfl
    (twoFilesOpen.dirs 0)
  obtain ⟨s₁, hs₁, hread⟩ : ∃ s₁ : DirState, s₁.fat = twoFilesOpen.fat ∧
      (dirStreams twoFats).step twoFilesOpen
        (.readdir 0 3 (some (Dirent.toBytes ⟨0, [97]⟩))) s₁ := by
    refine ⟨_, ?_, rfl, _, dir, hfirst, rfl⟩
    rfl
  obtain ⟨s₂, hwrite⟩ : ∃ s₂, (dirStreams twoFats).step s₁ (.fat (.writeFile 0 511 [1, 2, 3])) s₂ :=
    ⟨{ s₁ with fat }, fat, by rw [hs₁, hexec], rfl⟩
  have hspares : SparesListing twoFats 3 s₁ (.fat (.writeFile 0 511 [1, 2, 3])) :=
    ⟨by rw [hs₁]; exact hsafe, trivial⟩
  have hfree : SparesListing twoFats 3 twoFilesOpen
      (.readdir 0 3 (some (Dirent.toBytes ⟨0, [97]⟩))) := trivial
  obtain ⟨k, hresults, hnext⟩ := readdir_lists_directory twoFats_geometry hwf twoFilesOpen_lists rfl
    (.snoc (.snoc (.nil _) hfree hread) hspares hwrite)
  obtain rfl : k = 1 := by
    have hlen := congrArg List.length hresults
    simpa [streamResults, DirCall.returnedOn] using hlen.symm
  exact ⟨s₁, s₂, hread, hwrite, hnext 0⟩

end Stuos.Libc
