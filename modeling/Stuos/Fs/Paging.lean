import Stuos.Fs.Dev
import Stuos.Fs.VfsGet
import Stuos.Fs.Fat.Scanning

/-!
# Listing a directory in pages

The two implementations of `read_dirents`, with the number they return, and `directory_lookup` of
`fs2.rs`, which asks for one entry at a time.  Each call starts from the front of the directory and
passes over the entries in front of its index.

* `Listing`: what a call has to return is a page of one list.
* `fat_listing`, `devrootReadDirents_eq`: both implementations are such, the first where the whole list
  can be read at all.
* `directory_paging`: pages put together are a page, and `directory_lookup` looks at the entries in
  their order, once each, up to the one that it stops at.
-/

namespace Stuos.Fs

open Stuos.Lib
open Stuos.Fs.Fat (Dirent)

/-! ### `read_dirents` of a FAT volume -/

namespace Fat

section

variable (vol : Fat16Volume) (disk : Mem)

/-- The loop of `read_dirents` with its two counters.  `stored` is what is in `dirent_buf`. -/
def readDirentsCounting (clusterNumber direntIndex direntCount : Nat) :
    Nat → Nat → Nat → Nat → Mem → List Dirent → Except Halt (Nat × List Dirent)
  | 0, _, _, _, _, _ => .error .endless
  | fuel + 1, directoryI, entriesRead, entriesWritten, fileName, stored => do
    match ← direntTurn vol disk clusterNumber directoryI fileName with
    | .stop => return (entriesWritten, stored)
    | .pass next fileName =>
      readDirentsCounting clusterNumber direntIndex direntCount fuel next entriesRead entriesWritten
        fileName stored
    | .entry fileName =>
      let entriesRead := entriesRead + 1
      -- skipped to the `dirent_index`th element
      if direntIndex < entriesRead then
        if direntCount ≤ entriesWritten then return (direntCount, stored)
        else
          let dIno ← makeInode clusterNumber directoryI
          let dName ← bufferString fileName
          readDirentsCounting clusterNumber direntIndex direntCount fuel (directoryI + 1) entriesRead
            (entriesWritten + 1) (fun _ => 0) (stored ++ [{ dIno, dName }])
      else
        readDirentsCounting clusterNumber direntIndex direntCount fuel (directoryI + 1) entriesRead
          entriesWritten (fun _ => 0) stored

/-- `cluster_number` of the directory that is listed. -/
def listedCluster (inodeNum : Nat) : Except Halt Nat :=
  if getParentClusterNum inodeNum = iAmRootDir then .ok parentIsRootDir
  else (readParentDirent vol disk inodeNum).map Fat16DirectoryEntry.clusterNumber

/-- `read_dirents`: the number it returns and the entries it stores. -/
def readDirentsCall (inodeNum direntIndex direntCount : Nat) : Except Halt (Nat × List Dirent) := do
  let clusterNumber ← listedCluster vol disk inodeNum
  readDirentsCounting vol disk clusterNumber direntIndex direntCount (direntFuel vol) 0 0 0
    (fun _ => 0) []

theorem readDirents_eq (ino index count : Nat) :
    readDirents vol disk ino index count = listedCluster vol disk ino >>= fun clusterNumber =>
      readDirentsLoop vol disk clusterNumber (direntFuel vol) 0 index count (fun _ => 0) := by
  rw [readDirents, listedCluster]
  split <;> rfl

end

variable {vol : Fat16Volume} {disk : Mem} {d : Nat}

/-- **The counters** only say how many entries are still to be passed over, and how many may still
be written. -/
theorem readDirentsCounting_eq (index count fuel : Nat) :
    ∀ directoryI entriesRead entriesWritten fileName stored, entriesWritten ≤ count →
      readDirentsCounting vol disk d index count fuel directoryI entriesRead entriesWritten fileName
          stored =
        (readDirentsLoop vol disk d fuel directoryI (index - entriesRead) (count - entriesWritten)
          fileName).map fun ents => (entriesWritten + ents.length, stored ++ ents) := by
  induction fuel with
  | zero => exact fun _ _ _ _ _ _ => rfl
  | succ fuel ih =>
    intro directoryI entriesRead entriesWritten fileName stored hle
    rw [readDirentsCounting, readDirentsLoop_succ]
    cases direntTurn vol disk d directoryI fileName with
    | error e => rfl
    | ok t =>
      rw [ok_bind, ok_bind]
      cases t with
      | stop => simp [afterTurn, Except.map]
      | pass next fileName' => exact ih _ _ _ _ _ hle
      | entry fileName' =>
        simp only
        by_cases hskip : index < entriesRead + 1
        · rw [if_pos hskip, show index - entriesRead = 0 by omega]
          by_cases hfull : count ≤ entriesWritten
          · rw [if_pos hfull, show count - entriesWritten = 0 by omega]
            simp [afterTurn, Except.map, Nat.le_antisymm hle hfull]
          · rw [if_neg hfull, show count - entriesWritten = count - (entriesWritten + 1) + 1 by omega]
            simp only [afterTurn]
            cases makeInode d directoryI with
            | error e => rfl
            | ok dIno =>
              cases bufferString fileName' with
              | error e => rfl
              | ok dName =>
                rw [ok_bind, ok_bind, ok_bind, ok_bind, ih _ _ _ _ _ (by omega),
                  show index - (entriesRead + 1) = 0 by omega]
                cases readDirentsLoop vol disk d fuel (directoryI + 1) 0
                    (count - (entriesWritten + 1)) (fun _ => 0) with
                | error e => rfl
                | ok rest => simp [Except.map, ok_bind, Nat.add_assoc, Nat.add_comm 1]
        · rw [if_neg hskip, show index - entriesRead = index - (entriesRead + 1) + 1 by omega]
          exact ih _ _ _ _ _ hle

theorem readDirentsCall_eq (vol : Fat16Volume) (disk : Mem) (ino index count : Nat) :
    readDirentsCall vol disk ino index count =
      (readDirents vol disk ino index count).map fun ents => (ents.length, ents) := by
  rw [readDirentsCall, readDirents_eq]
  cases listedCluster vol disk ino with
  | error e => rfl
  | ok clusterNumber =>
    rw [ok_bind, ok_bind, readDirentsCounting_eq index count _ 0 0 0 _ [] (Nat.zero_le _)]
    simp only [Nat.sub_zero, Nat.zero_add, List.nil_append]

/-- **A page of a list that can be read as a whole.** -/
theorem readDirentsLoop_page (fuel : Nat) : ∀ i n fileName all,
    readDirentsLoop vol disk d fuel i 0 n fileName = .ok all → all.length < n →
    ∀ skip count, readDirentsLoop vol disk d fuel i skip count fileName =
      .ok ((all.drop skip).take count) := by
  induction fuel with
  | zero =>
    intro i n fileName all h
    cases h
  | succ fuel ih =>
    intro i n fileName all h hlt skip count
    rw [readDirentsLoop_succ, bind_eq_ok] at h
    obtain ⟨t, hturn, h⟩ := h
    rw [readDirentsLoop_succ, hturn, ok_bind]
    cases t with
    | stop =>
      cases h
      simp [afterTurn]
    | pass next fileName' => exact ih next n fileName' all h hlt skip count
    | entry fileName' =>
      cases n with
      | zero => exact absurd hlt (Nat.not_lt_zero _)
      | succ n =>
        simp only [afterTurn, bind_eq_ok] at h
        obtain ⟨dIno, hino, dName, hname, rest, hrest, h⟩ := h
        cases h
        have hpage := ih (i + 1) n _ rest hrest (Nat.lt_of_succ_lt_succ hlt)
        cases skip with
        | succ skip => exact hpage skip count
        | zero =>
          cases count with
          | zero => rfl
          | succ count =>
            have hnext := hpage 0 count
            rw [List.drop_zero] at hnext
            rw [afterTurn, hino, ok_bind, hname, ok_bind, hnext, ok_bind]
            rfl

theorem readDirents_page {ino n : Nat} {all : List Dirent}
    (h : readDirents vol disk ino 0 n = .ok all) (hlt : all.length < n) (i a : Nat) :
    readDirents vol disk ino i a = .ok ((all.drop i).take a) := by
  rw [readDirents_eq, bind_eq_ok] at h
  obtain ⟨clusterNumber, hcluster, h⟩ := h
  rw [readDirents_eq, hcluster, ok_bind]
  exact readDirentsLoop_page _ 0 n _ all h hlt i a

end Fat

/-! ### `read_dirents` of the block devices -/

namespace Dev

/-- The string at the start of a character array. -/
def cString (chars : List UInt8) : List UInt8 := chars.takeWhile (· ≠ 0)

/-- The entry of a partition. -/
def devDirent (devNum partitionNum : Nat) : Dirent where
  dIno := devNum * 2 ^ 16 ||| partitionNum
  dName := cString [98, 108, 107, UInt8.ofNat (65 + devNum), if partitionNum ≠ 0 then 112 else 0,
    if partitionNum ≠ 0 then UInt8.ofNat (48 + partitionNum) else 0, 0]

/-- The state of the two loops of `devroot_read_dirents`. -/
structure DevScan where
  direntIndex : Nat
  count : Nat
  stored : List Dirent

/-- The body of the inner loop; the error is an early `return`. -/
def devrootPartition (direntCount : Nat) (s : DevScan) (dirent : Dirent) :
    Except (Nat × List Dirent) DevScan :=
  if s.direntIndex ≠ 0 then .ok { s with direntIndex := s.direntIndex - 1 }
  else if s.count = direntCount then .error (direntCount, s.stored)
  else .ok { s with stored := s.stored ++ [dirent], count := s.count + 1 }

def devrootReadDirents (blockDevices : List BlockDevice) (id : VNodeData)
    (direntIndex direntCount : Nat) : Except Halt (Nat × List Dirent) := do
  ensure (id.inode = devRootDirInodeNum ∧ id.mountId = 0) .hcf
  let scan := blockDevices.zipIdx.foldlM (fun s (blk, devNum) =>
    (List.range blk.partitions.length).foldlM (fun s partitionNum =>
      devrootPartition direntCount s (devDirent devNum partitionNum)) s) ⟨direntIndex, 0, []⟩
  match scan with
  | .error returned => return returned
  | .ok s => return (s.count, s.stored)

/-- All entries of the directory. -/
def devDirents (blockDevices : List BlockDevice) : List Dirent :=
  blockDevices.zipIdx.flatMap fun (blk, devNum) =>
    (List.range blk.partitions.length).map (devDirent devNum)

/-- What the loops return. -/
def scanReturn : Except (Nat × List Dirent) DevScan → Nat × List Dirent
  | .error returned => returned
  | .ok s => (s.count, s.stored)

/-- **The body over a list of entries** stores a page of it. -/
theorem devrootPartition_foldlM (direntCount : Nat) (dirents : List Dirent) : ∀ s : DevScan,
    s.count ≤ direntCount →
    scanReturn (dirents.foldlM (devrootPartition direntCount) s) =
      (s.count + ((dirents.drop s.direntIndex).take (direntCount - s.count)).length,
        s.stored ++ (dirents.drop s.direntIndex).take (direntCount - s.count)) := by
  induction dirents with
  | nil =>
    intro s _
    simp [scanReturn, pure_eq_ok]
  | cons dirent dirents ih =>
    rintro ⟨index, count, stored⟩ hle
    rw [List.foldlM_cons, devrootPartition]
    cases index with
    | succ index =>
      rw [if_pos (Nat.succ_ne_zero index), ok_bind]
      exact ih ⟨index, count, stored⟩ hle
    | zero =>
      rw [if_neg (fun h => h rfl)]
      split
      · rename_i hend
        simp only at hend
        simp [scanReturn, hend]
      · rename_i hmore
        simp only at hmore hle
        obtain ⟨left, rfl⟩ : ∃ left, direntCount = count + (left + 1) :=
          ⟨direntCount - count - 1, by omega⟩
        have hleft : count + (left + 1) - (count + 1) = left := by omega
        rw [ok_bind, ih ⟨0, count + 1, stored ++ [dirent]⟩ (by simp only; omega)]
        simp only [hleft, Nat.add_sub_cancel_left, List.drop_zero, List.take_succ_cons,
          List.length_cons, List.append_assoc, List.singleton_append, Prod.mk.injEq, and_true]
        omega

/-- **A page of the block devices.** -/
theorem devrootReadDirents_eq (blockDevices : List BlockDevice) (i a : Nat) :
    devrootReadDirents blockDevices ⟨devRootDirInodeNum, 0⟩ i a =
      .ok ((((devDirents blockDevices).drop i).take a).length,
        ((devDirents blockDevices).drop i).take a) := by
  have hflat : blockDevices.zipIdx.foldlM (fun s (blk, devNum) =>
      (List.range blk.partitions.length).foldlM (fun s partitionNum =>
        devrootPartition a s (devDirent devNum partitionNum)) s) ⟨i, 0, []⟩ =
      (devDirents blockDevices).foldlM (devrootPartition a) ⟨i, 0, []⟩ := by
    refine foldlM_flatMap (P := fun _ => True) ?_ (fun _ _ _ _ _ _ => trivial) trivial
    rintro ⟨blk, devNum⟩ - s -
    rw [List.foldlM_map]
  have hscan := devrootPartition_foldlM a (devDirents blockDevices) ⟨i, 0, []⟩ (Nat.zero_le _)
  rw [devrootReadDirents, ensure_of ⟨rfl, rfl⟩, ok_bind, hflat]
  simp only [Nat.zero_add, List.nil_append, Nat.sub_zero] at hscan
  rw [← hscan]
  cases (devDirents blockDevices).foldlM (devrootPartition a) ⟨i, 0, []⟩ with
  | error returned => rfl
  | ok s => rfl

end Dev

/-! ### `directory_lookup` -/

variable {ε : Type}

/-- How `directory_lookup` stops without returning. -/
inductive LookupStop (ε : Type)
  /-- `read_dirents` does not return -/
  | halted (e : ε)
  /-- the `assert` -/
  | notOneEntry
  /-- the `unwrap` of `to_str` -/
  | notUtf8
  | endless

/-- The loop of `directory_lookup` for at most `fuel` rounds, with the entry in `dirent_buf`: the
entries it looks at, and the inode it returns; `none` is `Err(())`. -/
def lookupLoop (readDirents : Nat → Nat → Except ε (Nat × List Dirent)) (name : Segment) :
    Nat → Nat → Dirent → List Dirent × Except (LookupStop ε) (Option Nat)
  | 0, _, _ => ([], .error .endless)
  | fuel + 1, offset, direntBuf =>
    match readDirents offset 1 with
    | .error e => ([], .error (.halted e))
    | .ok (count, stored) =>
      let direntBuf := stored.headD direntBuf
      if count = 0 then ([], .ok none)
      else if count ≠ 1 then ([], .error .notOneEntry)
      else
        match toStr direntBuf.dName with
        | none => ([direntBuf], .error .notUtf8)
        | some itemName =>
          if itemName = name then ([direntBuf], .ok (some direntBuf.dIno))
          else
            let rest := lookupLoop readDirents name fuel (offset + count) direntBuf
            (direntBuf :: rest.1, rest.2)

/-- The calls return the pages of a list, with their lengths. -/
def Listing (readDirents : Nat → Nat → Except ε (Nat × List Dirent)) (all : List Dirent) : Prop :=
  ∀ i a, readDirents i a = .ok (((all.drop i).take a).length, (all.drop i).take a)

/-- The lookup ends at the entry: it has the name, or a name that is no text. -/
def endsLookup (name : Segment) (e : Dirent) : Bool :=
  match toStr e.dName with
  | none => true
  | some itemName => itemName == name

/-- What is returned at the entry that the lookup ends at, if there is one. -/
def lookupResult : Option Dirent → Except (LookupStop ε) (Option Nat)
  | none => .ok none
  | some e => if toStr e.dName = none then .error .notUtf8 else .ok (some e.dIno)

section

variable {readDirents : Nat → Nat → Except ε (Nat × List Dirent)} {all : List Dirent}

/-- **Pages put together.** -/
theorem Listing.append (h : Listing readDirents all) (i a b : Nat) :
    ∃ xs ys, readDirents i a = .ok (xs.length, xs) ∧ readDirents (i + a) b = .ok (ys.length, ys) ∧
      readDirents i (a + b) = .ok ((xs ++ ys).length, xs ++ ys) := by
  refine ⟨_, _, h i a, h (i + a) b, ?_⟩
  rw [h i (a + b), List.take_add, List.drop_drop]

/-- **The lookup** looks at the entries in their order, up to the first that it ends at. -/
theorem Listing.lookupLoop_eq (h : Listing readDirents all) (name : Segment) (rest : List Dirent) :
    ∀ offset fuel direntBuf, all.drop offset = rest → rest.length < fuel →
      lookupLoop readDirents name fuel offset direntBuf =
        (rest.take (rest.findIdx (endsLookup name) + 1),
          lookupResult (rest.find? (endsLookup name))) := by
  induction rest with
  | nil =>
    intro offset fuel direntBuf hrest hfuel
    obtain ⟨fuel, rfl⟩ := Nat.exists_eq_succ_of_ne_zero (Nat.ne_of_gt hfuel)
    rw [lookupLoop, h offset 1, hrest]
    rfl
  | cons e rest ih =>
    intro offset fuel direntBuf hrest hfuel
    obtain ⟨fuel, rfl⟩ := Nat.exists_eq_succ_of_ne_zero (Nat.ne_zero_of_lt hfuel)
    have hnext : all.drop (offset + 1) = rest := by
      rw [← List.drop_drop, hrest]
      rfl
    have hround := ih (offset + 1) fuel e hnext (Nat.lt_of_succ_lt_succ hfuel)
    rw [lookupLoop, h offset 1, hrest]
    simp only [List.take_succ_cons, List.take_zero, List.length_singleton, Nat.one_ne_zero,
      ne_eq, not_true_eq_false, if_false, List.headD_cons, List.find?_cons, List.findIdx_cons]
    cases hname : toStr e.dName with
    | none => simp [endsLookup, hname, lookupResult]
    | some itemName =>
      by_cases hsame : itemName = name
      · simp [endsLookup, hname, lookupResult, hsame]
      · have hother : (itemName == name) = false := beq_false_of_ne hsame
        simp [endsLookup, hname, hsame, hround, hother]

theorem Listing.lookup (h : Listing readDirents all) (name : Segment) :
    ∃ fuel, lookupLoop readDirents name fuel 0 ⟨0, []⟩ =
      (all.take (all.findIdx (endsLookup name) + 1), lookupResult (all.find? (endsLookup name))) :=
  ⟨all.length + 1, h.lookupLoop_eq name all 0 _ _ List.drop_zero (Nat.lt_succ_self _)⟩

/-- The result is that of `scanDirents` over the whole list. -/
theorem Listing.lookup_scanDirents (h : Listing readDirents all) (name : Segment) :
    ∃ fuel, (lookupLoop readDirents name fuel 0 ⟨0, []⟩).2 =
      (scanDirents name (all.map fun e => (e.dName, e.dIno))).mapError fun _ => .notUtf8 := by
  obtain ⟨fuel, hlookup⟩ := h.lookup name
  refine ⟨fuel, ?_⟩
  rw [hlookup]
  clear h hlookup
  simp only
  induction all with
  | nil => rfl
  | cons e all ih =>
    cases htext : toStr e.dName with
    | none => simp [endsLookup, htext, lookupResult, scanDirents, Except.mapError]
    | some itemName =>
      by_cases hsame : itemName = name
      · simp [endsLookup, htext, hsame, lookupResult, scanDirents, Except.mapError]
      · have hother : (itemName == name) = false := beq_false_of_ne hsame
        simp [endsLookup, htext, hsame, hother, scanDirents, ih]

end

/-! ### Both directories -/

/-- The whole list can be read: a call from the start on comes to an end in front of its count. -/
def FullListing (readDirents : Nat → Nat → Except ε (Nat × List Dirent)) (all : List Dirent) : Prop :=
  ∃ r n, readDirents 0 n = .ok (r, all) ∧ all.length < n

/-- **A FAT directory that can be listed is a listing.** -/
theorem fat_listing {vol : Fat.Fat16Volume} {disk : Mem} {ino : Nat} {all : List Dirent}
    (h : FullListing (Fat.readDirentsCall vol disk ino) all) :
    Listing (Fat.readDirentsCall vol disk ino) all := by
  obtain ⟨r, n, hall, hlt⟩ := h
  rw [Fat.readDirentsCall_eq, map_eq_ok] at hall
  obtain ⟨ents, hents, heq⟩ := hall
  cases heq
  intro i a
  rw [Fat.readDirentsCall_eq, Fat.readDirents_page hents hlt]
  rfl

/-- **Pages and lookups.**  On a FAT volume, where the directory can be listed at all, and in the
directory of the block devices. -/
theorem directory_paging {vol : Fat.Fat16Volume} {disk : Mem} {ino : Nat} {all : List Dirent}
    (h : FullListing (Fat.readDirentsCall vol disk ino) all)
    (blockDevices : List Dev.BlockDevice) :
    (∀ i a b, ∃ xs ys, Fat.readDirentsCall vol disk ino i a = .ok (xs.length, xs) ∧
      Fat.readDirentsCall vol disk ino (i + a) b = .ok (ys.length, ys) ∧
      Fat.readDirentsCall vol disk ino i (a + b) = .ok ((xs ++ ys).length, xs ++ ys)) ∧
    (∀ name, ∃ fuel, lookupLoop (Fat.readDirentsCall vol disk ino) name fuel 0 ⟨0, []⟩ =
      (all.take (all.findIdx (endsLookup name) + 1), lookupResult (all.find? (endsLookup name)))) ∧
    ∃ dirents, FullListing (Dev.devrootReadDirents blockDevices ⟨Dev.devRootDirInodeNum, 0⟩) dirents ∧
      (∀ i a b, ∃ xs ys,
        Dev.devrootReadDirents blockDevices ⟨Dev.devRootDirInodeNum, 0⟩ i a = .ok (xs.length, xs) ∧
        Dev.devrootReadDirents blockDevices ⟨Dev.devRootDirInodeNum, 0⟩ (i + a) b =
          .ok (ys.length, ys) ∧
        Dev.devrootReadDirents blockDevices ⟨Dev.devRootDirInodeNum, 0⟩ i (a + b) =
          .ok ((xs ++ ys).length, xs ++ ys)) ∧
      ∀ name, ∃ fuel, lookupLoop
        (Dev.devrootReadDirents blockDevices ⟨Dev.devRootDirInodeNum, 0⟩) name fuel 0 ⟨0, []⟩ =
        (dirents.take (dirents.findIdx (endsLookup name) + 1),
          lookupResult (dirents.find? (endsLookup name))) := by
  have hfat := fat_listing h
  have hdev : Listing (Dev.devrootReadDirents blockDevices ⟨Dev.devRootDirInodeNum, 0⟩)
      (Dev.devDirents blockDevices) := Dev.devrootReadDirents_eq blockDevices
  refine ⟨hfat.append, hfat.lookup, Dev.devDirents blockDevices, ?_, hdev.append, hdev.lookup⟩
  refine ⟨(Dev.devDirents blockDevices).length, (Dev.devDirents blockDevices).length + 1, ?_,
    Nat.lt_succ_self _⟩
  have hall := hdev 0 ((Dev.devDirents blockDevices).length + 1)
  rwa [List.drop_zero, List.take_of_length_le (Nat.le_succ _)] at hall

/-- The root directory with the files `A` and `B`, in pages of one entry. -/
theorem directory_paging_two_files :
    FullListing (Fat.readDirentsCall Fat.twoFats Fat.twoFatsDisk.disk 1) [⟨0, [97]⟩, ⟨65536, [98]⟩] ∧
      ∃ xs ys, Fat.readDirentsCall Fat.twoFats Fat.twoFatsDisk.disk 1 0 1 = .ok (xs.length, xs) ∧
        Fat.readDirentsCall Fat.twoFats Fat.twoFatsDisk.disk 1 1 1 = .ok (ys.length, ys) ∧
        Fat.readDirentsCall Fat.twoFats Fat.twoFatsDisk.disk 1 0 2 =
          .ok ((xs ++ ys).length, xs ++ ys) := by
  have hfull : FullListing (Fat.readDirentsCall Fat.twoFats Fat.twoFatsDisk.disk 1)
      [⟨0, [97]⟩, ⟨65536, [98]⟩] := ⟨2, 3, by decide +kernel, by decide⟩
  exact ⟨hfull, (directory_paging hfull []).1 0 1 1⟩

end Stuos.Fs
