import Stuos.Fs.Fat.Dirent
import Stuos.Lib.Lts

/-!
# Files and directories on a FAT16 volume

`fs_fat.c`, the functions behind a `VNode`: `read_dirents`, `stat_file`, `read_file`,
`write_file`, `create_inode` and `ftruncate`.  A node is named by its inode number;
the mount it lives under is fixed.  C strings are lists of bytes without the
terminating zero.

`fat` is the system whose steps are the calls that change the disk.
-/

namespace Stuos.Fs.Fat

open Stuos.Lib

/-- `struct dirent`; `d_type` is never set. -/
structure Dirent where
  dIno : Nat
  dName : List UInt8
  deriving DecidableEq, Repr

/-- `struct stat`; the owner is always 0. -/
structure Stat where
  stIno : Nat
  stMode : Nat
  stSize : Nat
  deriving DecidableEq, Repr

variable (vol : Fat16Volume) (disk : Mem)

/-! ### Listing a directory -/

/-- `MAX_PATH_LEN`, the size of the name buffer. -/
def maxPathLen : Nat := 256

/-- `CHARS_PER_LFN`. -/
def charsPerLfn : Nat := 13

/-- The characters of one long-name entry, up to and including a zero. -/
def readChars : List Nat → Except Halt (List UInt8)
  | [] => .ok []
  | c :: cs => do
    -- a high byte is refused as unicode
    ensure (c / 256 = 0) .hcf
    if c = 0 then return [0]
    let rest ← readChars cs
    return UInt8.ofNat c :: rest

/-- What the loop over the long-name entries puts into the name buffer; it runs
backwards through them. -/
def readLongName : List Fat16DirectoryEntry → Except Halt (List UInt8)
  | [] => .ok []
  | e :: es => do
    let front ← readLongName es
    ensure (e.zeroA = 0 ∧ e.zeroB = 0) .hcf
    ensure (e.attributes = fileAttributesLfn) .hcf
    let chars ← readChars e.unicodeName
    return front ++ chars

def tolower (c : UInt8) : UInt8 := if 65 ≤ c ∧ c ≤ 90 then c + 32 else c

/-- The short name in lower case, with a dot if there is an extension. -/
def shortName (e : Fat16DirectoryEntry) : List UInt8 :=
  let name := (List.ofFn e.filename).take 8
  let ext := (List.ofFn e.filename).drop 8
  (name.takeWhile (· ≠ 32)).map tolower ++ (if e.filename ⟨8, by decide⟩ ≠ 32 then [46] else []) ++
    (ext.takeWhile (· ≠ 32)).map tolower

/-- The string in the name buffer; `strcpy` runs over its end if there is no zero. -/
def bufferString (fileName : Mem) : Except Halt (List UInt8) := do
  let name := (fileName.read 0 maxPathLen).takeWhile (· ≠ 0)
  ensure (name.length < maxPathLen) .overrun
  return name

/-- The entries of a directory from `directoryI` on, `lfnEntries` of them. -/
def readEntries (clusterNumber directoryI lfnEntries : Nat) :
    Except Halt (List Fat16DirectoryEntry) := do
  let bytes ← readFromDirectory vol disk clusterNumber (directoryI * 32) (lfnEntries * 32)
  return (List.range lfnEntries).map (fun k => .ofBytes (bytes.drop (32 * k)))

/-- The loop of `read_dirents`, for at most `fuel` turns.  `skip` is how many entries
are still to be passed over, and `count` how many may still be written. -/
def readDirentsLoop (clusterNumber : Nat) :
    Nat → Nat → Nat → Nat → Mem → Except Halt (List Dirent)
  | 0, _, _, _, _ => .error .endless
  | fuel + 1, directoryI, skip, count, fileName => do
    let bytes ← readFromDirectory vol disk clusterNumber (directoryI * 32) 32
    let ent : Fat16DirectoryEntry := .ofBytes bytes
    ensure (ent.attributes &&& 0b11000000 = 0) .hcf
    if ent.firstByte = 0 then return []
    -- an empty entry is looked at again and again
    if ent.firstByte = 0xE5 then readDirentsLoop clusterNumber fuel directoryI skip count fileName
    else if ent.attributes = fileAttributesLfn then
      ensure (fileName 0 = 0) .hcf
      let lfnEntries := ent.sequenceNumber
      ensure (lfnEntries ≤ (maxPathLen + charsPerLfn - 1) / charsPerLfn) .overrun
      let longFileNames ← readEntries vol disk clusterNumber directoryI lfnEntries
      let chars ← readLongName longFileNames
      ensure (chars.length ≤ maxPathLen) .overrun
      readDirentsLoop clusterNumber fuel (directoryI + lfnEntries) skip count
        (fileName.write 0 chars)
    else
      ensure (ent.zero = 0) .hcf
      let fileName := if fileName 0 = 0 then fileName.write 0 (shortName ent) else fileName
      match skip, count with
      | skip + 1, count => readDirentsLoop clusterNumber fuel (directoryI + 1) skip count (fun _ => 0)
      | 0, 0 => return []
      | 0, count + 1 =>
        let dIno ← makeInode clusterNumber directoryI
        let dName ← bufferString fileName
        let rest ← readDirentsLoop clusterNumber fuel (directoryI + 1) 0 count (fun _ => 0)
        return { dIno, dName } :: rest

/-- More turns than a directory has entries. -/
def direntFuel : Nat :=
  (0xFFF7 * bytesPerCluster vol + vol.numberOfSectorsRootDirectory * vol.bytesPerSector) / 32 + 2

/-- `read_dirents`: the entries it stores.  `vnode_buf` gets the same inode numbers, and
the number of entries is returned. -/
def readDirents (inodeNum direntIndex direntCount : Nat) : Except Halt (List Dirent) := do
  let clusterNumber ← if getParentClusterNum inodeNum = iAmRootDir then pure parentIsRootDir
    else (readParentDirent vol disk inodeNum).map Fat16DirectoryEntry.clusterNumber
  readDirentsLoop vol disk clusterNumber (direntFuel vol) 0 direntIndex direntCount (fun _ => 0)

/-! ### Reading -/

def statFile (inodeNum : Nat) : Except Halt Stat := do
  if getParentClusterNum inodeNum = iAmRootDir then
    return { stIno := inodeNum, stMode := sIfdir,
             stSize := intU64 (vol.numberOfSectorsRootDirectory * vol.bytesPerSector) }
  let entryInParent ← readParentDirent vol disk inodeNum
  let stMode ← readFatMode entryInParent.attributes
  return { stIno := inodeNum, stMode, stSize := entryInParent.fileSizeBytes }

/-- `sizeof(struct dirent)`. -/
def direntSize : Nat := 272

/-- A `struct dirent` in memory. -/
def Dirent.toBytes (d : Dirent) : List UInt8 :=
  leBytes 8 d.dIno ++ [0] ++ d.dName ++ List.replicate (maxPathLen - d.dName.length + 7) 0

/-- `read_file`: the bytes it stores; their number is returned. -/
def readFile (inodeNum offset numBytes : Nat) : Except Halt (List UInt8) := do
  let stat ← statFile vol disk inodeNum
  if sIsdir stat.stMode then
    ensure (offset % direntSize = 0) .hcf
    ensure (numBytes % direntSize = 0) .hcf
    let dirents ← readDirents vol disk inodeNum (offset / direntSize) (numBytes / direntSize)
    return dirents.flatMap Dirent.toBytes
  let entryInParent ← readParentDirent vol disk inodeNum
  -- don't read past the end of the file
  let numBytes := if u64 (offset + numBytes) > entryInParent.fileSizeBytes then
    u64 (entryInParent.fileSizeBytes + 2 ^ 64 - offset) else numBytes
  readFromClusterChain vol disk entryInParent.clusterNumber offset numBytes

/-! ### Writing -/

def uint32Max : Nat := 2 ^ 32 - 1

/-- The entry with a first cluster, allocated if it has none yet. -/
def ensureFirstCluster (entry : Fat16DirectoryEntry) :
    Except Halt (Fat16DirectoryEntry × Mem) :=
  if isInvalidClusterNum entry.clusterNumber then do
    let (firstCluster, disk) ← allocateCluster vol disk
    return (entry.withClusterNumber firstCluster, disk)
  else .ok (entry, disk)

/-- `write_file`, which returns the number of bytes. -/
def writeFile (inodeNum offset : Nat) (inputBuf : List UInt8) : Except Halt Mem := do
  let stat ← statFile vol disk inodeNum
  ensure (sIsdir stat.stMode = false) .hcf
  let entryInParent ← readParentDirent vol disk inodeNum
  let (entryInParent, disk) ← ensureFirstCluster vol disk entryInParent
  let stop := u64 (offset + inputBuf.length)
  ensure (stop > entryInParent.fileSizeBytes → stop ≤ uint32Max) .hcf
  let entryInParent := if stop > entryInParent.fileSizeBytes then
    entryInParent.withFileSizeBytes stop else entryInParent
  let disk ← writeParentDirent vol disk inodeNum entryInParent
  writeToClusterChain vol disk entryInParent.clusterNumber offset inputBuf

/-- `ftruncate`.  The size is set before it is compared with the new one. -/
def ftruncate (inodeNum len : Nat) : Except Halt Mem := do
  let stat ← statFile vol disk inodeNum
  ensure (sIsdir stat.stMode = false) .hcf
  let entryInParent ← readParentDirent vol disk inodeNum
  let (entryInParent, disk) ← ensureFirstCluster vol disk entryInParent
  ensure (len ≤ uint32Max) .hcf
  let entryInParent := entryInParent.withFileSizeBytes len
  let disk ← if entryInParent.fileSizeBytes ≤ len then
      let numZeroes := (len - entryInParent.fileSizeBytes) % 2 ^ 32
      writeToClusterChain vol disk entryInParent.clusterNumber entryInParent.fileSizeBytes
        (List.replicate numZeroes 0)
    else .ok disk
  writeParentDirent vol disk inodeNum entryInParent

/-! ### Creating -/

/-- The unique short file name of the `createIdx`-th entry. -/
def shortFileName (createIdx : Nat) : Fin 11 → UInt8 := fun i =>
  match i with
  | 8 => 65 + UInt8.ofNat (createIdx % 26)
  | 9 => 65 + UInt8.ofNat (createIdx / 26 % 26)
  | 10 => 65 + UInt8.ofNat (createIdx / 26 / 26 % 26)
  | i => [82, 69, 65, 68, 95, 76, 70, 78].getD i.val 0

/-- A `char` as a 16-bit character: it is signed. -/
def charU16 (c : UInt8) : Nat := if c.toNat < 128 then c.toNat else 0xFF00 + c.toNat

/-- The next `n` characters of a long-name entry: the name, its zero, then filler. -/
def writeChars : Nat → List UInt8 → List Nat
  | 0, _ => []
  | n + 1, [] => 0 :: List.replicate n 0xFFFF
  | n + 1, c :: cs => charU16 c :: writeChars n cs

/-- A `Fat16LFNEntry` as `create_inode` fills it in. -/
def lfnEntry (sequenceNumber : Nat) (isLastInSequence : Bool) (sum : UInt8) (chars : List Nat) :
    Fat16DirectoryEntry :=
  let text := chars.flatMap (leBytes 2)
  .ofBytes ([UInt8.ofNat (sequenceNumber % 64 + if isLastInSequence then 64 else 0)] ++
    text.take 10 ++ [fileAttributesLfn, 0, sum] ++ (text.drop 10).take 12 ++ [0, 0] ++
    text.drop 22)

/-- The loop that makes the long-name entries: `seq` counts down to 0, and each turn takes
the next characters of the name. -/
def lfnLoop (lfnEntryCount : Nat) (sum : UInt8) :
    Nat → List UInt8 → List Fat16DirectoryEntry → List Fat16DirectoryEntry
  | 0, _, made => made
  | seq + 1, name, made =>
    lfnLoop lfnEntryCount sum seq (name.drop charsPerLfn)
      (lfnEntry (lfnEntryCount - seq) (seq == 1) sum (writeChars charsPerLfn name) :: made)

def lfnEntryCount (name : List UInt8) : Nat := (name.length + charsPerLfn) / charsPerLfn

/-- The all-zero entry at the end of a directory. -/
def endSentinel : Fat16DirectoryEntry := fun _ => 0

/-- Where the root directory's end sentinel is, from `offset` on. -/
def findRootEnd (offset : Nat) : Nat → Except Halt Nat
  | 0 => .error .endless
  | fuel + 1 => do
    let bytes ← readFromRootDir vol disk offset 32
    if Fat16DirectoryEntry.firstByte (.ofBytes bytes) = 0 then return offset
    findRootEnd (offset + 32) fuel

/-- The chain of a new directory, holding only the end sentinel; a new file has none. -/
def newNodeChain (newInodeType : Nat) : Except Halt (Nat × Nat × Mem) :=
  if sIsdir newInodeType then do
    let (clusterNumber, disk) ← allocateCluster vol disk
    let disk ← writeToClusterChain vol disk clusterNumber 0 endSentinel.toBytes
    return (clusterNumber, 32, disk)
  else .ok (0, 0, disk)

/-- The last part of `create_inode`: put the entries over the parent's end sentinel. -/
def insertEntries (parentInodeNum : Nat) (entries : List Fat16DirectoryEntry) :
    Except Halt Mem := do
  let input := entries.flatMap Fat16DirectoryEntry.toBytes
  if parentInodeNum = iAmRootDir then
    let rootEntries := vol.numberOfSectorsRootDirectory * vol.bytesPerSector / 32
    let offset ← findRootEnd vol disk 0 (rootEntries + 1)
    writeToRootDir vol disk offset input
  else
    let entryInParent ← readParentDirent vol disk parentInodeNum
    -- the zero entry at the end is overwritten
    let offset := (entryInParent.fileSizeBytes + 2 ^ 32 - 32) % 2 ^ 32
    let entryInParent :=
      entryInParent.withFileSizeBytes (entryInParent.fileSizeBytes + 32 * (entries.length - 1))
    let disk ← writeParentDirent vol disk parentInodeNum entryInParent
    writeToClusterChain vol disk entryInParent.clusterNumber offset input

/-- The volume with the static counter of `create_inode`. -/
structure FatState where
  disk : Mem
  createIdx : Nat

def createInode (s : FatState) (parentInodeNum newInodeType : Nat) (name : List UInt8) :
    Except Halt FatState := do
  let stat ← statFile vol s.disk parentInodeNum
  ensure (sIsdir stat.stMode = true) .hcf
  let sfn := shortFileName s.createIdx
  ensure (name.length < charsPerLfn * 65) .hcf
  -- the array has room for 63 long-name entries, the entry itself and the zero entry
  ensure (lfnEntryCount name + 2 ≤ 65) .overrun
  let long := lfnLoop (lfnEntryCount name) (checksum sfn) (lfnEntryCount name) name []
  let (clusterNumber, fileSizeBytes, disk) ← newNodeChain vol s.disk newInodeType
  let attributes ← createFatMode newInodeType
  let dirent := Fat16DirectoryEntry.ofFields sfn attributes clusterNumber fileSizeBytes
  let disk ← insertEntries vol disk parentInodeNum (long ++ [dirent, endSentinel])
  return { disk, createIdx := (s.createIdx + 1) % 2 ^ 32 }

/-! ### The calls as a system -/

/-- The calls that change the disk. -/
inductive FatOp
  | createInode (parentInodeNum newInodeType : Nat) (name : List UInt8)
  | writeFile (inodeNum offset : Nat) (inputBuf : List UInt8)
  | ftruncate (inodeNum len : Nat)

def FatOp.exec (s : FatState) : FatOp → Except Halt FatState
  | .createInode parent type name => Fat.createInode vol s parent type name
  | .writeFile inode offset input => do
    let disk ← Fat.writeFile vol s.disk inode offset input
    return { s with disk }
  | .ftruncate inode len => do
    let disk ← Fat.ftruncate vol s.disk inode len
    return { s with disk }

theorem FatOp.exec_writeFile {s s' : FatState} {inode offset : Nat} {input : List UInt8}
    (h : (FatOp.writeFile inode offset input).exec vol s = .ok s') :
    Fat.writeFile vol s.disk inode offset input = .ok s'.disk := by
  rw [FatOp.exec, bind_eq_ok] at h
  obtain ⟨disk, h, hs⟩ := h
  cases hs
  exact h

theorem FatOp.exec_ftruncate {s s' : FatState} {inode len : Nat}
    (h : (FatOp.ftruncate inode len).exec vol s = .ok s') :
    Fat.ftruncate vol s.disk inode len = .ok s'.disk := by
  rw [FatOp.exec, bind_eq_ok] at h
  obtain ⟨disk, h, hs⟩ := h
  cases hs
  exact h

/-- The volume as a system; a call that does not return takes no step. -/
def fat : Lts FatState FatOp where
  init _ := True
  step s op s' := op.exec vol s = .ok s'

end Stuos.Fs.Fat
