import Stuos.Fs.VNode
import Stuos.Lib.Bytes
import Stuos.Lib.Halt

/-!
# FAT16 volumes

`fs_fat.c`, the part below directories: the file allocation table, the root
directory as a region of the disk, and the two loops that write and read along a
cluster chain.  The block device is a byte array.

C arithmetic on `int` wraps at 32 bits; `int32` and `intU64` say so where the source
multiplies 16-bit fields.  A loop whose number of turns is not plain from its
arguments takes a bound on it.
-/

namespace Stuos.Fs.Fat

open Stuos.Lib

/-- How a call can stop without returning. -/
inductive Halt
  /-- any `HCF` but the next one -/
  | hcf
  /-- the `HCF` of `find_free_cluster_number` -/
  | outOfClusters
  | divisionByZero
  /-- an index outside its array -/
  | overrun
  /-- a loop that does not end -/
  | endless
  deriving DecidableEq, Repr

/-- `struct Fat16Volume`; the disk is passed beside it. -/
structure Fat16Volume where
  fatsStartSector : Nat
  numberOfFats : Nat
  numberOfSectorsPerFat : Nat
  bytesPerSector : Nat
  sectorsPerCluster : Nat
  numberOfSectorsRootDirectory : Nat
  deriving DecidableEq, Repr

/-- The `int` with the low 32 bits of `n`. -/
def int32 (n : Nat) : Int := (n : Int).bmod (2 ^ 32)

/-- The same `int`, converted to `uint64_t`. -/
def intU64 (n : Nat) : Nat := ((int32 n) % 2 ^ 64).toNat

variable (vol : Fat16Volume) (disk : Mem)

def bytesPerCluster : Nat := vol.bytesPerSector * vol.sectorsPerCluster

def calculateDataSectionStart : Nat :=
  let sector := (vol.fatsStartSector + vol.numberOfFats * vol.numberOfSectorsPerFat +
    vol.numberOfSectorsRootDirectory) % 2 ^ 16
  intU64 (sector * vol.bytesPerSector)

/-- `root_dir_start_byte`. -/
def rootDirStartByte : Nat :=
  intU64 ((vol.fatsStartSector + vol.numberOfSectorsPerFat * vol.numberOfFats) *
    vol.bytesPerSector)

/-- Not a real cluster: the free sentinel or the end sentinel. -/
def isInvalidClusterNum (n : Nat) : Bool := n < 2 || 0xFFF7 ≤ n

def isFreeClusterNum (n : Nat) : Bool := n < 2

def isEndOfLlNum (n : Nat) : Bool := 0xFFF8 ≤ n

/-! ### The file allocation table -/

/-- The byte address of an entry, in the first table. -/
def fatAddress (clusterNumber : Nat) : Nat :=
  intU64 (vol.fatsStartSector * vol.bytesPerSector + 2 * clusterNumber)

def readFat (clusterNumber : Nat) : Except Halt Nat := do
  ensure (isInvalidClusterNum clusterNumber = false) .hcf
  return leVal (disk.read (fatAddress vol clusterNumber) 2)

def writeFat (clusterNumber value : Nat) : Except Halt Mem := do
  ensure (isInvalidClusterNum clusterNumber = false) .hcf
  return disk.write (fatAddress vol clusterNumber) (leBytes 2 value)

/-- `num_clusters`, a `uint16_t`. -/
def numClusters : Nat :=
  (((int32 (vol.numberOfSectorsPerFat * vol.bytesPerSector)).tdiv 2) % 2 ^ 16).toNat

/-- The search from `i` on, for `n` entries. -/
def findFree (i : Nat) : Nat → Except Halt Nat
  | 0 => .error .outOfClusters
  | n + 1 => do
    let entry ← readFat vol disk i
    if isFreeClusterNum entry then return i else findFree (i + 1) n

def findFreeClusterNumber : Except Halt Nat := findFree vol disk 2 (numClusters vol - 2)

/-- A fresh cluster, marked as the last of its list. -/
def allocateCluster : Except Halt (Nat × Mem) := do
  let fresh ← findFreeClusterNumber vol disk
  let disk ← writeFat vol disk fresh 0xFFF8
  return (fresh, disk)

/-! ### The root directory -/

/-- The checks on a request to the root directory. -/
def checkRootDir (requestedOffset numBytes : Nat) : Except Halt Unit := do
  -- offset and length are a number of directory entries
  ensure (requestedOffset % 32 = 0) .hcf
  ensure (numBytes % 32 = 0) .hcf
  ensure (u64 (requestedOffset + numBytes) <
    intU64 (vol.numberOfSectorsRootDirectory * vol.bytesPerSector)) .hcf

def writeToRootDir (requestedOffset : Nat) (inputBuf : List UInt8) : Except Halt Mem := do
  checkRootDir vol requestedOffset inputBuf.length
  return disk.write (u64 (rootDirStartByte vol + requestedOffset)) inputBuf

def readFromRootDir (requestedOffset numBytes : Nat) : Except Halt (List UInt8) := do
  checkRootDir vol requestedOffset numBytes
  return disk.read (u64 (rootDirStartByte vol + requestedOffset)) numBytes

/-! ### Cluster chains -/

/-- `src_addr` of a cluster, `start` bytes in. -/
def clusterAddress (clusterNumber start : Nat) : Nat :=
  u64 (calculateDataSectionStart vol + bytesPerCluster vol * (clusterNumber - 2) + start)

section

variable (requiredClusterNumber requiredOffsetInFirstCluster : Nat)

/-- Where the turn `i` starts in its cluster. -/
def startInCluster (i : Nat) : Nat :=
  if i = requiredClusterNumber then requiredOffsetInFirstCluster else 0

/-- The next cluster of a chain, added if there is none. -/
def nextOrAllocate (clusterNumber : Nat) : Except Halt (Nat × Mem) := do
  let next ← readFat vol disk clusterNumber
  if isEndOfLlNum next then
    let (fresh, disk) ← allocateCluster vol disk
    let disk ← writeFat vol disk clusterNumber fresh
    return (fresh, disk)
  else return (next, disk)

/-- The loop of `write_to_cluster_chain` in turn `i`, for at most `fuel` turns. -/
def writeClusters : Nat → Nat → Nat → List UInt8 → Mem → Except Halt Mem
  | _, _, _, [], disk => .ok disk
  | 0, _, _, _ :: _, _ => .error .endless
  | fuel + 1, i, clusterNumber, byte :: rest, disk => do
    let input := byte :: rest
    if requiredClusterNumber ≤ i then
      let start := startInCluster requiredClusterNumber requiredOffsetInFirstCluster i
      let available := bytesPerCluster vol - start
      let disk := disk.write (clusterAddress vol clusterNumber start) (input.take available)
      let (next, disk) ← nextOrAllocate vol disk clusterNumber
      writeClusters fuel (i + 1) next (input.drop available) disk
    else
      -- not yet at the first cluster to write
      let (next, disk) ← nextOrAllocate vol disk clusterNumber
      writeClusters fuel (i + 1) next input disk

/-- The loop of `read_from_cluster_chain` in turn `i`, for at most `fuel` turns. -/
def readClusters : Nat → Nat → Nat → Nat → Except Halt (List UInt8)
  | _, _, _, 0 => .ok []
  | 0, _, _, _ + 1 => .error .endless
  | fuel + 1, i, clusterNumber, left + 1 => do
    let numBytes := left + 1
    if requiredClusterNumber ≤ i then
      let start := startInCluster requiredClusterNumber requiredOffsetInFirstCluster i
      let n := min numBytes (bytesPerCluster vol - start)
      let bytes := disk.read (clusterAddress vol clusterNumber start) n
      let next ← readFat vol disk clusterNumber
      let rest ← readClusters fuel (i + 1) next (numBytes - n)
      return bytes ++ rest
    else
      let next ← readFat vol disk clusterNumber
      readClusters fuel (i + 1) next numBytes

end

/-- Write to a file or directory, allocating clusters as required.  A turn passes one
cluster or writes at least one byte, so the bound is never reached. -/
def writeToClusterChain (clusterNumber requestedOffset : Nat) (inputBuf : List UInt8) :
    Except Halt Mem := do
  ensure (bytesPerCluster vol ≠ 0) .divisionByZero
  let required := requestedOffset / bytesPerCluster vol
  ensure (isInvalidClusterNum clusterNumber = false) .hcf
  writeClusters vol required (requestedOffset % bytesPerCluster vol) (required + inputBuf.length)
    0 clusterNumber inputBuf disk

def readFromClusterChain (clusterNumber requestedOffset numBytes : Nat) :
    Except Halt (List UInt8) := do
  ensure (bytesPerCluster vol ≠ 0) .divisionByZero
  let required := requestedOffset / bytesPerCluster vol
  if numBytes = 0 then return [] else
  ensure (isInvalidClusterNum clusterNumber = false) .hcf
  readClusters vol disk required (requestedOffset % bytesPerCluster vol) (required + numBytes)
    0 clusterNumber numBytes

end Stuos.Fs.Fat
