import Mathlib.Data.List.GetD
import Stuos.Fs.VNode
import Stuos.Lib.Bytes
import Stuos.Lib.Halt

/-!
# Block devices

`fs_dev.c`: block devices with their partitions and a one-sector cache.  A driver
is the disk behind `block_read` and `block_write`: a sector of 512 bytes for each
sector number.

The inner `while` of a read or a write moves one byte at a time between the caller
and a sector buffer.  `fill` and `drain` are those loops, walking the caller's side
as a list.
-/

namespace Stuos.Fs.Dev

open Stuos.Lib

abbrev blockDeviceReadSize : Nat := 512
def maxBlockDevices : Nat := 26

/-- `DEV_ROOT_DIR_INODE_NUM`. -/
def devRootDirInodeNum : Nat := 2 ^ 64 - 1

/-- `uint8_t [BLOCK_DEVICE_READ_SIZE]`. -/
abbrev Sector := Fin 512 → UInt8

/-- `struct SectorCache`. -/
structure SectorCache where
  data : Sector
  sectorNumber : Nat
  isValid : Bool

/-- `struct BlockDevicePartition`. -/
structure BlockDevicePartition where
  byteOffset : Nat
  byteLength : Nat
  deriving DecidableEq, Repr

/-- `struct BlockDevice`, with the disk its driver reads and writes. -/
structure BlockDevice where
  disk : Nat → Sector
  cache : SectorCache
  partitions : List BlockDevicePartition

/-- The only way to stop here is an `HCF`. -/
inductive Halt
  | hcf
  deriving DecidableEq, Repr

def BlockDevice.blockRead (d : BlockDevice) (sector : Nat) : Sector := d.disk sector

def BlockDevice.blockWrite (d : BlockDevice) (sector : Nat) (data : Sector) : BlockDevice :=
  { d with disk := Function.update d.disk sector data }

/-! ### Adding a device -/

/-- The `k`-byte number at offset `i` of a sector. -/
def Sector.le (s : Sector) (i k : Nat) : Nat :=
  leVal ((List.range k).map fun j => if h : i + j < 512 then s ⟨i + j, h⟩ else 0)

/-- The loop over the four primary entries of a master boot record: up to the
first entry without sectors.  The products are `uint32_t`. -/
def mbrPartitions (mbr : Sector) : List Nat → List BlockDevicePartition
  | [] => []
  | i :: rest =>
    let lbaPartitionStart := mbr.le (446 + 16 * i + 8) 4
    let partitionSectorCount := mbr.le (446 + 16 * i + 12) 4
    if partitionSectorCount = 0 then []
    else { byteOffset := lbaPartitionStart * blockDeviceReadSize % 2 ^ 32
           byteLength := partitionSectorCount * blockDeviceReadSize % 2 ^ 32 } ::
      mbrPartitions mbr rest

/-- `fs_dev_add_block_device`.  `garbage` is what `malloc` left in the cache's
block. -/
def fsDevAddBlockDevice (blockDevices : List BlockDevice) (disk : Nat → Sector)
    (garbage : Sector) : Except Halt (List BlockDevice) := do
  ensure (blockDevices.length ≠ maxBlockDevices) .hcf
  let mbr := disk 0
  let primary :=
    if mbr.le 510 2 = 0xAA55 then mbrPartitions mbr [0, 1, 2, 3] else []
  return blockDevices ++ [{
    disk := disk
    cache := { data := garbage, sectorNumber := 0, isValid := false }
    partitions := { byteOffset := 0, byteLength := 0 } :: primary }]

/-! ### Finding a device -/

/-- `get_block_device`: the device number and the partition. -/
def getBlockDevice (blockDevices : List BlockDevice) (id : VNodeData) :
    Except Halt (Nat × BlockDevice × BlockDevicePartition) := do
  ensure (id.mountId = 0) .hcf
  ensure (id.inode ≠ devRootDirInodeNum) .hcf
  let devNum := id.inode / 2 ^ 16 % 2 ^ 16
  let blk ← orHalt .hcf blockDevices[devNum]?
  let partNum := id.inode % 2 ^ 16
  let part ← orHalt .hcf blk.partitions[partNum]?
  return (devNum, blk, part)

/-! ### Reading and writing -/

/-- The inner loop of a write: overwrite the buffer from `off` on; also the bytes
that are left over. -/
def fill (data : Sector) (off : Nat) : List UInt8 → Sector × List UInt8
  | [] => (data, [])
  | b :: bs =>
    if h : off < 512 then fill (Function.update data ⟨off, h⟩ b) (off + 1) bs
    else (data, b :: bs)

/-- The inner loop of a read: up to `n` bytes of the buffer from `off` on; also how
many are still wanted. -/
def drain (data : Sector) (off : Nat) : Nat → List UInt8 × Nat
  | 0 => ([], 0)
  | n + 1 =>
    if h : off < 512 then
      let rest := drain data (off + 1) n
      (data ⟨off, h⟩ :: rest.1, rest.2)
    else ([], n + 1)

/-- The sector loop of `blockdev_write_file`, for `count` sectors. -/
def writeSectors (dev : BlockDevice) (sector offsetInSector : Nat) (input : List UInt8) :
    Nat → BlockDevice
  | 0 => dev
  | count + 1 =>
    let filled := fill (dev.blockRead sector) offsetInSector input
    let dev := dev.blockWrite sector filled.1
    writeSectors { dev with cache := { dev.cache with isValid := false } } (sector + 1) 0 filled.2
      count

/-- The sector, read into the cache if it is not already there. -/
def loadCache (dev : BlockDevice) (sector : Nat) : BlockDevice :=
  if dev.cache.sectorNumber ≠ sector ∨ dev.cache.isValid = false then
    { dev with cache :=
        { data := dev.blockRead sector, sectorNumber := sector, isValid := true } }
  else dev

/-- The sector loop of `blockdev_read_file`, for `count` sectors. -/
def readSectors (dev : BlockDevice) (sector offsetInSector numBytes : Nat) :
    Nat → BlockDevice × List UInt8
  | 0 => (dev, [])
  | count + 1 =>
    let dev := loadCache dev sector
    let drained := drain dev.cache.data offsetInSector numBytes
    let rest := readSectors dev (sector + 1) 0 drained.2 count
    (rest.1, drained.1 ++ rest.2)

/-- The number of sectors `for(sector = first; sector <= last; sector++)` visits. -/
def sectorCount (offset numBytes : Nat) : Nat :=
  u64 (offset + numBytes + (2 ^ 64 - 1)) / blockDeviceReadSize + 1 - offset / blockDeviceReadSize

def blockdevWriteFile (blockDevices : List BlockDevice) (id : VNodeData) (offset : Nat)
    (inputBuf : List UInt8) : Except Halt (List BlockDevice × Nat) := do
  let (devNum, dev, part) ← getBlockDevice blockDevices id
  let offset := u64 (offset + part.byteOffset)
  let dev := writeSectors dev (offset / blockDeviceReadSize) (offset % blockDeviceReadSize)
    inputBuf (sectorCount offset inputBuf.length)
  return (blockDevices.set devNum dev, inputBuf.length)

/-- `blockdev_read_file`, with the bytes it put into `output_buf`. -/
def blockdevReadFile (blockDevices : List BlockDevice) (id : VNodeData) (offset numBytes : Nat) :
    Except Halt (List BlockDevice × Nat × List UInt8) := do
  let (devNum, dev, part) ← getBlockDevice blockDevices id
  let offset := u64 (offset + part.byteOffset)
  let result := readSectors dev (offset / blockDeviceReadSize) (offset % blockDeviceReadSize)
    numBytes (sectorCount offset numBytes)
  return (blockDevices.set devNum result.1, numBytes, result.2)

/-- `blockdev_stat`: the mode and the size. -/
def blockdevStat (blockDevices : List BlockDevice) (id : VNodeData) : Except Halt (Nat × Nat) := do
  ensure (id.mountId = 0) .hcf
  ensure (id.inode ≠ devRootDirInodeNum) .hcf
  let (_, _, part) ← getBlockDevice blockDevices id
  return (sIfblk, part.byteLength)

end Stuos.Fs.Dev
