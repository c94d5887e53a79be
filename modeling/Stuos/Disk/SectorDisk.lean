import Stuos.Fs.Dev
import Stuos.Lib.Lts

/-!
# What a driver is for

`fs_dev.c` takes a driver for an array of sectors: `block_read` gives the contents of a sector,
`block_write` replaces them.  `sectorDisk` says this as a transition system, to which the
drivers are compared; `bytes` and `ofBytes` go between a sector and its 512 bytes.
-/

namespace Stuos.Disk

open Stuos.Lib Stuos.Fs.Dev

/-- A request and its answer. -/
inductive SectorOp
  | read (sector : Nat) (data : Sector)
  | write (sector : Nat) (data : Sector)

def SectorOp.sector : SectorOp → Nat
  | .read sector _ => sector
  | .write sector _ => sector

/-- **An array of sectors.** -/
def sectorDisk : Lts (Nat → Sector) SectorOp where
  init _ := True
  step disk op disk' :=
    match op with
    | .read sector data => data = disk sector ∧ disk' = disk
    | .write sector data => disk' = Function.update disk sector data

/-- This is the disk that `fs_dev.c` reads and writes. -/
theorem sectorDisk_blockDevice (d : BlockDevice) (sector : Nat) (data : Sector) :
    sectorDisk.step d.disk (.read sector (d.blockRead sector)) d.disk ∧
    sectorDisk.step d.disk (.write sector data) (d.blockWrite sector data).disk :=
  ⟨⟨rfl, rfl⟩, rfl⟩

/-- The bytes of a sector. -/
def bytes (s : Sector) : List UInt8 := List.ofFn s

/-- The sector that a buffer holds. -/
def ofBytes (l : List UInt8) : Sector := fun i => l.getD i 0

@[simp] theorem bytes_length (s : Sector) : (bytes s).length = 512 := List.length_ofFn

@[simp] theorem ofBytes_bytes (s : Sector) : ofBytes (bytes s) = s := by
  funext i
  have hi : i.val < (bytes s).length := by
    rw [bytes_length]
    exact i.isLt
  rw [ofBytes, List.getD_eq_getElem _ _ hi]
  exact List.getElem_ofFn hi

theorem bytes_injective {s s' : Sector} (h : bytes s = bytes s') : s = s' := by
  rw [← ofBytes_bytes s, h, ofBytes_bytes]

/-- The sector that holds the byte 7 everywhere. -/
def sevens : Sector := fun _ => 7

end Stuos.Disk
