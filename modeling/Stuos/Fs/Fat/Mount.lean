import Stuos.Fs.Fat.Dirent
import Stuos.Fs.Fat.View

/-!
# Mounting

`mount_fat16` up to the entry in `all_fat_mounts`: the boot sector is checked and the
volume recorded.  The layout of a volume is computed in four places with different widths:
`calculate_data_section_start` adds sectors in 16 bits, the others in an `int`.

* `mount_geometry_iff`: the recorded volume can be used, and its areas are where the four
  places agree they are, exactly when the boot sector has clusters and tables, and the sectors
  before the data fit into 16 bits and their bytes into an `int`.
* `mount_overlays_fat`: a boot sector with two large tables is accepted, and the clusters are
  laid over the tables.
-/

namespace Stuos.Fs.Fat

open Stuos.Lib

def maxFatMounts : Nat := 10

/-- The fields of `struct Fat16Header` that `mount_fat16` looks at. -/
structure Fat16Header where
  bytesPerSector : Nat
  sectorsPerCluster : Nat
  reservedSectors : Nat
  fileAllocationTablesCount : Nat
  numberOfRootDirectoryEntries : Nat
  numberOfSectors : Nat
  numberOfSectorsPerFat : Nat
  largeSectorCount : Nat
  signature : Nat
  bootablePartitionSignature : Nat
  deriving DecidableEq, Repr

/-- The header at the start of a block device. -/
def readHeader (disk : Mem) : Fat16Header where
  bytesPerSector := leVal (disk.read 11 2)
  sectorsPerCluster := leVal (disk.read 13 1)
  reservedSectors := leVal (disk.read 14 2)
  fileAllocationTablesCount := leVal (disk.read 16 1)
  numberOfRootDirectoryEntries := leVal (disk.read 17 2)
  numberOfSectors := leVal (disk.read 19 2)
  numberOfSectorsPerFat := leVal (disk.read 22 2)
  largeSectorCount := leVal (disk.read 32 4)
  signature := leVal (disk.read 38 1)
  bootablePartitionSignature := leVal (disk.read 510 2)

/-- The sectors of the root directory, rounded up, in 16 bits. -/
def Fat16Header.rootDirSectors (hdr : Fat16Header) : Nat :=
  (hdr.numberOfRootDirectoryEntries * 32 + hdr.bytesPerSector - 1) / hdr.bytesPerSector % 2 ^ 16

/-- The volume that is recorded. -/
def Fat16Header.volume (hdr : Fat16Header) : Fat16Volume where
  -- all the FATs start after the reserved sectors
  fatsStartSector := hdr.reservedSectors
  numberOfFats := hdr.fileAllocationTablesCount
  numberOfSectorsPerFat := hdr.numberOfSectorsPerFat
  bytesPerSector := hdr.bytesPerSector
  sectorsPerCluster := hdr.sectorsPerCluster
  numberOfSectorsRootDirectory := hdr.rootDirSectors

/-- `mount_fat16`, with `all_fat_mounts` before and after: the mount and the inode of its
root. -/
def mountFat16 (allFatMounts : List Fat16Volume) (disk : Mem) :
    Except Halt (Nat × Nat × List Fat16Volume) := do
  let hdr := readHeader disk
  ensure (¬ hdr.reservedSectors < 1) .hcf
  ensure (¬ hdr.numberOfRootDirectoryEntries < 1) .hcf
  ensure (¬ (hdr.numberOfSectors = 0 ∧ hdr.largeSectorCount = 0)) .hcf
  ensure (¬ hdr.numberOfSectorsPerFat < 1) .hcf
  ensure (¬ (hdr.signature ≠ 0x28 ∧ hdr.signature ≠ 0x29)) .hcf
  ensure (hdr.bootablePartitionSignature = 0xAA55) .hcf
  -- the first slot that does not read as occupied
  let mountId ← orHalt .hcf (allFatMounts.findIdx? fun vol => vol.numberOfFats == 0)
  -- the root directory is divided into sectors
  ensure (hdr.bytesPerSector ≠ 0) .divisionByZero
  let inode ← makeInode iAmRootDir 0
  return (mountId, inode, allFatMounts.set mountId hdr.volume)

/-! ### The areas -/

section

variable (vol : Fat16Volume)

/-- The address is in one of the file allocation tables. -/
def InFatArea (a : Nat) : Prop :=
  fatAddress vol 0 ≤ a ∧
    a < fatAddress vol 0 + vol.numberOfFats * vol.numberOfSectorsPerFat * vol.bytesPerSector

/-- The address is in the root directory, as `write_to_root_dir` places it. -/
def InRootArea (a : Nat) : Prop :=
  rootDirStartByte vol ≤ a ∧
    a < rootDirStartByte vol + vol.numberOfSectorsRootDirectory * vol.bytesPerSector

/-- The address is in the clusters, as `write_to_cluster_chain` places them. -/
def InDataArea (a : Nat) : Prop := calculateDataSectionStart vol ≤ a

/-- A volume that can be used: it has sectors, clusters and tables, the data section starts
where the sectors before it end, and the three areas are disjoint. -/
structure Usable : Prop where
  bytesPerSector : vol.bytesPerSector ≠ 0
  sectorsPerCluster : vol.sectorsPerCluster ≠ 0
  numberOfFats : vol.numberOfFats ≠ 0
  dataSection : calculateDataSectionStart vol =
    (vol.fatsStartSector + vol.numberOfFats * vol.numberOfSectorsPerFat +
      vol.numberOfSectorsRootDirectory) * vol.bytesPerSector
  fatRoot : ∀ a, ¬ (InFatArea vol a ∧ InRootArea vol a)
  fatData : ∀ a, ¬ (InFatArea vol a ∧ InDataArea vol a)
  rootData : ∀ a, ¬ (InRootArea vol a ∧ InDataArea vol a)

end

/-- The sectors before the data section. -/
def Fat16Header.sectorsBeforeData (hdr : Fat16Header) : Nat :=
  hdr.reservedSectors + hdr.fileAllocationTablesCount * hdr.numberOfSectorsPerFat +
    hdr.rootDirSectors

/-- The boot sector has clusters and tables, and the sectors before the data fit. -/
structure Fat16Header.Fits (hdr : Fat16Header) : Prop where
  clusters : hdr.sectorsPerCluster ≠ 0
  tables : hdr.fileAllocationTablesCount ≠ 0
  sectors : hdr.sectorsBeforeData < 2 ^ 16
  bytes : hdr.sectorsBeforeData * hdr.bytesPerSector < 2 ^ 31

/-! ### What is recorded -/

/-- The fields have their widths. -/
structure Fat16Header.Widths (hdr : Fat16Header) : Prop where
  bytesPerSector : hdr.bytesPerSector < 2 ^ 16
  reservedSectors : hdr.reservedSectors < 2 ^ 16
  tables : hdr.fileAllocationTablesCount < 2 ^ 8
  numberOfSectorsPerFat : hdr.numberOfSectorsPerFat < 2 ^ 16

theorem leVal_read_lt (disk : Mem) (a k : Nat) : leVal (disk.read a k) < 256 ^ k := by
  have h := leVal_lt (disk.read a k)
  rwa [Mem.read_length] at h

theorem readHeader_widths (disk : Mem) : (readHeader disk).Widths where
  bytesPerSector := leVal_read_lt disk 11 2
  reservedSectors := leVal_read_lt disk 14 2
  tables := leVal_read_lt disk 16 1
  numberOfSectorsPerFat := leVal_read_lt disk 22 2

theorem mountFat16_eq_ok {mounts mounts' : List Fat16Volume} {disk : Mem} {mountId inode : Nat}
    (h : mountFat16 mounts disk = .ok (mountId, inode, mounts')) :
    (readHeader disk).bytesPerSector ≠ 0 ∧ mounts'[mountId]? = some (readHeader disk).volume := by
  simp only [mountFat16, bind_eq_ok, ensure_eq_ok, orHalt_eq_ok, pure_eq_ok, Except.ok.injEq,
    Prod.mk.injEq, exists_const] at h
  obtain ⟨-, -, -, -, -, -, mountId', hfind, hbps, -, -, rfl, -, rfl⟩ := h
  obtain ⟨hlt, -⟩ := List.findIdx?_eq_some_iff_getElem.mp hfind
  exact ⟨hbps, List.getElem?_set_self hlt⟩

theorem intU64_of_ge {n : Nat} (h1 : 2 ^ 31 ≤ n) (h2 : n < 2 ^ 32) :
    intU64 n = n + 2 ^ 64 - 2 ^ 32 := by
  unfold intU64 int32
  have hb : ((n : Int).bmod (2 ^ 32)) = (n : Int) - 2 ^ 32 := by
    rw [Int.bmod_def]
    omega
  rw [hb]
  omega

/-- **The data section starts where it should** exactly if the sectors before it fit. -/
theorem dataSection_iff {hdr : Fat16Header} (hw : hdr.Widths) (hbps : hdr.bytesPerSector ≠ 0) :
    calculateDataSectionStart hdr.volume = hdr.sectorsBeforeData * hdr.bytesPerSector ↔
      hdr.sectorsBeforeData < 2 ^ 16 ∧ hdr.sectorsBeforeData * hdr.bytesPerSector < 2 ^ 31 := by
  have hstart : calculateDataSectionStart hdr.volume =
      intU64 (hdr.sectorsBeforeData % 2 ^ 16 * hdr.bytesPerSector) := rfl
  have hb := hw.bytesPerSector
  have hroot : hdr.rootDirSectors < 2 ^ 16 := Nat.mod_lt _ (by decide)
  have htables : hdr.fileAllocationTablesCount * hdr.numberOfSectorsPerFat ≤ 2 ^ 8 * 2 ^ 16 :=
    Nat.mul_le_mul (Nat.le_of_lt hw.tables) (Nat.le_of_lt hw.numberOfSectorsPerFat)
  have hsectors : hdr.sectorsBeforeData ≤ 2 ^ 25 := by
    have := hw.reservedSectors
    unfold Fat16Header.sectorsBeforeData
    omega
  have hexact : hdr.sectorsBeforeData * hdr.bytesPerSector ≤ 2 ^ 25 * 2 ^ 16 :=
    Nat.mul_le_mul hsectors (Nat.le_of_lt hb)
  have hmod : hdr.sectorsBeforeData % 2 ^ 16 * hdr.bytesPerSector < 2 ^ 16 * 2 ^ 16 :=
    Nat.mul_lt_mul'' (Nat.mod_lt _ (by decide)) hb
  rw [hstart]
  constructor
  · intro heq
    by_cases hlt : hdr.sectorsBeforeData % 2 ^ 16 * hdr.bytesPerSector < 2 ^ 31
    · rw [intU64_of_lt hlt] at heq
      have hsame := Nat.eq_of_mul_eq_mul_right (Nat.pos_of_ne_zero hbps) heq
      rw [← hsame]
      exact ⟨Nat.mod_lt _ (by decide), hlt⟩
    · rw [intU64_of_ge (by omega) hmod] at heq
      omega
  · rintro ⟨hs, hbytes⟩
    rw [Nat.mod_eq_of_lt hs, intU64_of_lt hbytes]

theorem Fat16Header.Fits.areas {hdr : Fat16Header} (h : hdr.Fits) :
    fatAddress hdr.volume 0 = hdr.reservedSectors * hdr.bytesPerSector ∧
      rootDirStartByte hdr.volume = (hdr.reservedSectors +
        hdr.fileAllocationTablesCount * hdr.numberOfSectorsPerFat) * hdr.bytesPerSector := by
  have hbytes := h.bytes
  have hle1 : hdr.reservedSectors * hdr.bytesPerSector ≤
      hdr.sectorsBeforeData * hdr.bytesPerSector := by
    apply Nat.mul_le_mul_right
    unfold Fat16Header.sectorsBeforeData
    omega
  have hle2 : (hdr.reservedSectors + hdr.fileAllocationTablesCount * hdr.numberOfSectorsPerFat) *
      hdr.bytesPerSector ≤ hdr.sectorsBeforeData * hdr.bytesPerSector := by
    apply Nat.mul_le_mul_right
    unfold Fat16Header.sectorsBeforeData
    omega
  constructor
  · show intU64 (hdr.reservedSectors * hdr.bytesPerSector + 2 * 0) = _
    rw [Nat.mul_zero, Nat.add_zero, intU64_of_lt (by omega)]
  · show intU64 ((hdr.reservedSectors +
      hdr.numberOfSectorsPerFat * hdr.fileAllocationTablesCount) * hdr.bytesPerSector) = _
    rw [Nat.mul_comm hdr.numberOfSectorsPerFat, intU64_of_lt (by omega)]

/-- **The geometry of a mounted volume.** -/
theorem mount_geometry_iff {mounts mounts' : List Fat16Volume} {disk : Mem} {mountId inode : Nat}
    (h : mountFat16 mounts disk = .ok (mountId, inode, mounts')) :
    ∃ vol, mounts'[mountId]? = some vol ∧ (Usable vol ↔ (readHeader disk).Fits) := by
  obtain ⟨hbps, hvol⟩ := mountFat16_eq_ok h
  have hw := readHeader_widths disk
  refine ⟨_, hvol, ?_⟩
  generalize readHeader disk = hdr at hbps hw ⊢
  have hdata := dataSection_iff hw hbps
  constructor
  · intro hu
    obtain ⟨hs, hb⟩ := hdata.mp hu.dataSection
    exact ⟨hu.sectorsPerCluster, hu.numberOfFats, hs, hb⟩
  · intro hf
    have hstart := hdata.mpr ⟨hf.sectors, hf.bytes⟩
    obtain ⟨hfat, hroot⟩ := hf.areas
    -- the areas follow each other
    have hend1 : fatAddress hdr.volume 0 +
        hdr.fileAllocationTablesCount * hdr.numberOfSectorsPerFat * hdr.bytesPerSector =
          rootDirStartByte hdr.volume := by
      rw [hfat, hroot, Nat.add_mul]
    have hend2 : rootDirStartByte hdr.volume + hdr.rootDirSectors * hdr.bytesPerSector =
        calculateDataSectionStart hdr.volume := by
      rw [hroot, hstart, ← Nat.add_mul]
      rfl
    refine ⟨hbps, hf.clusters, hf.tables, hstart, ?_, ?_, ?_⟩
    · rintro a ⟨⟨-, h1⟩, h2, -⟩
      exact absurd h1 (Nat.not_lt.mpr (hend1 ▸ h2))
    · rintro a ⟨⟨-, h1⟩, h2⟩
      have h3 : rootDirStartByte hdr.volume ≤ a :=
        Nat.le_trans (Nat.le_trans (Nat.le_add_right _ _) (Nat.le_of_eq hend2)) h2
      exact absurd h1 (Nat.not_lt.mpr (hend1 ▸ h3))
    · rintro a ⟨⟨-, h1⟩, h2⟩
      exact absurd h1 (Nat.not_lt.mpr (hend2 ▸ h2))

/-! ### Two large tables -/

/-- A boot sector of sectors of 512 bytes, clusters of one sector, two tables and 16 entries in
the root directory. -/
def bootSector (sectorsPerFat : List UInt8) : Mem :=
  Mem.write (fun _ => 0) 11 ([0, 2, 1, 1, 0, 2, 16, 0, 255, 255, 0xF8] ++ sectorsPerFat)
    |>.write 38 [0x29] |>.write 510 [0x55, 0xAA]

/-- `all_fat_mounts` after boot. -/
def noMounts : List Fat16Volume := List.replicate maxFatMounts ⟨0, 0, 0, 0, 0, 0⟩

/-- The volume with tables of 16 sectors. -/
def smallVolume : Fat16Volume := ⟨1, 2, 16, 512, 1, 1⟩

theorem mount_geometry_small :
    mountFat16 noMounts (bootSector [16, 0]) = .ok (0, 1, noMounts.set 0 smallVolume) ∧
      ∃ vol, (noMounts.set 0 smallVolume)[0]? = some vol ∧
        (Usable vol ↔ (readHeader (bootSector [16, 0])).Fits) := by
  have h : mountFat16 noMounts (bootSector [16, 0]) = .ok (0, 1, noMounts.set 0 smallVolume) := by
    decide +kernel
  exact ⟨h, mount_geometry_iff h⟩

/-- The volume with tables of 32768 sectors. -/
def largeVolume : Fat16Volume := ⟨1, 2, 32768, 512, 1, 1⟩

/-- **Clusters over the tables.**  With two tables of 32768 sectors the data section is
computed to start at sector 2, inside the first table. -/
theorem mount_overlays_fat :
    mountFat16 noMounts (bootSector [0, 128]) = .ok (0, 1, noMounts.set 0 largeVolume) ∧
      calculateDataSectionStart largeVolume = 1024 ∧
      InFatArea largeVolume 1024 ∧ InDataArea largeVolume 1024 ∧ ¬ Usable largeVolume := by
  have hfat : InFatArea largeVolume 1024 := ⟨by decide, by decide⟩
  have hdata : InDataArea largeVolume 1024 := by
    show calculateDataSectionStart largeVolume ≤ 1024
    decide
  exact ⟨by decide +kernel, by decide, hfat, hdata, fun hu => hu.fatData 1024 ⟨hfat, hdata⟩⟩

end Stuos.Fs.Fat
