import Stuos.Fs.Partitions

/-!
# The partitions of a boot record

`fs_dev_add_block_device` makes partitions of the four primary entries of a master boot record.  It
stops at the first entry without sectors, and it multiplies sector numbers by 512 in 32 bits.

* `exactPartitions`: the partitions that the record describes.
* `mbr_parsing_exact_iff`: those are what is exposed, byte for byte, exactly if no entry with
  sectors is behind one without, and none is at or has 2²³ sectors or more.
-/

namespace Stuos.Fs.Dev

open Stuos.Lib

section

variable (mbr : Sector) (i : Nat)

/-- `partition_table[i].lba_partition_start`. -/
def lbaPartitionStart : Nat := mbr.le (446 + 16 * i + 8) 4

/-- `partition_table[i].partition_sector_count`. -/
def partitionSectorCount : Nat := mbr.le (446 + 16 * i + 12) 4

/-- The partition that an entry describes. -/
def exactPartition : BlockDevicePartition where
  byteOffset := 512 * lbaPartitionStart mbr i
  byteLength := 512 * partitionSectorCount mbr i

end

/-- One partition for each entry with sectors, wherever it is. -/
def exactPartitions (mbr : Sector) (entries : List Nat) : List BlockDevicePartition :=
  (entries.filter fun i => partitionSectorCount mbr i ≠ 0).map (exactPartition mbr)

/-- Partition `part` of a device, found under the inode, is the bytes of the disk that it says. -/
def ReadsAndWrites (devs : List BlockDevice) (disk : Nat → Sector) (inode : Nat)
    (part : BlockDevicePartition) : Prop :=
  ∀ k < part.byteLength,
    (∃ devs', blockdevReadFile devs ⟨inode, 0⟩ k 1 =
      .ok (devs', 1, [diskBytes disk (part.byteOffset + k)])) ∧
    ∀ b, ∃ devs', blockdevWriteFile devs ⟨inode, 0⟩ k [b] = .ok (devs', 1) ∧
      initialBytes devs' (inode / 2 ^ 16) = (diskBytes disk).write (part.byteOffset + k) [b]

/-- The device at `devNum` has the whole disk as partition 0, and the partitions of its boot record
behind it. -/
structure MbrExact (disk : Nat → Sector) (devNum : Nat) (devs : List BlockDevice) : Prop where
  partitions : (devs[devNum]?.map BlockDevice.partitions) =
    some (⟨0, 0⟩ :: exactPartitions (disk 0) [0, 1, 2, 3])
  bytes : ∀ j part, (exactPartitions (disk 0) [0, 1, 2, 3])[j]? = some part →
    ReadsAndWrites devs disk (devNum * 2 ^ 16 + (j + 1)) part

/-! ### The loop over the entries -/

theorem partition_exact_iff (mbr : Sector) (i : Nat) :
    (⟨lbaPartitionStart mbr i * 512 % 2 ^ 32, partitionSectorCount mbr i * 512 % 2 ^ 32⟩ :
      BlockDevicePartition) = exactPartition mbr i ↔
      lbaPartitionStart mbr i < 2 ^ 23 ∧ partitionSectorCount mbr i < 2 ^ 23 := by
  rw [exactPartition, BlockDevicePartition.mk.injEq]
  omega

theorem exactPartitions_eq_nil {mbr : Sector} {l : List Nat} :
    exactPartitions mbr l = [] ↔ ∀ i ∈ l, partitionSectorCount mbr i = 0 := by
  rw [exactPartitions, List.map_eq_nil_iff, List.filter_eq_nil_iff]
  simp

/-- **When the loop is exact.** -/
theorem mbrPartitions_eq_iff (mbr : Sector) (l : List Nat) :
    mbrPartitions mbr l = exactPartitions mbr l ↔
      l.Pairwise (fun i j => partitionSectorCount mbr i = 0 → partitionSectorCount mbr j = 0) ∧
      ∀ i ∈ l, partitionSectorCount mbr i ≠ 0 →
        lbaPartitionStart mbr i < 2 ^ 23 ∧ partitionSectorCount mbr i < 2 ^ 23 := by
  induction l with
  | nil => exact ⟨fun _ => ⟨.nil, fun i hi => absurd hi List.not_mem_nil⟩, fun _ => rfl⟩
  | cons i l ih =>
    have hturn : mbrPartitions mbr (i :: l) = if partitionSectorCount mbr i = 0 then []
        else ⟨lbaPartitionStart mbr i * 512 % 2 ^ 32, partitionSectorCount mbr i * 512 % 2 ^ 32⟩ ::
          mbrPartitions mbr l := rfl
    rw [hturn, List.pairwise_cons, List.forall_mem_cons]
    by_cases h0 : partitionSectorCount mbr i = 0
    · -- the loop ends here
      have hexact : exactPartitions mbr (i :: l) = exactPartitions mbr l := by
        simp [exactPartitions, h0]
      rw [if_pos h0, hexact, eq_comm, exactPartitions_eq_nil]
      constructor
      · intro hzero
        refine ⟨⟨fun j hj _ => hzero j hj, ?_⟩, fun hne => absurd h0 hne, fun j hj hne =>
          absurd (hzero j hj) hne⟩
        exact List.pairwise_iff_getElem.mpr fun j k _ hk _ _ => hzero _ (List.getElem_mem hk)
      · rintro ⟨⟨hzero, -⟩, -⟩
        exact fun j hj => hzero j hj h0
    · have hexact : exactPartitions mbr (i :: l) = exactPartition mbr i :: exactPartitions mbr l := by
        simp [exactPartitions, h0]
      rw [if_neg h0, hexact, List.cons.injEq, partition_exact_iff, ih]
      constructor
      · rintro ⟨hsmall, hpair, hrest⟩
        exact ⟨⟨fun j _ hz => absurd hz h0, hpair⟩, fun _ => hsmall, hrest⟩
      · rintro ⟨⟨-, hpair⟩, hsmall, hrest⟩
        exact ⟨hsmall h0, hpair, hrest⟩

/-! ### The device -/

section

variable {devs devs' : List BlockDevice} {disk : Nat → Sector} {garbage : Sector}

/-- The device that is added. -/
def addedDevice (disk : Nat → Sector) (garbage : Sector) : BlockDevice where
  disk := disk
  cache := { data := garbage, sectorNumber := 0, isValid := false }
  partitions := ⟨0, 0⟩ :: mbrPartitions (disk 0) [0, 1, 2, 3]

theorem fsDevAddBlockDevice_mbr (hadd : fsDevAddBlockDevice devs disk garbage = .ok devs')
    (hsig : (disk 0).le 510 2 = 0xAA55) :
    devs.length ≠ maxBlockDevices ∧ devs' = devs ++ [addedDevice disk garbage] := by
  simp only [fsDevAddBlockDevice, bind_eq_ok, ensure_eq_ok, pure_eq_ok, Except.ok.injEq, hsig,
    if_true] at hadd
  obtain ⟨-, hlen, hadd⟩ := hadd
  exact ⟨hlen, hadd.symm⟩

theorem getBlockDevice_added (hlen : devs.length < 2 ^ 15) {j : Nat} (hj : j < 2 ^ 16)
    {part : BlockDevicePartition} (hpart : (addedDevice disk garbage).partitions[j]? = some part) :
    getBlockDevice (devs ++ [addedDevice disk garbage]) ⟨devs.length * 2 ^ 16 + j, 0⟩ =
      .ok (devs.length, addedDevice disk garbage, part) := by
  have hdev : (devs.length * 2 ^ 16 + j) / 2 ^ 16 % 2 ^ 16 = devs.length := by omega
  have hnum : (devs.length * 2 ^ 16 + j) % 2 ^ 16 = j := by omega
  have hroot : devs.length * 2 ^ 16 + j ≠ devRootDirInodeNum := by
    unfold devRootDirInodeNum
    omega
  have hlast : (devs ++ [addedDevice disk garbage])[devs.length]? =
      some (addedDevice disk garbage) := by
    rw [List.getElem?_append_right (Nat.le_refl _), Nat.sub_self]
    rfl
  rw [getBlockDevice, ensure_of rfl, ok_bind, ensure_of hroot, ok_bind]
  simp only [hdev, hnum, hlast, orHalt, ok_bind, hpart]
  rfl

/-- **The bytes of a partition** are where it says they are. -/
theorem readsAndWrites_added (hlen : devs.length < 2 ^ 15) {j : Nat} (hj : j < 2 ^ 16)
    {part : BlockDevicePartition} (hpart : (addedDevice disk garbage).partitions[j]? = some part)
    (hlt : part.byteOffset + part.byteLength < 2 ^ 63) :
    ReadsAndWrites (devs ++ [addedDevice disk garbage]) disk (devs.length * 2 ^ 16 + j) part := by
  have hg := getBlockDevice_added hlen hj hpart
  have hbytes : initialBytes (devs ++ [addedDevice disk garbage]) devs.length = diskBytes disk :=
    initialBytes_of_getElem? (getBlockDevice_eq_ok hg).2
  have hnum : (devs.length * 2 ^ 16 + j) / 2 ^ 16 = devs.length := by omega
  intro k hk
  have hu : u64 (k + part.byteOffset) = part.byteOffset + k := by
    rw [u64_of_lt (by omega), Nat.add_comm]
  have hspan : span (part.byteOffset + k) 1 = 1 := span_of_le (Nat.le_refl 1) (by decide) (by omega)
  constructor
  · obtain ⟨devs', hread⟩ := blockdevReadFile_span hg (fun h => by cases h) k 1
    rw [hu, hspan, hbytes] at hread
    exact ⟨devs', hread⟩
  · intro b
    obtain ⟨devs', hwrite, hall⟩ := blockdevWriteFile_span hg k [b]
    refine ⟨devs', hwrite, ?_⟩
    rw [hnum, hall, if_pos rfl, hu, List.length_singleton, hspan, hbytes]
    rfl

theorem Attached.length_le (h : Attached devs) : devs.length ≤ maxBlockDevices := by
  induction h with
  | none => exact Nat.zero_le _
  | add _ hadd ih =>
    simp only [fsDevAddBlockDevice, bind_eq_ok, ensure_eq_ok, pure_eq_ok, Except.ok.injEq] at hadd
    obtain ⟨-, hne, rfl⟩ := hadd
    rw [List.length_append, List.length_singleton]
    omega
  | @step devs devs' op _ hstep ih =>
    cases op with
    | read id offset n bytes =>
      have hread : blockdevReadFile devs id offset n = .ok (devs', n, bytes) := hstep
      simp only [blockdevReadFile, bind_eq_ok, pure_eq_ok, Except.ok.injEq, Prod.mk.injEq] at hread
      obtain ⟨⟨k, dev, part⟩, -, rfl, -, -⟩ := hread
      rwa [List.length_set]
    | write id offset bytes =>
      have hwrite : blockdevWriteFile devs id offset bytes = .ok (devs', bytes.length) := hstep
      simp only [blockdevWriteFile, bind_eq_ok, pure_eq_ok, Except.ok.injEq, Prod.mk.injEq] at hwrite
      obtain ⟨⟨k, dev, part⟩, -, rfl, -⟩ := hwrite
      rwa [List.length_set]

theorem exactPartition_lt (mbr : Sector) (i : Nat) :
    (exactPartition mbr i).byteOffset + (exactPartition mbr i).byteLength < 2 ^ 63 := by
  have hle : ∀ a, mbr.le a 4 < 256 ^ 4 := by
    intro a
    have h := leVal_lt ((List.range 4).map fun j => if h : a + j < 512 then mbr ⟨a + j, h⟩ else 0)
    rwa [List.length_map, List.length_range] at h
  have hlba : lbaPartitionStart mbr i < 256 ^ 4 := hle _
  have hcount : partitionSectorCount mbr i < 256 ^ 4 := hle _
  show 512 * lbaPartitionStart mbr i + 512 * partitionSectorCount mbr i < 2 ^ 63
  omega

theorem pairwise_four {R : Nat → Nat → Prop} :
    [0, 1, 2, 3].Pairwise R ↔ ∀ i j, i < j → j < 4 → R i j := by
  constructor
  · intro h i j hij hj
    simp only [List.pairwise_cons, List.mem_cons, List.not_mem_nil, or_false] at h
    obtain ⟨h0, h1, h2, -⟩ := h
    obtain rfl | rfl | rfl : i = 0 ∨ i = 1 ∨ i = 2 := by omega
    · exact h0 j (by omega)
    · exact h1 j (by omega)
    · exact h2 j (by omega)
  · intro h
    refine List.pairwise_iff_getElem.mpr fun i j hi hj hij => ?_
    have hsame : ∀ k (hk : k < [0, 1, 2, 3].length), [0, 1, 2, 3][k] = k := by decide
    rw [hsame, hsame]
    exact h i j hij hj

/-- **When the boot record is parsed exactly.** -/
theorem mbr_parsing_exact_iff (hdevs : Attached devs)
    (hadd : fsDevAddBlockDevice devs disk garbage = .ok devs')
    (hsig : (disk 0).le 510 2 = 0xAA55) :
    MbrExact disk devs.length devs' ↔
      (∀ i j, i < j → j < 4 → partitionSectorCount (disk 0) i = 0 →
        partitionSectorCount (disk 0) j = 0) ∧
      ∀ i < 4, partitionSectorCount (disk 0) i ≠ 0 →
        lbaPartitionStart (disk 0) i < 2 ^ 23 ∧ partitionSectorCount (disk 0) i < 2 ^ 23 := by
  have hlen : devs.length < 2 ^ 15 := Nat.lt_of_le_of_lt hdevs.length_le (by decide)
  obtain ⟨-, rfl⟩ := fsDevAddBlockDevice_mbr hadd hsig
  have hlast : ((devs ++ [addedDevice disk garbage])[devs.length]?.map BlockDevice.partitions) =
      some (⟨0, 0⟩ :: mbrPartitions (disk 0) [0, 1, 2, 3]) := by
    rw [List.getElem?_append_right (Nat.le_refl _), Nat.sub_self]
    rfl
  have hloop := mbrPartitions_eq_iff (disk 0) [0, 1, 2, 3]
  rw [pairwise_four] at hloop
  have hfour : (∀ i ∈ [0, 1, 2, 3], partitionSectorCount (disk 0) i ≠ 0 →
      lbaPartitionStart (disk 0) i < 2 ^ 23 ∧ partitionSectorCount (disk 0) i < 2 ^ 23) ↔
      ∀ i < 4, partitionSectorCount (disk 0) i ≠ 0 →
        lbaPartitionStart (disk 0) i < 2 ^ 23 ∧ partitionSectorCount (disk 0) i < 2 ^ 23 := by
    have hmem : ∀ i, i ∈ [0, 1, 2, 3] ↔ i < 4 := by
      intro i
      simp only [List.mem_cons, List.not_mem_nil, or_false]
      omega
    simp only [hmem]
  rw [hfour] at hloop
  rw [← hloop]
  constructor
  · intro h
    have heq := hlast.symm.trans h.partitions
    simpa using heq
  · intro heq
    have hexact : (addedDevice disk garbage).partitions =
        ⟨0, 0⟩ :: exactPartitions (disk 0) [0, 1, 2, 3] := by rw [← heq]; rfl
    refine ⟨by rw [hlast, heq], fun j part hpart => ?_⟩
    have hj : j < 4 := by
      have hlt := (List.getElem?_eq_some_iff.mp hpart).1
      rw [exactPartitions, List.length_map] at hlt
      exact Nat.lt_of_lt_of_le hlt (List.length_filter_le _ _)
    obtain ⟨i, -, rfl⟩ := List.mem_map.mp (List.mem_of_getElem? hpart)
    exact readsAndWrites_added hlen (by omega) (by rw [hexact]; exact hpart)
      (exactPartition_lt (disk 0) i)

end

/-- A boot record with one partition, of sector 1. -/
theorem mbr_parsing_exact_small :
    fsDevAddBlockDevice [] smallDisk (fun _ => 0) = .ok [smallDevice] ∧
      MbrExact smallDisk 0 [smallDevice] := by
  refine ⟨smallDevice_added,
    (mbr_parsing_exact_iff .none smallDevice_added (by decide)).mpr ⟨?_, ?_⟩⟩
  · intro i j hij hj
    have h4 : ∀ j < 4, ∀ i < j, partitionSectorCount (smallDisk 0) i = 0 →
        partitionSectorCount (smallDisk 0) j = 0 := by decide
    exact h4 j hj i hij
  · decide

/-- A boot record with one partition, of sector 1, in its second entry, and one whose only partition
starts at sector 2²³. -/
def gapMbr : Sector := fun i =>
  if i.val = 470 ∨ i.val = 474 then 1
  else if i.val = 510 then 0x55 else if i.val = 511 then 0xAA else 0

def farMbr : Sector := fun i =>
  if i.val = 456 then 128 else if i.val = 458 then 1
  else if i.val = 510 then 0x55 else if i.val = 511 then 0xAA else 0

/-- The partition in the second entry is not exposed, and the one at sector 2²³ starts at byte 0. -/
theorem mbr_parsing_slips :
    gapMbr.le 510 2 = 0xAA55 ∧ exactPartitions gapMbr [0, 1, 2, 3] = [⟨512, 512⟩] ∧
      (fsDevAddBlockDevice [] (fun _ => gapMbr) (fun _ => 0)).map
        (List.map BlockDevice.partitions) = .ok [[⟨0, 0⟩]] ∧
      farMbr.le 510 2 = 0xAA55 ∧ exactPartitions farMbr [0, 1, 2, 3] = [⟨2 ^ 32, 512⟩] ∧
      (fsDevAddBlockDevice [] (fun _ => farMbr) (fun _ => 0)).map
        (List.map BlockDevice.partitions) = .ok [[⟨0, 0⟩, ⟨0, 512⟩]] := by
  refine ⟨?_, ?_, ?_, ?_, ?_, ?_⟩ <;> decide

end Stuos.Fs.Dev
