import Stuos.Fs.Fat.Mount
import Stuos.Fs.Fat.NameBuffers

/-!
# The end of the root directory

`write_to_root_dir` and `read_from_root_dir` refuse a request that reaches the end of the root
directory, not only one that goes past it, and they compute where a request ends in 64 bits.

* `rootRequest_iff`: a request is treated as it should be exactly if it does not end where the
  directory does, and its end does not come round to the front of the directory.
* `readDirentsLoop_places`: in a full root directory the loop of `read_dirents` looks at the entry
  behind each one that it stores, so the last two places are never listed.
-/

namespace Stuos.Fs.Fat

open Stuos.Lib
open Fat16DirectoryEntry

/-! ### Requests -/

section

variable (vol : Fat16Volume)

/-- The request is for whole directory entries, at least one. -/
def IsEntryRequest (offset n : Nat) : Prop := 32 ∣ offset ∧ 32 ∣ n ∧ 0 < n

/-- What is expected of a request to the root directory: entries inside it are written and read
back, and nothing outside it is. -/
structure RequestInBounds (offset n : Nat) : Prop where
  inside : IsEntryRequest offset n → offset + n ≤ rootBytes vol →
    ∀ (disk : Mem) (input : List UInt8), input.length = n →
      (∃ bytes, readFromRootDir vol disk offset n = .ok bytes) ∧
      ∃ disk', writeToRootDir vol disk offset input = .ok disk' ∧
        readFromRootDir vol disk' offset n = .ok input
  outside : rootBytes vol < offset + n →
    ∀ (disk : Mem) (input : List UInt8), input.length = n →
      readFromRootDir vol disk offset n = .error .hcf ∧
      writeToRootDir vol disk offset input = .error .hcf

end

section

variable {vol : Fat16Volume} {offset n : Nat}

theorem checkRootDir_unaligned (h : ¬ (32 ∣ offset ∧ 32 ∣ n)) :
    checkRootDir vol offset n = .error .hcf := by
  rw [checkRootDir]
  by_cases hoff : offset % 32 = 0
  · have hn : ¬ n % 32 = 0 := fun h0 => h ⟨Nat.dvd_of_mod_eq_zero hoff, Nat.dvd_of_mod_eq_zero h0⟩
    rw [ensure_of hoff, ok_bind, ensure_of_not hn]
    rfl
  · rw [ensure_of_not hoff]
    rfl

theorem checkRootDir_aligned (hroot : rootBytes vol < 2 ^ 31) (hoff : 32 ∣ offset) (hn : 32 ∣ n) :
    checkRootDir vol offset n = ensure (u64 (offset + n) < rootBytes vol) .hcf := by
  have hint : intU64 (vol.numberOfSectorsRootDirectory * vol.bytesPerSector) = rootBytes vol :=
    intU64_of_lt hroot
  rw [checkRootDir, ensure_of (Nat.mod_eq_zero_of_dvd hoff), ok_bind,
    ensure_of (Nat.mod_eq_zero_of_dvd hn), ok_bind, hint]

theorem rootDir_of_check (h : checkRootDir vol offset n = .ok ()) (disk : Mem) {input : List UInt8}
    (hlen : input.length = n) :
    (∃ bytes, readFromRootDir vol disk offset n = .ok bytes) ∧
      ∃ disk', writeToRootDir vol disk offset input = .ok disk' ∧
        readFromRootDir vol disk' offset n = .ok input := by
  refine ⟨⟨_, by rw [readFromRootDir, h]; rfl⟩, _, by rw [writeToRootDir, hlen, h]; rfl, ?_⟩
  rw [readFromRootDir, h, ok_bind, ← hlen, Mem.read_write_self]
  rfl

theorem rootDir_of_check_error {e : Halt} (h : checkRootDir vol offset n = .error e) (disk : Mem)
    {input : List UInt8} (hlen : input.length = n) :
    readFromRootDir vol disk offset n = .error e ∧ writeToRootDir vol disk offset input = .error e := by
  constructor
  · rw [readFromRootDir, h]
    rfl
  · rw [writeToRootDir, hlen, h]
    rfl

/-- **When a request is treated as it should be.** -/
theorem rootRequest_iff (hroot : rootBytes vol < 2 ^ 31) (hoff : offset < 2 ^ 64) (hn : n < 2 ^ 64) :
    RequestInBounds vol offset n ↔ (IsEntryRequest offset n →
      offset + n ≠ rootBytes vol ∧ ¬ (2 ^ 64 ≤ offset + n ∧ offset + n < 2 ^ 64 + rootBytes vol)) := by
  have hwrap : u64 (offset + n) = if offset + n < 2 ^ 64 then offset + n else offset + n - 2 ^ 64 := by
    unfold u64
    split <;> omega
  constructor
  · rintro ⟨hin, hout⟩ ⟨hoff32, hn32, hpos⟩
    have hcheck := checkRootDir_aligned hroot hoff32 hn32
    obtain ⟨input, hlen⟩ : ∃ input : List UInt8, input.length = n :=
      ⟨List.replicate n 0, List.length_replicate⟩
    constructor
    · intro heq
      obtain ⟨⟨bytes, hread⟩, -⟩ :=
        hin ⟨hoff32, hn32, hpos⟩ (Nat.le_of_eq heq) (fun _ => 0) input hlen
      rw [readFromRootDir, hcheck, hwrap, if_pos (by omega), ensure_of_not (by omega)] at hread
      cases hread
    · rintro ⟨hge, hlt⟩
      obtain ⟨hread, -⟩ := hout (by omega) (fun _ => 0) input hlen
      rw [readFromRootDir, hcheck, hwrap, if_neg (by omega), ensure_of (by omega)] at hread
      cases hread
  · intro h
    constructor
    · intro hreq hle disk input hlen
      obtain ⟨hne, -⟩ := h hreq
      refine rootDir_of_check ?_ disk hlen
      rw [checkRootDir_aligned hroot hreq.1 hreq.2.1, hwrap, if_pos (by omega)]
      exact ensure_of (by omega) _
    · intro hgt disk input hlen
      refine rootDir_of_check_error ?_ disk hlen
      by_cases hreq : IsEntryRequest offset n
      · obtain ⟨-, hround⟩ := h hreq
        rw [checkRootDir_aligned hroot hreq.1 hreq.2.1, hwrap]
        split <;> exact ensure_of_not (by omega) _
      · by_cases halign : 32 ∣ offset ∧ 32 ∣ n
        · -- nothing is asked for, from a place behind the end
          have h0 : n = 0 := by
            by_contra hne
            exact hreq ⟨halign.1, halign.2, Nat.pos_of_ne_zero hne⟩
          rw [checkRootDir_aligned hroot halign.1 halign.2, hwrap, if_pos (by omega)]
          exact ensure_of_not (by omega) _
        · exact checkRootDir_unaligned halign

end

/-! ### Listing a full root directory -/

/-- Every entry of the root directory is in use: there is no zero entry in it. -/
def RootFull (vol : Fat16Volume) (disk : Mem) : Prop :=
  ∀ i, (i + 1) * 32 ≤ rootBytes vol →
    (Fat16DirectoryEntry.ofBytes (disk.read (u64 (rootDirStartByte vol + i * 32)) 32)).firstByte ≠ 0

section

variable {vol : Fat16Volume} {disk : Mem} {i : Nat} {fileName : Mem}

theorem readFromDirectory_root (hroot : rootBytes vol < 2 ^ 31) (hi : i * 32 + 32 < 2 ^ 64)
    {bytes : List UInt8} (h : readFromDirectory vol disk parentIsRootDir (i * 32) 32 = .ok bytes) :
    i * 32 + 32 < rootBytes vol ∧ bytes = disk.read (u64 (rootDirStartByte vol + i * 32)) 32 := by
  rw [readFromDirectory, if_pos rfl, readFromRootDir,
    checkRootDir_aligned hroot (Nat.dvd_mul_left 32 i) (Nat.dvd_refl 32), u64_of_lt hi] at h
  simp only [bind_eq_ok, ensure_eq_ok, exists_const] at h
  obtain ⟨hlt, h⟩ := h
  cases h
  exact ⟨hlt, rfl⟩

theorem direntTurn_full (hroot : rootBytes vol < 2 ^ 31) (hfull : RootFull vol disk)
    (hi : i * 32 + 32 < 2 ^ 64) {t : Turn}
    (h : direntTurn vol disk parentIsRootDir i fileName = .ok t) :
    (i + 1) * 32 < rootBytes vol ∧ ((∃ next fileName', t = .pass next fileName' ∧
      i ≤ next ∧ next < i + 64) ∨ ∃ fileName', t = .entry fileName') := by
  rw [direntTurn, bind_eq_ok] at h
  obtain ⟨bytes, hread, hturn⟩ := h
  obtain ⟨hlt, rfl⟩ := readFromDirectory_root hroot hi hread
  refine ⟨by omega, ?_⟩
  have hseq : ∀ ent : Fat16DirectoryEntry, ent.sequenceNumber < 64 :=
    fun ent => Nat.mod_lt _ (by decide)
  obtain ⟨h0, rfl⟩ | ⟨-, rfl⟩ | ⟨-, -, -, -, -, -, -, rfl⟩ | ⟨-, rfl⟩ :=
    turnAt_cases hturn
  · exact absurd h0 (hfull i (by omega))
  · exact .inl ⟨_, _, rfl, Nat.le_refl i, by omega⟩
  · exact .inl ⟨_, _, rfl, Nat.le_add_right _ _, Nat.add_lt_add_left (hseq _) i⟩
  · exact .inr ⟨_, rfl⟩

/-- **The places listed.**  Behind each entry that is stored the loop reads one more. -/
theorem readDirentsLoop_places (hroot : rootBytes vol < 2 ^ 31) (hfull : RootFull vol disk)
    (fuel : Nat) : ∀ i skip count fileName ents, i < 2 ^ 32 →
      readDirentsLoop vol disk parentIsRootDir fuel i skip count fileName = .ok ents →
      (i + 1) * 32 < rootBytes vol ∧ ∃ ks : List Nat, ks.Pairwise (· < ·) ∧
        (∀ k ∈ ks, i ≤ k ∧ (k + 2) * 32 < rootBytes vol) ∧
        List.Forall₂ (fun k e => makeInode parentIsRootDir k = .ok e.dIno) ks ents := by
  induction fuel with
  | zero =>
    intro i skip count fileName ents _ h
    cases h
  | succ fuel ih =>
    intro i skip count fileName ents hi h
    rw [readDirentsLoop_succ, bind_eq_ok] at h
    obtain ⟨t, hturn, h⟩ := h
    obtain ⟨hlt, ⟨next, fileName', rfl, hge, hnext⟩ | ⟨fileName', rfl⟩⟩ :=
      direntTurn_full hroot hfull (by omega) hturn
    · obtain ⟨-, ks, hsorted, hks, hinos⟩ := ih next skip count fileName' ents (by omega) h
      exact ⟨hlt, ks, hsorted, fun k hk => ⟨Nat.le_trans hge (hks k hk).1, (hks k hk).2⟩, hinos⟩
    · refine ⟨hlt, ?_⟩
      cases skip with
      | succ skip =>
        obtain ⟨-, ks, hsorted, hks, hinos⟩ := ih (i + 1) skip count _ ents (by omega) h
        exact ⟨ks, hsorted, fun k hk => ⟨by have := (hks k hk).1; omega, (hks k hk).2⟩, hinos⟩
      | zero =>
        cases count with
        | zero =>
          cases h
          exact ⟨[], .nil, fun k hk => absurd hk List.not_mem_nil, .nil⟩
        | succ count =>
          simp only [afterTurn, bind_eq_ok] at h
          obtain ⟨dIno, hino, dName, -, rest, hrest, h⟩ := h
          cases h
          obtain ⟨hbehind, ks, hsorted, hks, hinos⟩ := ih (i + 1) 0 count _ rest (by omega) hrest
          refine ⟨i :: ks, List.pairwise_cons.mpr ⟨fun k hk => (hks k hk).1, hsorted⟩, ?_,
            .cons hino hinos⟩
          intro k hk
          rcases List.mem_cons.mp hk with rfl | hk
          · exact ⟨Nat.le_refl k, by omega⟩
          · exact ⟨by have := (hks k hk).1; omega, (hks k hk).2⟩

end

/-! ### Mounted volumes -/

/-- The root directory of a mounted volume is small: it is as long as its number of entries says,
up to a sector. -/
theorem rootBytes_volume_lt (disk : Mem) :
    rootBytes (readHeader disk).volume < 2 ^ 31 := by
  have hentries : (readHeader disk).numberOfRootDirectoryEntries < 256 ^ 2 := leVal_read_lt disk 17 2
  have hsector := (readHeader_widths disk).bytesPerSector
  generalize readHeader disk = hdr at hentries hsector ⊢
  have hmod : hdr.rootDirSectors ≤
      (hdr.numberOfRootDirectoryEntries * 32 + hdr.bytesPerSector - 1) / hdr.bytesPerSector :=
    Nat.mod_le _ _
  calc rootBytes hdr.volume = hdr.rootDirSectors * hdr.bytesPerSector := rfl
    _ ≤ (hdr.numberOfRootDirectoryEntries * 32 + hdr.bytesPerSector - 1) / hdr.bytesPerSector *
        hdr.bytesPerSector := Nat.mul_le_mul_right _ hmod
    _ ≤ hdr.numberOfRootDirectoryEntries * 32 + hdr.bytesPerSector - 1 := Nat.div_mul_le_self _ _
    _ < 2 ^ 31 := by omega

theorem getParentClusterNum_mounted {mounts mounts' : List Fat16Volume} {disk : Mem}
    {mountId inode : Nat} (h : mountFat16 mounts disk = .ok (mountId, inode, mounts')) :
    getParentClusterNum inode = iAmRootDir := by
  simp only [mountFat16, bind_eq_ok, pure_eq_ok, Except.ok.injEq, Prod.mk.injEq] at h
  obtain ⟨-, -, -, -, -, -, -, -, -, -, -, -, -, -, -, -, inode', hino, -, rfl, -⟩ := h
  cases hino
  decide

/-- **When the whole root directory can be used.**  On every mounted volume, a request is treated
as it should be exactly if it does not end where the root directory does or come round to its
front; and whatever part of a full root directory is listed, it does not reach the last entry. -/
theorem root_directory_usable_iff {mounts mounts' : List Fat16Volume} {disk : Mem}
    {mountId inode : Nat} (h : mountFat16 mounts disk = .ok (mountId, inode, mounts')) :
    ∃ vol, mounts'[mountId]? = some vol ∧
      (∀ offset n, offset < 2 ^ 64 → n < 2 ^ 64 →
        (RequestInBounds vol offset n ↔ (IsEntryRequest offset n → offset + n ≠ rootBytes vol ∧
          ¬ (2 ^ 64 ≤ offset + n ∧ offset + n < 2 ^ 64 + rootBytes vol)))) ∧
      ∀ disk', RootFull vol disk' → ∀ index count ents,
        readDirents vol disk' inode index count = .ok ents →
        ∃ ks : List Nat, ks.Pairwise (· < ·) ∧ (∀ k ∈ ks, (k + 2) * 32 < rootBytes vol) ∧
          List.Forall₂ (fun k e => makeInode parentIsRootDir k = .ok e.dIno) ks ents := by
  obtain ⟨-, hvol⟩ := mountFat16_eq_ok h
  have hroot := rootBytes_volume_lt disk
  refine ⟨_, hvol, fun offset n hoff hn => rootRequest_iff hroot hoff hn, ?_⟩
  intro disk' hfull index count ents hlist
  rw [readDirents, if_pos (getParentClusterNum_mounted h), pure_eq_ok, ok_bind] at hlist
  obtain ⟨-, ks, hsorted, hks, hinos⟩ :=
    readDirentsLoop_places hroot hfull _ 0 index count _ ents (by decide) hlist
  exact ⟨ks, hsorted, fun k hk => (hks k hk).2, hinos⟩

/-- The first entry of a root directory of one sector. -/
theorem root_directory_usable_first :
    mountFat16 noMounts (bootSector [16, 0]) = .ok (0, 1, noMounts.set 0 smallVolume) ∧
      RequestInBounds smallVolume 0 32 := by
  have h : mountFat16 noMounts (bootSector [16, 0]) = .ok (0, 1, noMounts.set 0 smallVolume) := by
    decide +kernel
  obtain ⟨vol, hvol, hrequests, -⟩ := root_directory_usable_iff h
  have hsame : (noMounts.set 0 smallVolume)[0]? = some smallVolume := by decide
  obtain rfl : smallVolume = vol := Option.some.inj (hsame.symm.trans hvol)
  exact ⟨h, (hrequests 0 32 (by decide) (by decide)).mpr fun _ => ⟨by decide, by decide⟩⟩

/-- The volume with 16 files `A` in its root directory. -/
def fullRootDisk : Mem :=
  (bootSector [16, 0]).write 16896 ((List.replicate 16
    (ofFields (fun i => if i.val = 0 then 65 else 32) 0 0 0)).flatMap toBytes)

/-- The last of the 16 entries cannot be read or written, and neither it nor the one in front of it
can be listed. -/
theorem root_directory_last_entry :
    mountFat16 noMounts fullRootDisk = .ok (0, 1, noMounts.set 0 smallVolume) ∧
      RootFull smallVolume fullRootDisk ∧ (15 + 1) * 32 = rootBytes smallVolume ∧
      readFromRootDir smallVolume fullRootDisk (15 * 32) 32 = .error .hcf ∧
      (writeToRootDir smallVolume fullRootDisk (15 * 32) endSentinel.toBytes).map (fun _ => ()) =
        .error .hcf ∧
      (readDirents smallVolume fullRootDisk 1 13 1).map List.length = .ok 1 ∧
      readDirents smallVolume fullRootDisk 1 14 1 = .error .hcf ∧
      readDirents smallVolume fullRootDisk 1 15 1 = .error .hcf := by
  have hfull : ∀ i < 16, (ofBytes (fullRootDisk.read
      (u64 (rootDirStartByte smallVolume + i * 32)) 32)).firstByte ≠ 0 := by
    decide +kernel
  refine ⟨by decide +kernel, ?_, by decide, by decide +kernel, by decide +kernel,
    by decide +kernel, by decide +kernel, by decide +kernel⟩
  intro i hi
  have hbytes : rootBytes smallVolume = 512 := by decide
  exact hfull i (by omega)

end Stuos.Fs.Fat
