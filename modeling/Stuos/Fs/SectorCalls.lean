import Stuos.Fs.DevBytes

/-!
# The sectors a block access touches

`blockdev_read_file` and `blockdev_write_file` with the calls of the driver that they make.  The last
sector is computed from `offset + num_bytes - 1`, which is in front of the range if that is empty,
and at the end of the 64-bit numbers if it is empty and at 0.

* `writeSectorsLogged`, `readSectorsLogged`: the loops over the sectors with their calls; without
  those they are the loops of `Stuos.Fs.Dev`.
* `sector_calls_iff`: only sectors of the range are touched, and few, exactly if the range is not
  empty or starts at a sector boundary other than 0; a read is saved once more by the cache.
-/

namespace Stuos.Fs.Dev

open Stuos.Lib

/-- A call of the driver. -/
inductive SectorCall
  | blockRead (sector : Nat)
  | blockWrite (sector : Nat)
  deriving DecidableEq, Repr

def SectorCall.sector : SectorCall → Nat
  | .blockRead sector => sector
  | .blockWrite sector => sector

def SectorCall.isRead : SectorCall → Bool
  | .blockRead _ => true
  | .blockWrite _ => false

@[simp] theorem SectorCall.isRead_blockRead (sector : Nat) : (blockRead sector).isRead = true := rfl

@[simp] theorem SectorCall.isRead_blockWrite (sector : Nat) :
    (blockWrite sector).isRead = false := rfl

/-! ### The loops with their calls -/

/-- The sector loop of `blockdev_write_file`. -/
def writeSectorsLogged (dev : BlockDevice) (sector offsetInSector : Nat) (input : List UInt8) :
    Nat → BlockDevice × List SectorCall
  | 0 => (dev, [])
  | count + 1 =>
    let filled := fill (dev.blockRead sector) offsetInSector input
    let dev := dev.blockWrite sector filled.1
    let rest := writeSectorsLogged { dev with cache := { dev.cache with isValid := false } }
      (sector + 1) 0 filled.2 count
    (rest.1, .blockRead sector :: .blockWrite sector :: rest.2)

/-- The driver is called if the sector is not in the cache. -/
def loadCacheCalls (dev : BlockDevice) (sector : Nat) : List SectorCall :=
  if dev.cache.sectorNumber ≠ sector ∨ dev.cache.isValid = false then [.blockRead sector] else []

/-- The sector loop of `blockdev_read_file`. -/
def readSectorsLogged (dev : BlockDevice) (sector offsetInSector numBytes : Nat) :
    Nat → (BlockDevice × List UInt8) × List SectorCall
  | 0 => ((dev, []), [])
  | count + 1 =>
    let calls := loadCacheCalls dev sector
    let dev := loadCache dev sector
    let drained := drain dev.cache.data offsetInSector numBytes
    let rest := readSectorsLogged dev (sector + 1) 0 drained.2 count
    ((rest.1.1, drained.1 ++ rest.1.2), calls ++ rest.2)

/-- `blockdev_write_file` with its calls. -/
def blockdevWriteFileLogged (blockDevices : List BlockDevice) (id : VNodeData) (offset : Nat)
    (inputBuf : List UInt8) : Except Halt ((List BlockDevice × Nat) × List SectorCall) := do
  let (devNum, dev, part) ← getBlockDevice blockDevices id
  let offset := u64 (offset + part.byteOffset)
  let result := writeSectorsLogged dev (offset / blockDeviceReadSize)
    (offset % blockDeviceReadSize) inputBuf (sectorCount offset inputBuf.length)
  return ((blockDevices.set devNum result.1, inputBuf.length), result.2)

/-- `blockdev_read_file` with its calls. -/
def blockdevReadFileLogged (blockDevices : List BlockDevice) (id : VNodeData)
    (offset numBytes : Nat) :
    Except Halt ((List BlockDevice × Nat × List UInt8) × List SectorCall) := do
  let (devNum, dev, part) ← getBlockDevice blockDevices id
  let offset := u64 (offset + part.byteOffset)
  let result := readSectorsLogged dev (offset / blockDeviceReadSize)
    (offset % blockDeviceReadSize) numBytes (sectorCount offset numBytes)
  return ((blockDevices.set devNum result.1.1, numBytes, result.1.2), result.2)

/-! ### The calls are those of the loops -/

theorem writeSectorsLogged_fst (dev : BlockDevice) (sector off : Nat) (input : List UInt8)
    (count : Nat) :
    (writeSectorsLogged dev sector off input count).1 = writeSectors dev sector off input count := by
  induction count generalizing dev sector off input with
  | zero => rfl
  | succ count ih => exact ih _ _ _ _

theorem readSectorsLogged_fst (dev : BlockDevice) (sector off n count : Nat) :
    (readSectorsLogged dev sector off n count).1 = readSectors dev sector off n count := by
  induction count generalizing dev sector off n with
  | zero => rfl
  | succ count ih =>
    simp only [readSectorsLogged, readSectors]
    rw [ih]

theorem blockdevWriteFileLogged_fst (devs : List BlockDevice) (id : VNodeData) (offset : Nat)
    (input : List UInt8) :
    (blockdevWriteFileLogged devs id offset input).map Prod.fst =
      blockdevWriteFile devs id offset input := by
  rw [blockdevWriteFileLogged, blockdevWriteFile]
  cases getBlockDevice devs id with
  | error e => rfl
  | ok found => simp only [ok_bind, pure_eq_ok, Except.map, writeSectorsLogged_fst]

theorem blockdevReadFileLogged_fst (devs : List BlockDevice) (id : VNodeData) (offset n : Nat) :
    (blockdevReadFileLogged devs id offset n).map Prod.fst = blockdevReadFile devs id offset n := by
  rw [blockdevReadFileLogged, blockdevReadFile]
  cases getBlockDevice devs id with
  | error e => rfl
  | ok found => simp only [ok_bind, pure_eq_ok, Except.map, readSectorsLogged_fst]

/-- **A write** reads and writes each sector once. -/
theorem writeSectorsLogged_snd (dev : BlockDevice) (sector off : Nat) (input : List UInt8)
    (count : Nat) :
    (writeSectorsLogged dev sector off input count).2 =
      (List.range' sector count).flatMap fun s => [.blockRead s, .blockWrite s] := by
  induction count generalizing dev sector off input with
  | zero => rfl
  | succ count ih =>
    simp only [writeSectorsLogged]
    rw [ih, List.range'_succ]
    rfl

theorem loadCache_cached (dev : BlockDevice) (sector : Nat) :
    (loadCache dev sector).cache.isValid = true ∧
      (loadCache dev sector).cache.sectorNumber = sector := by
  unfold loadCache
  split
  · exact ⟨rfl, rfl⟩
  · rename_i h
    simp only [ne_eq, not_or, not_not, Bool.not_eq_false] at h
    exact ⟨h.2, h.1⟩

/-- **A read** reads each sector once, the first one only if it is not in the cache. -/
theorem readSectorsLogged_snd (dev : BlockDevice) (sector off n count : Nat) :
    (readSectorsLogged dev sector off n (count + 1)).2 =
      loadCacheCalls dev sector ++ (List.range' (sector + 1) count).map .blockRead := by
  induction count generalizing dev sector off n with
  | zero => rfl
  | succ count ih =>
    rw [readSectorsLogged]
    simp only
    rw [ih, List.range'_succ, List.map_cons]
    -- the cache holds the sector in front
    have hcached := loadCache_cached dev sector
    have hcalls : loadCacheCalls (loadCache dev sector) (sector + 1) = [.blockRead (sector + 1)] := by
      rw [loadCacheCalls, if_pos (.inl (by rw [hcached.2]; omega))]
    rw [hcalls]
    rfl

/-! ### The sectors of a range -/

/-- The sector holds a byte of the range. -/
def Intersects (o n sector : Nat) : Prop := ∃ b, o ≤ b ∧ b < o + n ∧ b / 512 = sector

/-- The calls are for sectors of the range only, so there are few of them, and none for an empty
range. -/
structure OwnSectors (o n : Nat) (calls : List SectorCall) : Prop where
  own : ∀ c ∈ calls, Intersects o n c.sector
  reads : calls.countP (·.isRead) ≤ n / 512 + 2
  writes : calls.countP (!·.isRead) ≤ n / 512 + 2
  none : n = 0 → calls = []

theorem ownSectors_nil (o n : Nat) : OwnSectors o n [] :=
  ⟨fun _ h => absurd h List.not_mem_nil, Nat.zero_le _, Nat.zero_le _, fun _ => rfl⟩

theorem intersects_of_mem {o n sector : Nat} (hn : n ≠ 0) (h1 : o / 512 ≤ sector)
    (h2 : sector ≤ (o + n - 1) / 512) : Intersects o n sector :=
  ⟨max o (512 * sector), by omega, by omega, by omega⟩

section

variable {o n : Nat}

theorem sectorCount_of_ne (hn : n ≠ 0) (hlt : o + n < 2 ^ 64) :
    ∃ m, sectorCount o n = m + 1 ∧ o / 512 + m = (o + n - 1) / 512 ∧ m ≤ n / 512 + 1 := by
  have hu : u64 (o + n + (2 ^ 64 - 1)) = o + n - 1 := by
    unfold u64
    omega
  refine ⟨(o + n - 1) / 512 - o / 512, ?_, by omega, by omega⟩
  simp only [sectorCount, hu, blockDeviceReadSize]
  omega

/-- **The sectors visited for an empty range.** -/
theorem sectorCount_zero (hlt : o < 2 ^ 64) :
    sectorCount o 0 = if o = 0 then 2 ^ 55 else if 512 ∣ o then 0 else 1 := by
  by_cases h0 : o = 0
  · subst h0
    decide
  · have hu : u64 (o + 0 + (2 ^ 64 - 1)) = o - 1 := by
      unfold u64
      omega
    rw [if_neg h0]
    simp only [sectorCount, hu, blockDeviceReadSize]
    split <;> omega

theorem countP_writeCalls (l : List Nat) :
    (l.flatMap fun s => [SectorCall.blockRead s, .blockWrite s]).countP (·.isRead) = l.length ∧
      (l.flatMap fun s => [SectorCall.blockRead s, .blockWrite s]).countP (!·.isRead) = l.length := by
  induction l with
  | nil => exact ⟨rfl, rfl⟩
  | cons s l ih =>
    simp [List.countP_cons, ih]

/-- **A write to a range with bytes in it.** -/
theorem ownSectors_write (hn : n ≠ 0) (hlt : o + n < 2 ^ 64) :
    OwnSectors o n ((List.range' (o / 512) (sectorCount o n)).flatMap
      fun s => [.blockRead s, .blockWrite s]) := by
  obtain ⟨m, hcount, hlast, hm⟩ := sectorCount_of_ne hn hlt
  obtain ⟨hreads, hwrites⟩ := countP_writeCalls (List.range' (o / 512) (sectorCount o n))
  rw [List.length_range', hcount] at hreads hwrites
  rw [hcount]
  refine ⟨?_, by omega, by omega, fun h0 => absurd h0 hn⟩
  intro c hc
  obtain ⟨s, hs, hc⟩ := List.mem_flatMap.mp hc
  rw [List.mem_range'_1] at hs
  have hin : Intersects o n s := intersects_of_mem hn hs.1 (by omega)
  simp only [List.mem_cons, List.not_mem_nil, or_false] at hc
  rcases hc with rfl | rfl
  · exact hin
  · exact hin

theorem countP_readCalls (l : List Nat) :
    (l.map SectorCall.blockRead).countP (·.isRead) = l.length ∧
      (l.map SectorCall.blockRead).countP (!·.isRead) = 0 := by
  induction l with
  | nil => exact ⟨rfl, rfl⟩
  | cons s l ih => simp [List.countP_cons, ih]

/-- **A read from a range with bytes in it.**  The cache only saves calls. -/
theorem ownSectors_read (hn : n ≠ 0) (hlt : o + n < 2 ^ 64) (dev : BlockDevice) (off k : Nat) :
    OwnSectors o n (readSectorsLogged dev (o / 512) off k (sectorCount o n)).2 := by
  obtain ⟨m, hcount, hlast, hm⟩ := sectorCount_of_ne hn hlt
  rw [hcount, readSectorsLogged_snd]
  obtain ⟨hreads, hwrites⟩ := countP_readCalls (List.range' (o / 512 + 1) m)
  rw [List.length_range'] at hreads
  have hfirst : (loadCacheCalls dev (o / 512)).countP (·.isRead) ≤ 1 ∧
      (loadCacheCalls dev (o / 512)).countP (!·.isRead) = 0 ∧
      ∀ c ∈ loadCacheCalls dev (o / 512), c = .blockRead (o / 512) := by
    unfold loadCacheCalls
    split <;> simp
  refine ⟨?_, ?_, ?_, fun h0 => absurd h0 hn⟩
  · intro c hc
    rw [List.mem_append] at hc
    rcases hc with hc | hc
    · rw [hfirst.2.2 c hc, SectorCall.sector]
      exact intersects_of_mem hn (Nat.le_refl _) (by omega)
    · obtain ⟨s, hs, rfl⟩ := List.mem_map.mp hc
      rw [List.mem_range'_1] at hs
      rw [SectorCall.sector]
      exact intersects_of_mem hn (by omega) (by omega)
  · rw [List.countP_append, hreads]
    omega
  · rw [List.countP_append, hwrites]
    omega

/-- **A write to an empty range.** -/
theorem ownSectors_write_zero (hlt : o < 2 ^ 64) :
    OwnSectors o 0 ((List.range' (o / 512) (sectorCount o 0)).flatMap
      fun s => [.blockRead s, .blockWrite s]) ↔ 0 < o ∧ 512 ∣ o := by
  constructor
  · intro h
    have hnil : List.range' (o / 512) (sectorCount o 0) = [] := by
      have hcalls := h.none rfl
      rw [List.flatMap_eq_nil_iff] at hcalls
      exact List.eq_nil_iff_forall_not_mem.mpr fun s hs => absurd (hcalls s hs) (List.cons_ne_nil _ _)
    rw [List.range'_eq_nil_iff, sectorCount_zero hlt] at hnil
    split at hnil
    · exact absurd hnil (by decide)
    · split at hnil
      · exact ⟨by omega, by assumption⟩
      · cases hnil
  · rintro ⟨hpos, hdvd⟩
    rw [sectorCount_zero hlt, if_neg (by omega), if_pos hdvd]
    exact ownSectors_nil o 0

/-- **A read from an empty range.** -/
theorem ownSectors_read_zero (hlt : o < 2 ^ 64) (dev : BlockDevice) (off k : Nat) :
    OwnSectors o 0 (readSectorsLogged dev (o / 512) off k (sectorCount o 0)).2 ↔
      0 < o ∧ (512 ∣ o ∨ dev.cache.isValid = true ∧ dev.cache.sectorNumber = o / 512) := by
  rw [sectorCount_zero hlt]
  by_cases h0 : o = 0
  · subst h0
    rw [if_pos rfl, show (2 : Nat) ^ 55 = 2 ^ 55 - 2 + 1 + 1 by rfl, readSectorsLogged_snd,
      List.range'_succ]
    constructor
    · intro h
      have hnil := h.none rfl
      rw [List.append_eq_nil_iff] at hnil
      cases hnil.2
    · exact fun h => absurd h.1 (Nat.lt_irrefl 0)
  · rw [if_neg h0]
    by_cases hdvd : 512 ∣ o
    · rw [if_pos hdvd]
      exact ⟨fun _ => ⟨by omega, .inl hdvd⟩, fun _ => ownSectors_nil o 0⟩
    · rw [if_neg hdvd, readSectorsLogged_snd, loadCacheCalls]
      constructor
      · intro h
        have hnil := h.none rfl
        split at hnil
        · cases hnil
        · rename_i hcached
          simp only [ne_eq, not_or, not_not, Bool.not_eq_false] at hcached
          exact ⟨by omega, .inr ⟨hcached.2, hcached.1⟩⟩
      · rintro ⟨-, hcached⟩
        obtain ⟨hvalid, hsector⟩ := hcached.resolve_left hdvd
        rw [if_neg (by simp [hvalid, hsector])]
        exact ownSectors_nil o 0

end

/-- **When a block access touches its own sectors only.** -/
theorem sector_calls_iff {devs : List BlockDevice} {id : VNodeData} {k : Nat} {dev : BlockDevice}
    {part : BlockDevicePartition} (hg : getBlockDevice devs id = .ok (k, dev, part)) (offset n : Nat)
    (hlt : offset + part.byteOffset + n < 2 ^ 64) :
    (∀ input : List UInt8, input.length = n →
      ∃ result calls, blockdevWriteFileLogged devs id offset input = .ok (result, calls) ∧
        (OwnSectors (offset + part.byteOffset) n calls ↔
          (n = 0 → 0 < offset + part.byteOffset ∧ 512 ∣ offset + part.byteOffset))) ∧
    ∃ result calls, blockdevReadFileLogged devs id offset n = .ok (result, calls) ∧
      (OwnSectors (offset + part.byteOffset) n calls ↔
        (n = 0 → 0 < offset + part.byteOffset ∧ (512 ∣ offset + part.byteOffset ∨
          dev.cache.isValid = true ∧ dev.cache.sectorNumber = (offset + part.byteOffset) / 512))) := by
  have hu : u64 (offset + part.byteOffset) = offset + part.byteOffset := u64_of_lt (by omega)
  constructor
  · rintro input rfl
    refine ⟨_, _, by rw [blockdevWriteFileLogged, hg]; rfl, ?_⟩
    simp only [hu]
    rw [writeSectorsLogged_snd]
    by_cases hn : input.length = 0
    · rw [hn, ownSectors_write_zero (by omega)]
      exact ⟨fun h _ => h, fun h => h rfl⟩
    · exact ⟨fun _ h0 => absurd h0 hn, fun _ => ownSectors_write hn hlt⟩
  · refine ⟨_, _, by rw [blockdevReadFileLogged, hg]; rfl, ?_⟩
    simp only [hu]
    by_cases hn : n = 0
    · subst hn
      rw [ownSectors_read_zero (by omega)]
      exact ⟨fun h _ => h, fun h => h rfl⟩
    · exact ⟨fun _ h0 => absurd h0 hn, fun _ => ownSectors_read hn hlt dev _ _⟩

/-- Four bytes across a sector boundary. -/
theorem sector_calls_two_sectors :
    getBlockDevice [blankDevice] ⟨1, 0⟩ = .ok (0, blankDevice, ⟨512, 1024⟩) ∧
      ∃ result calls, blockdevWriteFileLogged [blankDevice] ⟨1, 0⟩ 510 [1, 2, 3, 4] =
        .ok (result, calls) ∧ OwnSectors 1022 4 calls := by
  have hg : getBlockDevice [blankDevice] ⟨1, 0⟩ = .ok (0, blankDevice, ⟨512, 1024⟩) := rfl
  obtain ⟨result, calls, hwrite, hiff⟩ := (sector_calls_iff hg 510 4 (by decide)).1 [1, 2, 3, 4] rfl
  exact ⟨hg, result, calls, hwrite, hiff.mpr fun h0 => by cases h0⟩

/-- **An empty write** into the middle of sector 1 reads and writes that sector, and an empty read at
the start of the disk goes through all 2⁵⁵ sectors. -/
theorem sector_calls_empty :
    (blockdevWriteFileLogged [blankDevice] ⟨0, 0⟩ 700 []).map Prod.snd =
        .ok [.blockRead 1, .blockWrite 1] ∧
      sectorCount 0 0 = 2 ^ 55 ∧ ∃ result calls,
        blockdevReadFileLogged [blankDevice] ⟨0, 0⟩ 0 0 = .ok (result, calls) ∧
        calls.length = 2 ^ 55 := by
  have hcount : sectorCount (u64 (0 + 0)) 0 = 2 ^ 55 - 1 + 1 := by decide
  refine ⟨rfl, by decide, _, _, rfl, ?_⟩
  simp only [hcount]
  rw [readSectorsLogged_snd, List.length_append, List.length_map, List.length_range']
  rfl

end Stuos.Fs.Dev
