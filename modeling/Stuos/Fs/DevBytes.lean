import Stuos.Fs.Dev
import Stuos.Lib.Lts

/-!
# A block device is a byte array

`diskBytes` reads a disk of sectors as one byte array.  `byteArrays` is the
specification: a byte array per device, where a read returns a slice and a write
replaces one, at the position the partition gives.

* `writeSectors_bytes`, `readSectors_bytes`: the two sector loops on bytes.
* `Coherent`: a valid cache holds the current content of its sector; both loops
  keep it.
* `blockdev_refines_byteArrays`: every interleaving of reads and writes of at least
  one byte is a run of the specification, with the same bytes returned.
-/

namespace Stuos.Fs.Dev

open Stuos.Lib

/-- The bytes of a disk, in order. -/
def diskBytes (disk : Nat → Sector) : Mem :=
  fun i => disk (i / 512) ⟨i % 512, Nat.mod_lt _ (by decide)⟩

/-- A valid cache holds the current content of its sector. -/
def Coherent (dev : BlockDevice) : Prop :=
  dev.cache.isValid = true → dev.cache.data = dev.disk dev.cache.sectorNumber

/-! ### The inner loops -/

theorem fill_snd : ∀ (bs : List UInt8) (data : Sector) (off : Nat),
    (fill data off bs).2 = bs.drop (512 - off) := by
  intro bs
  induction bs with
  | nil => intro data off; simp [fill]
  | cons b bs ih =>
    intro data off
    by_cases h : off < 512
    · rw [fill, dif_pos h, ih, show 512 - off = (512 - (off + 1)) + 1 by omega, List.drop_succ_cons]
    · rw [fill, dif_neg h, show 512 - off = 0 by omega, List.drop_zero]

theorem fill_fst : ∀ (bs : List UInt8) (data : Sector) (off : Nat) (i : Fin 512),
    (fill data off bs).1 i =
      if off ≤ i.val ∧ i.val < off + bs.length then bs.getD (i.val - off) 0 else data i := by
  intro bs
  induction bs with
  | nil => intro data off i; rw [fill, if_neg (by simp)]
  | cons b bs ih =>
    intro data off i
    by_cases h : off < 512
    · rw [fill, dif_pos h, ih]
      by_cases hi : i.val = off
      · have : i = ⟨off, h⟩ := Fin.ext hi
        subst this
        rw [if_neg (by simp only; omega), Function.update_self, if_pos (by simp)]
        simp
      · rw [Function.update_of_ne (fun he => hi (congrArg Fin.val he))]
        by_cases hc : off ≤ i.val ∧ i.val < off + (b :: bs).length
        · rw [List.length_cons] at hc
          rw [if_pos ⟨by omega, by omega⟩, if_pos (by rw [List.length_cons]; omega),
            show i.val - off = (i.val - (off + 1)) + 1 by omega, List.getD_cons_succ]
        · rw [List.length_cons] at hc
          rw [if_neg (by omega), if_neg (by rw [List.length_cons]; omega)]
    · have := i.isLt
      rw [fill, dif_neg h, if_neg (by omega)]

theorem drain_eq : ∀ (n : Nat) (data : Sector) (off : Nat) (m : Mem) (a : Nat),
    (∀ i : Fin 512, m (a + i.val) = data i) →
    drain data off n = (m.read (a + off) (min n (512 - off)), n - (512 - off)) := by
  intro n
  induction n with
  | zero => intro data off m a _; simp [drain]
  | succ n ih =>
    intro data off m a hm
    by_cases h : off < 512
    · have hmin : min (n + 1) (512 - off) = 1 + min n (512 - (off + 1)) := by omega
      rw [drain, dif_pos h, ih data (off + 1) m a hm, hmin, Mem.read_add]
      simp only [Mem.read, List.range_one, List.map_cons, List.map_nil, Nat.add_zero,
        hm ⟨off, h⟩, List.cons_append, List.nil_append, Prod.mk.injEq, List.cons.injEq, true_and]
      exact ⟨by rw [Nat.add_assoc], by omega⟩
    · rw [drain, dif_neg h, show 512 - off = 0 by omega]
      simp

/-! ### One sector -/

theorem diskBytes_sector (disk : Nat → Sector) (sector : Nat) (i : Fin 512) :
    diskBytes disk (512 * sector + i.val) = disk sector i := by
  have h1 : (512 * sector + i.val) / 512 = sector := by omega
  have h2 : (512 * sector + i.val) % 512 = i.val := by omega
  simp only [diskBytes, h1, h2]

theorem diskBytes_fill (disk : Nat → Sector) (sector off : Nat) (bs : List UInt8)
    (hoff : off < 512) :
    diskBytes (Function.update disk sector (fill (disk sector) off bs).1) =
      (diskBytes disk).write (512 * sector + off) (bs.take (512 - off)) := by
  funext i
  have hlen : (bs.take (512 - off)).length = min (512 - off) bs.length := List.length_take
  by_cases hs : i / 512 = sector
  · have hi : 512 * sector + i % 512 = i := by omega
    simp only [diskBytes]
    rw [hs, Function.update_self, fill_fst]
    simp only
    by_cases hc : off ≤ i % 512 ∧ i % 512 < off + bs.length
    · rw [if_pos hc, Mem.write_of_mem _ _ (by omega) (by omega),
        show i - (512 * sector + off) = i % 512 - off by omega,
        List.getD_eq_getElem?_getD, List.getD_eq_getElem?_getD, List.getElem?_take,
        if_pos (by omega)]
    · rw [if_neg hc, Mem.write, if_neg (by omega), diskBytes, hs]
  · simp only [diskBytes]
    rw [Function.update_of_ne hs, Mem.write, if_neg (by omega), diskBytes]

/-! ### The sector loops -/

theorem writeSectors_partitions : ∀ (count : Nat) (dev : BlockDevice) (sector off : Nat)
    (bs : List UInt8), (writeSectors dev sector off bs count).partitions = dev.partitions := by
  intro count
  induction count with
  | zero => intros; rfl
  | succ n ih => intro dev sector off bs; rw [writeSectors, ih]; rfl

/-- **A write changes exactly its own bytes**, once the sectors cover them. -/
theorem writeSectors_bytes : ∀ (count : Nat) (dev : BlockDevice) (sector off : Nat)
    (bs : List UInt8), off < 512 → off + bs.length ≤ 512 * count →
    diskBytes (writeSectors dev sector off bs count).disk =
      (diskBytes dev.disk).write (512 * sector + off) bs := by
  intro count
  induction count with
  | zero =>
    intro dev sector off bs _ hlen
    have hbs : bs = [] := List.length_eq_zero_iff.mp (by omega)
    rw [hbs, Mem.write_nil, writeSectors]
  | succ n ih =>
    intro dev sector off bs hoff hlen
    have hd := diskBytes_fill dev.disk sector off bs hoff
    simp only [writeSectors, BlockDevice.blockRead, BlockDevice.blockWrite]
    rw [fill_snd, ih _ _ _ _ (by decide) (by rw [List.length_drop]; omega)]
    simp only
    rw [hd]
    by_cases hl : bs.length ≤ 512 - off
    · rw [List.take_of_length_le hl, List.drop_eq_nil_of_le hl, Mem.write_nil]
    · have hpos : 512 * (sector + 1) + 0 = 512 * sector + off + (bs.take (512 - off)).length := by
        rw [List.length_take]
        omega
      rw [hpos, ← Mem.write_append, List.take_append_drop]

theorem writeSectors_cache : ∀ (count : Nat) (dev : BlockDevice) (sector off : Nat)
    (bs : List UInt8), 0 < count ∨ dev.cache.isValid = false →
    (writeSectors dev sector off bs count).cache.isValid = false := by
  intro count
  induction count with
  | zero => intro dev sector off bs h; exact h.resolve_left (by omega)
  | succ n ih => intro dev sector off bs _; rw [writeSectors]; exact ih _ _ _ _ (.inr rfl)

theorem loadCache_disk (dev : BlockDevice) (sector : Nat) :
    (loadCache dev sector).disk = dev.disk := by
  unfold loadCache
  split <;> rfl

theorem loadCache_partitions (dev : BlockDevice) (sector : Nat) :
    (loadCache dev sector).partitions = dev.partitions := by
  unfold loadCache
  split <;> rfl

theorem loadCache_data {dev : BlockDevice} (h : Coherent dev) (sector : Nat) :
    (loadCache dev sector).cache.data = dev.disk sector ∧ Coherent (loadCache dev sector) := by
  unfold loadCache
  split
  · exact ⟨rfl, fun _ => rfl⟩
  · next hc =>
    simp only [ne_eq, not_or, not_not, Bool.not_eq_false] at hc
    exact ⟨hc.1 ▸ h hc.2, h⟩

/-- **A read returns the bytes of the disk**, once the sectors cover them, and
changes nothing but the cache. -/
theorem readSectors_bytes : ∀ (count : Nat) (dev : BlockDevice) (sector off n : Nat),
    Coherent dev → off < 512 → off + n ≤ 512 * count →
    (readSectors dev sector off n count).2 = (diskBytes dev.disk).read (512 * sector + off) n ∧
      (readSectors dev sector off n count).1.disk = dev.disk ∧
      (readSectors dev sector off n count).1.partitions = dev.partitions ∧
      Coherent (readSectors dev sector off n count).1 := by
  intro count
  induction count with
  | zero =>
    intro dev sector off n hc _ hn
    have : n = 0 := by omega
    subst this
    exact ⟨rfl, rfl, rfl, hc⟩
  | succ k ih =>
    intro dev sector off n hc hoff hn
    obtain ⟨hdata, hc'⟩ := loadCache_data hc sector
    have hdr := drain_eq n (loadCache dev sector).cache.data off (diskBytes dev.disk)
      (512 * sector) (fun i => by rw [hdata, diskBytes_sector])
    obtain ⟨h1, h2, h3, h4⟩ := ih (loadCache dev sector) (sector + 1) 0 (n - (512 - off)) hc'
      (by decide) (by omega)
    simp only [readSectors, hdr]
    rw [h1, h2, h3, loadCache_disk, loadCache_partitions]
    refine ⟨?_, rfl, rfl, h4⟩
    by_cases hl : n ≤ 512 - off
    · rw [Nat.min_eq_left hl, Nat.sub_eq_zero_of_le hl, Mem.read_zero, List.append_nil]
    · rw [Nat.min_eq_right (by omega), show 512 * (sector + 1) + 0 = 512 * sector + off + (512 - off)
        by omega, ← Mem.read_add, show 512 - off + (n - (512 - off)) = n by omega]

/-! ### The specification -/

/-- A call, with what a read returned. -/
inductive BlockOp
  | read (id : VNodeData) (offset numBytes : Nat) (bytes : List UInt8)
  | write (id : VNodeData) (offset : Nat) (bytes : List UInt8)

/-- The device number and the partition an inode stands for. -/
def locate (table : List (List BlockDevicePartition)) (id : VNodeData) :
    Option (Nat × BlockDevicePartition) :=
  if id.mountId = 0 ∧ id.inode ≠ devRootDirInodeNum then
    (table[id.inode / 2 ^ 16 % 2 ^ 16]?.bind (·[id.inode % 2 ^ 16]?)).map
      (id.inode / 2 ^ 16 % 2 ^ 16, ·)
  else none

/-- **The specification**: a byte array per device. -/
def byteArrays (table : List (List BlockDevicePartition)) : Lts (Nat → Mem) BlockOp where
  init _ := True
  step m op m' := match op with
    | .read id offset numBytes bytes => ∃ k part, locate table id = some (k, part) ∧
        bytes = (m k).read (part.byteOffset + offset) numBytes ∧ m' = m
    | .write id offset bytes => ∃ k part, locate table id = some (k, part) ∧
        m' = Function.update m k ((m k).write (part.byteOffset + offset) bytes)

/-- The block layer, started with no cache marked valid. -/
def blockLayer : Lts (List BlockDevice) BlockOp where
  init devs := ∀ dev ∈ devs, dev.cache.isValid = false
  step devs op devs' := match op with
    | .read id offset numBytes bytes =>
        blockdevReadFile devs id offset numBytes = .ok (devs', numBytes, bytes)
    | .write id offset bytes => blockdevWriteFile devs id offset bytes = .ok (devs', bytes.length)

/-- At least one byte, and no sum past 64 bits. -/
def NoWrap (devs : List BlockDevice) (op : BlockOp) : Prop :=
  match op with
  | .read id offset numBytes _ => 1 ≤ numBytes ∧
      ∀ k dev part, getBlockDevice devs id = .ok (k, dev, part) →
        offset + part.byteOffset + numBytes < 2 ^ 64
  | .write id offset bytes => 1 ≤ bytes.length ∧
      ∀ k dev part, getBlockDevice devs id = .ok (k, dev, part) →
        offset + part.byteOffset + bytes.length < 2 ^ 64

def tableOf (devs : List BlockDevice) : List (List BlockDevicePartition) :=
  devs.map BlockDevice.partitions

theorem getBlockDevice_eq_ok {devs : List BlockDevice} {id : VNodeData} {k : Nat}
    {dev : BlockDevice} {part : BlockDevicePartition}
    (h : getBlockDevice devs id = .ok (k, dev, part)) :
    locate (tableOf devs) id = some (k, part) ∧ devs[k]? = some dev := by
  simp only [getBlockDevice, bind_eq_ok, ensure_eq_ok, orHalt_eq_ok, pure_eq_ok, Except.ok.injEq,
    Prod.mk.injEq, exists_const] at h
  obtain ⟨hm, hr, dev', hd, part', hp, rfl, rfl, rfl⟩ := h
  refine ⟨?_, hd⟩
  rw [locate, if_pos ⟨hm, hr⟩, tableOf, List.getElem?_map, hd, Option.map_some, Option.bind_some,
    hp, Option.map_some]

theorem getBlockDevice_of_locate {devs : List BlockDevice} {id : VNodeData} {k : Nat}
    {part : BlockDevicePartition} (h : locate (tableOf devs) id = some (k, part)) :
    ∃ dev, getBlockDevice devs id = .ok (k, dev, part) := by
  unfold locate at h
  split at h
  · next hg =>
    rw [tableOf, List.getElem?_map] at h
    cases hd : devs[id.inode / 2 ^ 16 % 2 ^ 16]? with
    | none =>
      rw [hd, Option.map_none, Option.bind_none] at h
      exact absurd h (Option.some_ne_none _).symm
    | some dev =>
      cases hp : dev.partitions[id.inode % 2 ^ 16]? with
      | none =>
        rw [hd, Option.map_some, Option.bind_some, hp, Option.map_none] at h
        exact absurd h (Option.some_ne_none _).symm
      | some part' =>
        simp only [hd, Option.map_some, Option.bind_some, hp, Option.some.injEq,
          Prod.mk.injEq] at h
        obtain ⟨rfl, rfl⟩ := h
        refine ⟨dev, ?_⟩
        rw [getBlockDevice, ensure_of hg.1, ok_bind, ensure_of hg.2, ok_bind]
        simp only [hd, hp, orHalt_some, ok_bind, pure_eq_ok]
  · exact absurd h (by simp)

theorem sectorCount_covers {offset n : Nat} (h1 : 1 ≤ n) (h2 : offset + n < 2 ^ 64) :
    offset % 512 + n ≤ 512 * sectorCount offset n ∧ 0 < sectorCount offset n := by
  have hu : u64 (offset + n + (2 ^ 64 - 1)) = offset + n - 1 := by
    unfold u64
    omega
  simp only [sectorCount, hu, blockDeviceReadSize]
  omega

/-- The device table holds the byte arrays, and every cache is coherent. -/
structure Holds (table : List (List BlockDevicePartition)) (devs : List BlockDevice)
    (m : Nat → Mem) : Prop where
  table : tableOf devs = table
  bytes : ∀ k dev, devs[k]? = some dev → diskBytes dev.disk = m k
  coherent : ∀ dev ∈ devs, Coherent dev

theorem Holds.set {table : List (List BlockDevicePartition)} {devs : List BlockDevice}
    {m : Nat → Mem} (h : Holds table devs m) {k : Nat} {dev dev' : BlockDevice}
    (hk : devs[k]? = some dev) (hp : dev'.partitions = dev.partitions) (hc : Coherent dev') :
    Holds table (devs.set k dev') (Function.update m k (diskBytes dev'.disk)) where
  table := by
    have hself : devs.set k dev = devs := by
      obtain ⟨hlt, rfl⟩ := List.getElem?_eq_some_iff.mp hk
      exact List.set_getElem_self hlt
    rw [← h.table, tableOf, List.map_set, hp, ← List.map_set, hself, tableOf]
  bytes := by
    intro j d hj
    by_cases hjk : j = k
    · subst hjk
      have hlt : j < devs.length := (List.getElem?_eq_some_iff.mp hk).1
      rw [List.getElem?_set_self hlt] at hj
      rw [Function.update_self, Option.some.inj hj]
    · rw [List.getElem?_set_ne (Ne.symm hjk)] at hj
      rw [Function.update_of_ne hjk, h.bytes j d hj]
  coherent := by
    intro d hd
    rcases List.mem_or_eq_of_mem_set hd with hd | rfl
    · exact h.coherent d hd
    · exact hc

/-- **What a read does**, on bytes. -/
theorem blockdevReadFile_bytes {devs devs' : List BlockDevice} {id : VNodeData} {offset n k : Nat}
    {bytes : List UInt8} {dev : BlockDevice} {part : BlockDevicePartition}
    (hg : getBlockDevice devs id = .ok (k, dev, part)) (hc : Coherent dev) (hn : 1 ≤ n)
    (hlt : offset + part.byteOffset + n < 2 ^ 64)
    (h : blockdevReadFile devs id offset n = .ok (devs', n, bytes)) :
    ∃ dev', devs' = devs.set k dev' ∧ dev'.disk = dev.disk ∧ dev'.partitions = dev.partitions ∧
      Coherent dev' ∧ bytes = (diskBytes dev.disk).read (part.byteOffset + offset) n := by
  obtain ⟨hcov, -⟩ := sectorCount_covers hn hlt
  simp only [blockdevReadFile, hg, ok_bind, blockDeviceReadSize,
    u64_of_lt (show offset + part.byteOffset < 2 ^ 64 by omega), pure_eq_ok, Except.ok.injEq,
    Prod.mk.injEq] at h
  obtain ⟨h1, h2, h3, h4⟩ := readSectors_bytes _ dev ((offset + part.byteOffset) / 512) _ n hc
    (Nat.mod_lt _ (by decide)) hcov
  obtain ⟨rfl, -, rfl⟩ := h
  refine ⟨_, rfl, h2, h3, h4, ?_⟩
  rw [h1, show 512 * ((offset + part.byteOffset) / 512) + (offset + part.byteOffset) % 512 =
    part.byteOffset + offset by omega]

/-- **What a write does**, on bytes. -/
theorem blockdevWriteFile_bytes {devs devs' : List BlockDevice} {id : VNodeData} {offset k : Nat}
    {bytes : List UInt8} {dev : BlockDevice} {part : BlockDevicePartition}
    (hg : getBlockDevice devs id = .ok (k, dev, part)) (hn : 1 ≤ bytes.length)
    (hlt : offset + part.byteOffset + bytes.length < 2 ^ 64)
    (h : blockdevWriteFile devs id offset bytes = .ok (devs', bytes.length)) :
    ∃ dev', devs' = devs.set k dev' ∧ dev'.partitions = dev.partitions ∧
      dev'.cache.isValid = false ∧
      diskBytes dev'.disk = (diskBytes dev.disk).write (part.byteOffset + offset) bytes := by
  obtain ⟨hcov, hpos⟩ := sectorCount_covers hn hlt
  simp only [blockdevWriteFile, hg, ok_bind, blockDeviceReadSize,
    u64_of_lt (show offset + part.byteOffset < 2 ^ 64 by omega), pure_eq_ok, Except.ok.injEq,
    Prod.mk.injEq, and_true] at h
  have hw := writeSectors_bytes _ dev ((offset + part.byteOffset) / 512) _ bytes
    (Nat.mod_lt _ (by decide)) hcov
  subst h
  refine ⟨_, rfl, writeSectors_partitions _ _ _ _ _, writeSectors_cache _ _ _ _ _ (.inl hpos), ?_⟩
  rw [hw, show 512 * ((offset + part.byteOffset) / 512) + (offset + part.byteOffset) % 512 =
    part.byteOffset + offset by omega]

theorem blockLayer_simulates (table : List (List BlockDevicePartition)) :
    Lts.Simulation blockLayer (byteArrays table) NoWrap (Holds table) where
  step := by
    intro devs m op devs' hR hok hst
    cases op with
    | read id offset n bytes =>
      obtain ⟨⟨k, dev, part⟩, hg, -⟩ := bind_eq_ok.mp hst
      obtain ⟨hloc, hk⟩ := getBlockDevice_eq_ok hg
      rw [hR.table] at hloc
      obtain ⟨dev', rfl, hdisk, hpart, hc, rfl⟩ := blockdevReadFile_bytes hg
        (hR.coherent dev (List.mem_of_getElem? hk)) hok.1 (hok.2 k dev part hg) hst
      have hset := hR.set hk hpart hc
      rw [hdisk, hR.bytes k dev hk, Function.update_eq_self] at hset
      exact ⟨m, ⟨k, part, hloc, by rw [hR.bytes k dev hk], rfl⟩, hset⟩
    | write id offset bytes =>
      obtain ⟨⟨k, dev, part⟩, hg, -⟩ := bind_eq_ok.mp hst
      obtain ⟨hloc, hk⟩ := getBlockDevice_eq_ok hg
      rw [hR.table] at hloc
      obtain ⟨dev', rfl, hpart, hinv, hdisk⟩ :=
        blockdevWriteFile_bytes hg hok.1 (hok.2 k dev part hg) hst
      have hset := hR.set hk hpart (fun hv => by rw [hinv] at hv; cases hv)
      rw [hdisk, hR.bytes k dev hk] at hset
      exact ⟨_, ⟨k, part, hloc, rfl⟩, hset⟩

/-- The byte arrays a device table starts with. -/
def initialBytes (devs : List BlockDevice) (k : Nat) : Mem :=
  match devs[k]? with
  | some dev => diskBytes dev.disk
  | none => fun _ => 0

theorem holds_initial {devs : List BlockDevice} (h : blockLayer.init devs) :
    Holds (tableOf devs) devs (initialBytes devs) where
  table := rfl
  bytes := by
    intro k dev hk
    rw [initialBytes, hk]
  coherent := by
    intro dev hd hv
    rw [h dev hd] at hv
    cases hv

/-- A call on an inode that names a partition returns. -/
theorem blockdev_returns {devs : List BlockDevice} {id : VNodeData} {k : Nat}
    {part : BlockDevicePartition} (h : locate (tableOf devs) id = some (k, part)) (offset : Nat) :
    (∀ n, ∃ devs' bytes, blockdevReadFile devs id offset n = .ok (devs', n, bytes)) ∧
      ∀ bytes, ∃ devs', blockdevWriteFile devs id offset bytes = .ok (devs', bytes.length) := by
  obtain ⟨dev, hg⟩ := getBlockDevice_of_locate h
  constructor
  · intro n
    exact ⟨_, _, by rw [blockdevReadFile, hg]; rfl⟩
  · intro bytes
    exact ⟨_, by rw [blockdevWriteFile, hg]; rfl⟩

/-- **The block layer refines a byte array per device.**  Along every run of
reads and writes of at least one byte, on any partitions, the reads return what
the byte arrays hold, the disks hold the byte arrays, every valid cache holds the
content of its sector, and every further call on a partition returns. -/
theorem blockdev_refines_byteArrays {devs devs' : List BlockDevice} {l : List BlockOp}
    (hinit : ∀ dev ∈ devs, dev.cache.isValid = false) (h : blockLayer.Run NoWrap devs l devs') :
    ∃ m, (byteArrays (tableOf devs)).Run (fun _ _ => True) (initialBytes devs) l m ∧
      (∀ k dev, devs'[k]? = some dev → diskBytes dev.disk = m k) ∧
      (∀ dev ∈ devs', dev.cache.isValid = true →
        dev.cache.data = dev.disk dev.cache.sectorNumber) ∧
      ∀ id k part, locate (tableOf devs) id = some (k, part) → ∀ offset,
        (∀ n, ∃ devs'' bytes, blockdevReadFile devs' id offset n = .ok (devs'', n, bytes)) ∧
          ∀ bytes, ∃ devs'', blockdevWriteFile devs' id offset bytes = .ok (devs'', bytes.length) := by
  obtain ⟨m, hrun, hR⟩ := (blockLayer_simulates (tableOf devs)).run h (holds_initial hinit)
  refine ⟨m, hrun, hR.bytes, hR.coherent, ?_⟩
  intro id k part hl offset
  exact blockdev_returns (by rw [hR.table]; exact hl) offset

/-- A blank disk with one partition from its second sector on. -/
def blankDevice : BlockDevice where
  disk := fun _ _ => 0
  cache := { data := fun _ => 0, sectorNumber := 0, isValid := false }
  partitions := [⟨0, 0⟩, ⟨512, 1024⟩]

/-- Four bytes written across a sector boundary of the partition and read back
through the whole disk. -/
theorem blockdev_refines_byteArrays_two_sectors :
    ∃ devs' m, blockLayer.Run NoWrap [blankDevice]
        [.write ⟨1, 0⟩ 510 [1, 2, 3, 4], .read ⟨0, 0⟩ 1022 4 [1, 2, 3, 4]] devs' ∧
      (byteArrays (tableOf [blankDevice])).Run (fun _ _ => True) (initialBytes [blankDevice])
        [.write ⟨1, 0⟩ 510 [1, 2, 3, 4], .read ⟨0, 0⟩ 1022 4 [1, 2, 3, 4]] m := by
  have s1 : blockLayer.step [blankDevice] (.write ⟨1, 0⟩ 510 [1, 2, 3, 4])
      [writeSectors blankDevice 1 510 [1, 2, 3, 4] 2] := rfl
  have s2 : blockLayer.step [writeSectors blankDevice 1 510 [1, 2, 3, 4] 2]
      (.read ⟨0, 0⟩ 1022 4 [1, 2, 3, 4])
      [(readSectors (writeSectors blankDevice 1 510 [1, 2, 3, 4] 2) 1 510 4 2).1] := rfl
  have r : blockLayer.Run NoWrap [blankDevice]
      ([] ++ [.write ⟨1, 0⟩ 510 [1, 2, 3, 4]] ++ [.read ⟨0, 0⟩ 1022 4 [1, 2, 3, 4]]) _ :=
    ((Lts.Run.nil [blankDevice]).snoc
      ⟨by decide, by intro k dev part h; cases h; decide⟩ s1).snoc
      ⟨by decide, by intro k dev part h; cases h; decide⟩ s2
  obtain ⟨m, hm, -⟩ := blockdev_refines_byteArrays (by intro dev hd; cases hd with
    | head => rfl
    | tail _ hd => cases hd) r
  exact ⟨_, m, r, hm⟩

end Stuos.Fs.Dev
