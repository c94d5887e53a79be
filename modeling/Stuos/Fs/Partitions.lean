import Stuos.Fs.DevBytes

/-!
# Partitions

A partition of a master boot record is a range of bytes of its disk, and
`blockdev_read_file` and `blockdev_write_file` add its offset to theirs.  Neither looks at
its length.

A call *writes* a byte if some input makes it change, and *reads* it if what the call
returns depends on it.

* `partition_isolated_iff`: a call reads and writes bytes of its partition only, exactly
  when its range ends inside the partition, or when the end of the range wraps around
  64 bits and the loop over the sectors does not get out.
* `partition_write_past_end`: a write of one byte right at the end of a partition changes
  the first byte after it.
-/

namespace Stuos.Fs.Dev

open Stuos.Lib

/-- The tables of block devices: devices are added, and read and written. -/
inductive Attached : List BlockDevice → Prop
  | none : Attached []
  | add {devs devs' : List BlockDevice} {disk : Nat → Sector} {garbage : Sector} :
      Attached devs → fsDevAddBlockDevice devs disk garbage = .ok devs' → Attached devs'
  | step {devs devs' : List BlockDevice} {op : BlockOp} :
      Attached devs → blockLayer.step devs op devs' → Attached devs'

/-- The same devices and partitions, with any content. -/
structure Like (devs devs₁ : List BlockDevice) : Prop where
  table : tableOf devs₁ = tableOf devs
  coherent : ∀ dev ∈ devs₁, Coherent dev

/-- A write of `n` bytes at `offset` can change byte `b` of device `j`. -/
def Writes (devs : List BlockDevice) (id : VNodeData) (offset n j b : Nat) : Prop :=
  ∃ devs₁ devs₁' bytes, Like devs devs₁ ∧ bytes.length = n ∧
    blockdevWriteFile devs₁ id offset bytes = .ok (devs₁', n) ∧
    initialBytes devs₁' j b ≠ initialBytes devs₁ j b

/-- What a read of `n` bytes at `offset` returns depends on byte `b` of device `j`. -/
def Reads (devs : List BlockDevice) (id : VNodeData) (offset n j b : Nat) : Prop :=
  ∃ devs₁ devs₂ devs₁' devs₂' bytes₁ bytes₂, Like devs devs₁ ∧ Like devs devs₂ ∧
    (∀ i c, (i, c) ≠ (j, b) → initialBytes devs₁ i c = initialBytes devs₂ i c) ∧
    blockdevReadFile devs₁ id offset n = .ok (devs₁', n, bytes₁) ∧
    blockdevReadFile devs₂ id offset n = .ok (devs₂', n, bytes₂) ∧ bytes₁ ≠ bytes₂

/-- Reads and writes through the inode stay inside the partition. -/
def Isolated (devs : List BlockDevice) (id : VNodeData) (offset n k : Nat)
    (part : BlockDevicePartition) : Prop :=
  ∀ j b, Writes devs id offset n j b ∨ Reads devs id offset n j b →
    j = k ∧ part.byteOffset ≤ b ∧ b < part.byteOffset + part.byteLength

/-- The range ends inside the partition; or its end wraps around 64 bits, and the loop over
the sectors visits a sector of the partition only, or none. -/
def StaysInside (part : BlockDevicePartition) (offset n : Nat) : Prop :=
  offset + n ≤ part.byteLength ∨
    2 ^ 64 < u64 (offset + part.byteOffset) + n ∧
      (offset < part.byteLength ∨
        (u64 (offset + part.byteOffset) + n - 1 - 2 ^ 64) / 512 <
          u64 (offset + part.byteOffset) / 512)

/-- How many bytes from `offset` on a call of `n` bytes gets to. -/
def span (offset n : Nat) : Nat := min n (512 * sectorCount offset n - offset % 512)

/-! ### The sector loops, however many sectors there are -/

theorem fill_take (data : Sector) (off m : Nat) (bs : List UInt8) (h : 512 - off ≤ m) :
    (fill data off (bs.take m)).1 = (fill data off bs).1 := by
  funext i
  have hi := i.isLt
  rw [fill_fst, fill_fst, List.length_take]
  by_cases hc : off ≤ i.val ∧ i.val < off + bs.length
  · rw [if_pos hc, if_pos (by omega), List.getD_eq_getElem?_getD, List.getD_eq_getElem?_getD,
      List.getElem?_take, if_pos (by omega)]
  · rw [if_neg hc, if_neg (by omega)]

theorem writeSectors_take (dev : BlockDevice) (sector off : Nat) (bs : List UInt8) (count : Nat)
    (hoff : off < 512) :
    writeSectors dev sector off (bs.take (512 * count - off)) count =
      writeSectors dev sector off bs count := by
  induction count generalizing dev sector off bs with
  | zero => rfl
  | succ count ih =>
    have hdrop : (bs.take (512 * (count + 1) - off)).drop (512 - off) =
        (bs.drop (512 - off)).take (512 * count - 0) := by
      rw [List.drop_take]
      congr 1
      omega
    rw [writeSectors, writeSectors, fill_take _ _ _ _ (by omega), fill_snd, fill_snd, hdrop]
    exact ih _ _ _ _ (by decide)

/-- **What a write changes**: the bytes up to the last sector. -/
theorem writeSectors_span (dev : BlockDevice) (sector off : Nat) (bs : List UInt8) (count : Nat)
    (hoff : off < 512) :
    diskBytes (writeSectors dev sector off bs count).disk =
      (diskBytes dev.disk).write (512 * sector + off) (bs.take (512 * count - off)) := by
  cases count with
  | zero =>
    rw [Nat.mul_zero, Nat.zero_sub, List.take_zero, Mem.write_nil]
    rfl
  | succ count =>
    rw [← writeSectors_take dev sector off bs _ hoff]
    apply writeSectors_bytes _ dev sector off _ hoff
    rw [List.length_take]
    omega

/-- **What a read returns**: the bytes up to the last sector. -/
theorem readSectors_span (dev : BlockDevice) (sector off n count : Nat) (hc : Coherent dev)
    (hoff : off < 512) :
    (readSectors dev sector off n count).2 =
      (diskBytes dev.disk).read (512 * sector + off) (min n (512 * count - off)) := by
  induction count generalizing dev sector off n with
  | zero =>
    rw [Nat.mul_zero, Nat.zero_sub, Nat.min_zero, Mem.read_zero]
    rfl
  | succ count ih =>
    obtain ⟨hdata, hc'⟩ := loadCache_data hc sector
    have hdrain := drain_eq n (loadCache dev sector).cache.data off (diskBytes dev.disk)
      (512 * sector) (fun i => by rw [hdata, diskBytes_sector])
    have hrest := ih (loadCache dev sector) (sector + 1) 0 (n - (512 - off)) hc' (by decide)
    simp only [readSectors, hdrain]
    rw [hrest, loadCache_disk]
    by_cases hl : n ≤ 512 - off
    · have h0 : n - (512 - off) = 0 := by omega
      have hmin : min n (512 * (count + 1) - off) = n := by omega
      rw [Nat.min_eq_left hl, h0, Nat.zero_min, Mem.read_zero, List.append_nil, hmin]
    · have hstart : 512 * (sector + 1) + 0 = 512 * sector + off + (512 - off) := by omega
      have hlen : 512 - off + min (n - (512 - off)) (512 * count - 0) =
          min n (512 * (count + 1) - off) := by omega
      rw [Nat.min_eq_right (by omega), hstart, ← Mem.read_add, hlen]

/-! ### The calls -/

section

variable {devs devs' devs₁ : List BlockDevice} {id : VNodeData} {k offset n : Nat}
  {dev : BlockDevice} {part : BlockDevicePartition}

theorem initialBytes_of_getElem? (h : devs[k]? = some dev) :
    initialBytes devs k = diskBytes dev.disk := by
  rw [initialBytes, h]

theorem initialBytes_set (h : devs[k]? = some dev) (dev' : BlockDevice) (j : Nat) :
    initialBytes (devs.set k dev') j =
      if j = k then diskBytes dev'.disk else initialBytes devs j := by
  have hlt : k < devs.length := (List.getElem?_eq_some_iff.mp h).1
  unfold initialBytes
  by_cases hj : j = k
  · subst hj
    rw [if_pos rfl, List.getElem?_set_self hlt]
  · rw [if_neg hj, List.getElem?_set_ne (Ne.symm hj)]

theorem Like.getBlockDevice_eq (h : Like devs devs₁)
    (hg : getBlockDevice devs id = .ok (k, dev, part)) :
    ∃ dev₁, getBlockDevice devs₁ id = .ok (k, dev₁, part) ∧ devs₁[k]? = some dev₁ ∧
      Coherent dev₁ := by
  obtain ⟨hloc, -⟩ := getBlockDevice_eq_ok hg
  rw [← h.table] at hloc
  obtain ⟨dev₁, hg₁⟩ := getBlockDevice_of_locate hloc
  have hk := (getBlockDevice_eq_ok hg₁).2
  exact ⟨dev₁, hg₁, hk, h.coherent dev₁ (List.mem_of_getElem? hk)⟩

theorem sector_start (o : Nat) : 512 * (o / 512) + o % 512 = o := Nat.div_add_mod o 512

/-- **A write through an inode**: the bytes of its span. -/
theorem blockdevWriteFile_span (hg : getBlockDevice devs id = .ok (k, dev, part)) (offset : Nat)
    (bytes : List UInt8) :
    ∃ devs', blockdevWriteFile devs id offset bytes = .ok (devs', bytes.length) ∧
      ∀ j, initialBytes devs' j = if j = k then
        (initialBytes devs k).write (u64 (offset + part.byteOffset))
          (bytes.take (span (u64 (offset + part.byteOffset)) bytes.length))
        else initialBytes devs j := by
  have hk := (getBlockDevice_eq_ok hg).2
  refine ⟨_, by rw [blockdevWriteFile, hg]; rfl, fun j => ?_⟩
  rw [initialBytes_set hk, initialBytes_of_getElem? hk]
  split
  · have htake : ∀ m, bytes.take (min bytes.length m) = bytes.take m := by
      intro m
      rw [← List.take_take, List.take_of_length_le (List.length_take_le' _ _)]
    rw [writeSectors_span _ _ _ _ _ (Nat.mod_lt _ (by decide)), sector_start, span, htake]
  · rfl

/-- **A read through an inode**: the bytes of its span. -/
theorem blockdevReadFile_span (hg : getBlockDevice devs id = .ok (k, dev, part))
    (hc : Coherent dev) (offset n : Nat) :
    ∃ devs', blockdevReadFile devs id offset n = .ok (devs', n,
      (initialBytes devs k).read (u64 (offset + part.byteOffset))
        (span (u64 (offset + part.byteOffset)) n)) := by
  have hk := (getBlockDevice_eq_ok hg).2
  have hread := readSectors_span dev (u64 (offset + part.byteOffset) / 512)
    (u64 (offset + part.byteOffset) % 512) n (sectorCount (u64 (offset + part.byteOffset)) n) hc
    (Nat.mod_lt _ (by decide))
  rw [sector_start, ← initialBytes_of_getElem? hk, ← span] at hread
  rw [← hread, blockdevReadFile, hg]
  exact ⟨_, rfl⟩

theorem writes_imp {j b : Nat} (hg : getBlockDevice devs id = .ok (k, dev, part))
    (h : Writes devs id offset n j b) :
    j = k ∧ u64 (offset + part.byteOffset) ≤ b ∧
      b < u64 (offset + part.byteOffset) + span (u64 (offset + part.byteOffset)) n := by
  obtain ⟨devs₁, devs₁', bytes, hlike, rfl, hwrite, hne⟩ := h
  obtain ⟨dev₁, hg₁, -, -⟩ := hlike.getBlockDevice_eq hg
  obtain ⟨devs'', hok, hbytes⟩ := blockdevWriteFile_span hg₁ offset bytes
  rw [hok, Except.ok.injEq, Prod.mk.injEq] at hwrite
  obtain ⟨rfl, -⟩ := hwrite
  rw [hbytes j] at hne
  by_cases hj : j = k
  · refine ⟨hj, ?_⟩
    rw [if_pos hj, hj, Mem.write] at hne
    by_contra hout
    refine hne (if_neg fun hin => hout ⟨hin.1, Nat.lt_of_lt_of_le hin.2 ?_⟩)
    exact Nat.add_le_add_left (List.length_take_le _ _) _
  · rw [if_neg hj] at hne
    exact absurd rfl hne

theorem reads_imp {j b : Nat} (hg : getBlockDevice devs id = .ok (k, dev, part))
    (h : Reads devs id offset n j b) :
    j = k ∧ u64 (offset + part.byteOffset) ≤ b ∧
      b < u64 (offset + part.byteOffset) + span (u64 (offset + part.byteOffset)) n := by
  obtain ⟨devs₁, devs₂, devs₁', devs₂', bytes₁, bytes₂, hl₁, hl₂, hsame, hr₁, hr₂, hne⟩ := h
  obtain ⟨dev₁, hg₁, -, hc₁⟩ := hl₁.getBlockDevice_eq hg
  obtain ⟨dev₂, hg₂, -, hc₂⟩ := hl₂.getBlockDevice_eq hg
  obtain ⟨e₁, hok₁⟩ := blockdevReadFile_span hg₁ hc₁ offset n
  obtain ⟨e₂, hok₂⟩ := blockdevReadFile_span hg₂ hc₂ offset n
  rw [hok₁, Except.ok.injEq, Prod.mk.injEq, Prod.mk.injEq] at hr₁
  rw [hok₂, Except.ok.injEq, Prod.mk.injEq, Prod.mk.injEq] at hr₂
  by_contra hout
  refine hne (hr₁.2.2.symm.trans ((Mem.read_congr fun i h1 h2 => ?_).trans hr₂.2.2))
  apply hsame
  intro he
  rw [Prod.mk.injEq] at he
  obtain ⟨rfl, rfl⟩ := he
  exact hout ⟨rfl, h1, h2⟩

theorem writes_of_mem (hlike : Like devs devs) (hg : getBlockDevice devs id = .ok (k, dev, part))
    {b : Nat} (h1 : u64 (offset + part.byteOffset) ≤ b)
    (h2 : b < u64 (offset + part.byteOffset) + span (u64 (offset + part.byteOffset)) n) :
    Writes devs id offset n k b := by
  let bytes := List.replicate n (initialBytes devs k b + 1)
  have hlen : bytes.length = n := List.length_replicate
  obtain ⟨devs', hok, hbytes⟩ := blockdevWriteFile_span hg offset bytes
  rw [hlen] at hok hbytes
  refine ⟨devs, devs', bytes, hlike, hlen, hok, ?_⟩
  have hspan : span (u64 (offset + part.byteOffset)) n ≤ n := Nat.min_le_left _ _
  have htake : bytes.take (span (u64 (offset + part.byteOffset)) n) =
      List.replicate (span (u64 (offset + part.byteOffset)) n) (initialBytes devs k b + 1) := by
    rw [List.take_replicate, Nat.min_eq_left hspan]
  rw [hbytes k, if_pos rfl, htake, Mem.write_of_mem _ _ h1 (by rw [List.length_replicate]; omega),
    List.getD_eq_getElem?_getD, List.getElem?_replicate_of_lt (by omega)]
  simp

end

/-! ### Partitions of a master boot record -/

/-- Whole sectors, below four gigabytes. -/
structure BlockDevicePartition.Aligned (part : BlockDevicePartition) : Prop where
  offset : part.byteOffset % 512 = 0
  length : part.byteLength % 512 = 0
  offset_lt : part.byteOffset < 2 ^ 32
  length_lt : part.byteLength < 2 ^ 32

theorem mbrPartitions_aligned (mbr : Sector) (l : List Nat) :
    ∀ part ∈ mbrPartitions mbr l, part.Aligned := by
  induction l with
  | nil => exact fun part h => absurd h List.not_mem_nil
  | cons i l ih =>
    intro part h
    rw [mbrPartitions] at h
    split at h
    · exact absurd h List.not_mem_nil
    · rw [List.mem_cons] at h
      rcases h with rfl | h
      · constructor <;> simp only [blockDeviceReadSize] <;> omega
      · exact ih part h

/-- Reading and writing leave the partitions alone and the caches coherent. -/
structure WellAttached (devs : List BlockDevice) : Prop where
  aligned : ∀ dev ∈ devs, ∀ part ∈ dev.partitions.drop 1, part.Aligned
  coherent : ∀ dev ∈ devs, Coherent dev

theorem readSectors_keeps (dev : BlockDevice) (sector off n count : Nat) (hc : Coherent dev) :
    (readSectors dev sector off n count).1.partitions = dev.partitions ∧
      Coherent (readSectors dev sector off n count).1 := by
  induction count generalizing dev sector off n with
  | zero => exact ⟨rfl, hc⟩
  | succ count ih =>
    obtain ⟨hpart, hc'⟩ := ih (loadCache dev sector) (sector + 1) 0 _ (loadCache_data hc sector).2
    exact ⟨hpart.trans (loadCache_partitions dev sector), hc'⟩

theorem writeSectors_coherent (dev : BlockDevice) (sector off : Nat) (bs : List UInt8)
    (count : Nat) (hc : Coherent dev) : Coherent (writeSectors dev sector off bs count) := by
  cases count with
  | zero => exact hc
  | succ count =>
    intro hv
    rw [writeSectors_cache _ _ _ _ _ (.inl (Nat.succ_pos count))] at hv
    cases hv

theorem WellAttached.set {devs : List BlockDevice} (h : WellAttached devs) {k : Nat}
    {dev dev' : BlockDevice} (hk : devs[k]? = some dev) (hpart : dev'.partitions = dev.partitions)
    (hc : Coherent dev') : WellAttached (devs.set k dev') := by
  constructor
  · intro d hd
    rcases List.mem_or_eq_of_mem_set hd with hd | rfl
    · exact h.aligned d hd
    · rw [hpart]
      exact h.aligned dev (List.mem_of_getElem? hk)
  · intro d hd
    rcases List.mem_or_eq_of_mem_set hd with hd | rfl
    · exact h.coherent d hd
    · exact hc

theorem Attached.wellAttached {devs : List BlockDevice} (h : Attached devs) :
    WellAttached devs := by
  induction h with
  | none => exact ⟨fun d hd => absurd hd List.not_mem_nil, fun d hd => absurd hd List.not_mem_nil⟩
  | add _ hadd ih =>
    simp only [fsDevAddBlockDevice, bind_eq_ok, ensure_eq_ok, pure_eq_ok, Except.ok.injEq] at hadd
    obtain ⟨-, -, rfl⟩ := hadd
    constructor
    · intro d hd
      rw [List.mem_append, List.mem_singleton] at hd
      rcases hd with hd | rfl
      · exact ih.aligned d hd
      · intro part hpart
        rw [List.drop_succ_cons, List.drop_zero] at hpart
        split at hpart
        · exact mbrPartitions_aligned _ _ part hpart
        · exact absurd hpart List.not_mem_nil
    · intro d hd
      rw [List.mem_append, List.mem_singleton] at hd
      rcases hd with hd | rfl
      · exact ih.coherent d hd
      · exact fun hv => absurd hv Bool.false_ne_true
  | @step devs devs' op _ hstep ih =>
    cases op with
    | read id offset n bytes =>
      have hread : blockdevReadFile devs id offset n = .ok (devs', n, bytes) := hstep
      simp only [blockdevReadFile, bind_eq_ok, pure_eq_ok, Except.ok.injEq, Prod.mk.injEq] at hread
      obtain ⟨⟨k, dev, part⟩, hg, rfl, -, -⟩ := hread
      have hk := (getBlockDevice_eq_ok hg).2
      obtain ⟨hpart, hc⟩ := readSectors_keeps dev _ _ _ _ (ih.coherent dev (List.mem_of_getElem? hk))
      exact ih.set hk hpart hc
    | write id offset bytes =>
      have hwrite : blockdevWriteFile devs id offset bytes = .ok (devs', bytes.length) := hstep
      simp only [blockdevWriteFile, bind_eq_ok, pure_eq_ok, Except.ok.injEq, Prod.mk.injEq] at hwrite
      obtain ⟨⟨k, dev, part⟩, hg, rfl, -⟩ := hwrite
      have hk := (getBlockDevice_eq_ok hg).2
      exact ih.set hk (writeSectors_partitions _ _ _ _ _)
        (writeSectors_coherent _ _ _ _ _ (ih.coherent dev (List.mem_of_getElem? hk)))

/-! ### The span of a call -/

theorem span_of_le {o n : Nat} (hn : 1 ≤ n) (hlt : n < 2 ^ 64) (h : o + n ≤ 2 ^ 64) :
    span o n = n := by
  have hu : u64 (o + n + (2 ^ 64 - 1)) = o + n - 1 := by
    unfold u64
    omega
  simp only [span, sectorCount, hu, blockDeviceReadSize]
  omega

theorem span_of_gt {o n : Nat} (ho : o < 2 ^ 64) (hlt : n < 2 ^ 64) (h : 2 ^ 64 < o + n) :
    span o n = if (o + n - 1 - 2 ^ 64) / 512 < o / 512 then 0 else 512 - o % 512 := by
  have hu : u64 (o + n + (2 ^ 64 - 1)) = o + n - 1 - 2 ^ 64 := by
    unfold u64
    omega
  simp only [span, sectorCount, hu, blockDeviceReadSize]
  split <;> omega

/-- **When the span of a call is inside its partition.** -/
theorem span_inside_iff {part : BlockDevicePartition} (hp : part.Aligned) {offset n : Nat}
    (ho : offset < 2 ^ 64) (hn : 1 ≤ n) (hlt : n < 2 ^ 64) :
    (∀ b, u64 (offset + part.byteOffset) ≤ b →
      b < u64 (offset + part.byteOffset) + span (u64 (offset + part.byteOffset)) n →
      part.byteOffset ≤ b ∧ b < part.byteOffset + part.byteLength) ↔
    StaysInside part offset n := by
  obtain ⟨hp1, hp2, hp3, hp4⟩ := hp
  have hlow : part.byteOffset ≤ u64 (offset + part.byteOffset) →
      u64 (offset + part.byteOffset) = offset + part.byteOffset := by
    unfold u64
    omega
  have hsmall : offset < part.byteLength →
      u64 (offset + part.byteOffset) = offset + part.byteOffset := by
    unfold u64
    omega
  have hu : u64 (offset + part.byteOffset) < 2 ^ 64 := Nat.mod_lt _ (by decide)
  unfold StaysInside
  generalize u64 (offset + part.byteOffset) = o at hlow hsmall hu ⊢
  by_cases hwrap : o + n ≤ 2 ^ 64
  · rw [span_of_le hn hlt hwrap]
    constructor
    · intro hall
      have hfirst := hall o (le_refl _) (by omega)
      have hlast := hall (o + n - 1) (by omega) (by omega)
      have := hlow hfirst.1
      omega
    · rintro (hin | ⟨hgt, -⟩) b h1 h2
      · have := hsmall (by omega)
        omega
      · omega
  · rw [span_of_gt hu hlt (by omega)]
    constructor
    · intro hall
      by_cases hnone : (o + n - 1 - 2 ^ 64) / 512 < o / 512
      · exact .inr ⟨by omega, .inr hnone⟩
      · rw [if_neg hnone] at hall
        have hfirst := hall o (le_refl _) (by omega)
        have := hlow hfirst.1
        exact .inr ⟨by omega, .inl (by omega)⟩
    · rintro (hin | ⟨-, hin | hnone⟩) b h1 h2
      · have := hsmall (by omega)
        omega
      · have := hsmall hin
        split at h2 <;> omega
      · rw [if_pos hnone] at h2
        omega

/-- **Partition isolation.**  Through the inode of a partition of a master boot record, a
call reads and writes only bytes of the partition exactly when it stays inside. -/
theorem partition_isolated_iff {devs : List BlockDevice} {id : VNodeData} {k offset n : Nat}
    {dev : BlockDevice} {part : BlockDevicePartition} (hdevs : Attached devs)
    (hg : getBlockDevice devs id = .ok (k, dev, part)) (hid : 1 ≤ id.inode % 2 ^ 16)
    (ho : offset < 2 ^ 64) (hn : 1 ≤ n) (hlt : n < 2 ^ 64) :
    Isolated devs id offset n k part ↔ StaysInside part offset n := by
  have hwell := hdevs.wellAttached
  have hlike : Like devs devs := ⟨rfl, hwell.coherent⟩
  have haligned : part.Aligned := by
    have hg' := hg
    simp only [getBlockDevice, bind_eq_ok, ensure_eq_ok, orHalt_eq_ok, pure_eq_ok,
      Except.ok.injEq, Prod.mk.injEq, exists_const] at hg'
    obtain ⟨-, -, dev', hd, part', hp, -, rfl, rfl⟩ := hg'
    apply hwell.aligned dev' (List.mem_of_getElem? hd)
    apply List.mem_of_getElem? (i := id.inode % 2 ^ 16 - 1)
    rw [List.getElem?_drop, Nat.add_sub_cancel' hid, hp]
  rw [← span_inside_iff haligned ho hn hlt]
  constructor
  · intro hiso b h1 h2
    exact (hiso k b (.inl (writes_of_mem hlike hg h1 h2))).2
  · rintro hspan j b (hw | hr)
    · obtain ⟨hj, h1, h2⟩ := writes_imp hg hw
      exact ⟨hj, hspan b h1 h2⟩
    · obtain ⟨hj, h1, h2⟩ := reads_imp hg hr
      exact ⟨hj, hspan b h1 h2⟩

/-! ### Past the end -/

/-- A boot record with one partition: one sector, from the second sector on. -/
def oneSectorMbr : Sector := fun i =>
  if i.val = 454 ∨ i.val = 458 then 1
  else if i.val = 510 then 0x55 else if i.val = 511 then 0xAA else 0

/-- A disk with that boot record. -/
def smallDisk : Nat → Sector := fun s => if s = 0 then oneSectorMbr else fun _ => 0

def smallDevice : BlockDevice where
  disk := smallDisk
  cache := { data := fun _ => 0, sectorNumber := 0, isValid := false }
  partitions := [⟨0, 0⟩, ⟨512, 512⟩]

theorem smallDevice_added : fsDevAddBlockDevice [] smallDisk (fun _ => 0) = .ok [smallDevice] := by
  have hmbr : mbrPartitions (smallDisk 0) [0, 1, 2, 3] = [⟨512, 512⟩] := by decide
  have hsig : (smallDisk 0).le 510 2 = 0xAA55 := by decide
  rw [fsDevAddBlockDevice, ensure_of (by decide), ok_bind]
  simp only [hsig, if_true, hmbr]
  rfl

theorem smallDevice_attached : Attached [smallDevice] := .add .none smallDevice_added

theorem smallDevice_getBlockDevice :
    getBlockDevice [smallDevice] ⟨1, 0⟩ = .ok (0, smallDevice, ⟨512, 512⟩) := by
  rfl

theorem partition_isolated_first_byte :
    Isolated [smallDevice] ⟨1, 0⟩ 0 1 0 ⟨512, 512⟩ ∧ StaysInside ⟨512, 512⟩ 0 1 := by
  have hinside : StaysInside ⟨512, 512⟩ 0 1 := .inl (by decide)
  exact ⟨(partition_isolated_iff smallDevice_attached smallDevice_getBlockDevice (by decide)
    (by decide) (by decide) (by decide)).mpr hinside, hinside⟩

/-- **A write past the end of a partition** goes to the disk: at offset 512 of a partition
of 512 bytes, the first byte behind it is changed. -/
theorem partition_write_past_end :
    Attached [smallDevice] ∧
      getBlockDevice [smallDevice] ⟨1, 0⟩ = .ok (0, smallDevice, ⟨512, 512⟩) ∧
      Writes [smallDevice] ⟨1, 0⟩ 512 1 0 1024 ∧ ¬ Isolated [smallDevice] ⟨1, 0⟩ 512 1 0 ⟨512, 512⟩ := by
  have hlike : Like [smallDevice] [smallDevice] :=
    ⟨rfl, smallDevice_attached.wellAttached.coherent⟩
  have hwrites : Writes [smallDevice] ⟨1, 0⟩ 512 1 0 1024 :=
    writes_of_mem hlike smallDevice_getBlockDevice (by decide) (by decide)
  refine ⟨smallDevice_attached, smallDevice_getBlockDevice, hwrites, fun hiso => ?_⟩
  exact absurd (hiso 0 1024 (.inl hwrites)).2.2 (by decide)

end Stuos.Fs.Dev
