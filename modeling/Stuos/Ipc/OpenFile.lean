import Stuos.Fs.Fat.Integrity
import Stuos.Fs.Partitions
import Stuos.Lib.Overwrite

/-!
# Open files

The file half of `pipes_and_files.c`.  `fop_generate_file` keeps a node and an offset; a read moves
the offset on by what it returned, `lseek` sets it, and a write leaves it where it is.

* `fatNode`, `blockNode`: the nodes that can be written, regular files of a FAT volume and block
  devices.
* `writeAll_region`: buffers that are written one after another all go to the same place.
* `sequential_writes_iff`: the region holds the buffers one behind the other only if at most one of
  them has bytes, or if the bytes happen to be there.
-/

namespace Stuos.Ipc

open Stuos.Lib
open Stuos.Fs

variable {σ ε : Type}

/-- The functions of a node that an open file calls, on the filesystem that it lives in. -/
structure VNode (σ ε : Type) where
  writeFile : σ → Nat → List UInt8 → Except ε (σ × Nat)
  readFile : σ → Nat → Nat → Except ε (σ × List UInt8)

/-- `struct OpenVnodeSpecialData`: the offset, with the filesystem beside it. -/
structure OpenVnodeSpecialData (σ : Type) where
  fs : σ
  offset : Nat

def fileWrite (file : VNode σ ε) (data : OpenVnodeSpecialData σ) (inputBuf : List UInt8) :
    Except ε (OpenVnodeSpecialData σ × Nat) := do
  let (fs, n) ← file.writeFile data.fs data.offset inputBuf
  return ({ data with fs }, n)

def fileRead (file : VNode σ ε) (data : OpenVnodeSpecialData σ) (num : Nat) :
    Except ε (OpenVnodeSpecialData σ × List UInt8) := do
  let (fs, bytes) ← file.readFile data.fs data.offset num
  -- skip forward
  return ({ fs, offset := u64 (data.offset + bytes.length) }, bytes)

/-- `file_lseek`; any `whence` but 0 is an `HCF`. -/
def fileLseek (data : OpenVnodeSpecialData σ) (off whence : Int) :
    Option (OpenVnodeSpecialData σ) :=
  if whence = 0 then some { data with offset := (off % 2 ^ 64).toNat } else none

/-- Buffers written one after another through the same open file. -/
def writeAll (file : VNode σ ε) (data : OpenVnodeSpecialData σ) (bufs : List (List UInt8)) :
    Except ε (OpenVnodeSpecialData σ) :=
  bufs.foldlM (fun data buf => (fileWrite file data buf).map Prod.fst) data

/-- A regular file of a FAT volume. -/
def fatNode (vol : Fat.Fat16Volume) (ino : Nat) : VNode Mem Fat.Halt where
  writeFile disk offset inputBuf :=
    (Fat.writeFile vol disk ino offset inputBuf).map fun disk => (disk, inputBuf.length)
  readFile disk offset num := (Fat.readFile vol disk ino offset num).map fun bytes => (disk, bytes)

/-- A block device. -/
def blockNode (id : VNodeData) : VNode (List Dev.BlockDevice) Dev.Halt where
  writeFile devs offset inputBuf := Dev.blockdevWriteFile devs id offset inputBuf
  readFile devs offset num :=
    (Dev.blockdevReadFile devs id offset num).map fun result => (result.1, result.2.2)

/-! ### Writing at one place -/

theorem fileWrite_eq_ok {file : VNode σ ε} {data data' : OpenVnodeSpecialData σ} {n : Nat}
    {buf : List UInt8} (h : fileWrite file data buf = .ok (data', n)) :
    file.writeFile data.fs data.offset buf = .ok (data'.fs, n) ∧ data'.offset = data.offset := by
  rw [fileWrite, bind_eq_ok] at h
  obtain ⟨⟨fs, m⟩, hwrite, h⟩ := h
  cases h
  exact ⟨hwrite, rfl⟩

/-- **Buffers one after another.**  What a write does to the bytes from the offset on is done again
and again at the same offset. -/
theorem writeAll_region {file : VNode σ ε} {o : Nat} {R : σ → List UInt8 → Prop}
    {bufs : List (List UInt8)}
    (hwrite : ∀ buf ∈ bufs, ∀ fs fs' r n, R fs r → file.writeFile fs o buf = .ok (fs', n) →
      R fs' (overwrite r buf))
    {data data' : OpenVnodeSpecialData σ} {r : List UInt8} (ho : data.offset = o) (hR : R data.fs r)
    (h : writeAll file data bufs = .ok data') :
    data'.offset = o ∧ R data'.fs (bufs.foldl overwrite r) := by
  induction bufs generalizing data r with
  | nil =>
    cases h
    exact ⟨ho, hR⟩
  | cons buf bufs ih =>
    rw [writeAll, List.foldlM_cons, bind_eq_ok] at h
    obtain ⟨data₁, hfirst, hrest⟩ := h
    obtain ⟨⟨data₂, n⟩, hcall, rfl⟩ := map_eq_ok.mp hfirst
    obtain ⟨hnode, hoff⟩ := fileWrite_eq_ok hcall
    rw [ho] at hnode
    exact ih (fun b hb => hwrite b (List.mem_cons_of_mem _ hb)) (hoff.trans ho)
      (hwrite buf List.mem_cons_self _ _ _ _ hR hnode) hrest

/-! ### Bytes -/

theorem drop_read (m : Mem) (a n k : Nat) : (m.read a n).drop k = m.read (a + k) (n - k) := by
  apply List.ext_getElem?
  intro i
  rw [List.getElem?_drop, Mem.read_getElem?, Mem.read_getElem?, Nat.add_assoc]
  split <;> split <;> first | rfl | omega

theorem take_read (m : Mem) (a n k : Nat) : (m.read a n).take k = m.read a (min k n) := by
  apply List.ext_getElem?
  intro i
  rw [List.getElem?_take, Mem.read_getElem?, Mem.read_getElem?]
  by_cases hk : i < k
  · by_cases hn : i < n
    · rw [if_pos hk, if_pos hn, if_pos (by omega)]
    · rw [if_pos hk, if_neg hn, if_neg (by omega)]
  · rw [if_neg hk, if_neg (by omega)]

theorem read_overwrite {m m' : Mem} {a n : Nat} {b : List UInt8}
    (hin : ∀ i, a ≤ i → i < a + b.length → m' i = m.write a b i)
    (hrest : ∀ i, a + b.length ≤ i → i < a + n → m' i = m i) :
    m'.read a (max n b.length) = overwrite (m.read a n) b := by
  have hmax : max n b.length = b.length + (n - b.length) := by omega
  rw [hmax, Mem.read_add, overwrite, drop_read]
  congr 1
  · rw [Mem.read_congr hin, Mem.read_write_self]
  · exact Mem.read_congr fun i h1 h2 => hrest i h1 (by omega)

/-! ### Regular files -/

namespace Fat

open Stuos.Fs.Fat

variable {vol : Fat16Volume} {disk disk' : Mem} {E : Nat → Nat → Prop} {ino : Nat}

/-- The file has the bytes `r` from the offset `o` to its end. -/
structure FileRegion (vol : Fat16Volume) (E : Nat → Nat → Prop) (ino o : Nat) (disk : Mem)
    (r : List UInt8) : Prop where
  sound : Sound vol (view vol disk) E []
  stat : ∃ stat, statFile vol disk ino = .ok stat ∧ sIsdir stat.stMode = false ∧
    (o < stat.stSize → stat.stSize ≤ capacity vol (nodeChain vol (view vol disk) ino)) ∧
    r = (nodeBytes vol (view vol disk) ino).read o (stat.stSize - o)

/-- **A write at the offset** goes over the front of the bytes there. -/
theorem FileRegion.write (hg : Geometry vol) (he : IsNode E ino) {o : Nat} (ho : o < 2 ^ 64)
    {r buf : List UInt8} (h : FileRegion vol E ino o disk r)
    (hw : writeFile vol disk ino o buf = .ok disk') :
    FileRegion vol E ino o disk' (overwrite r buf) := by
  obtain ⟨hs, stat, hstat, hreg, hcap, rfl⟩ := h
  obtain ⟨rec, hc, -, hname, -, hsize, hbytes, hroom⟩ := writeFile_changed hg hs he hw
  have hold := (file_of_stat hg (hs.hasDirent he) hstat hreg).2
  have hstat' := hc.statFile_self hg hs he hname hstat
  have hgrow : capacity vol (nodeChain vol (view vol disk) ino) ≤
      capacity vol (nodeChain vol (view vol disk') ino) :=
    Nat.mul_le_mul_right _ hc.chain.length_le
  have hlt : capacity vol (nodeChain vol (view vol disk') ino) < 2 ^ 32 :=
    capacity_lt hg (hc.sound.chainOf he).length_le
  have hend : o + buf.length < 2 ^ 64 ∧ (buf ≠ [] →
      o + buf.length ≤ capacity vol (nodeChain vol (view vol disk') ino)) := by
    by_cases hne : buf = []
    · subst hne
      exact ⟨ho, fun h => absurd rfl h⟩
    · have := hroom hne
      exact ⟨by omega, fun _ => by omega⟩
  have hsize' : rec.fileSizeBytes =
      if o + buf.length > stat.stSize then o + buf.length else stat.stSize := by
    rw [hsize, ← hold, sizeAfter, u64_of_lt hend.1]
  refine ⟨hc.sound, _, hstat', hreg, ?_, ?_⟩
  · intro hlt'
    simp only [hsize'] at hlt' ⊢
    by_cases hne : buf = []
    · subst hne
      rw [List.length_nil] at hlt' ⊢
      split at hlt' <;> rename_i hcase
      · omega
      · rw [if_neg hcase]
        exact Nat.le_trans (hcap hlt') hgrow
    · have hfit := hend.2 hne
      have hpos := List.length_pos_iff.mpr hne
      split
      · exact hfit
      · exact Nat.le_trans (hcap (by omega)) hgrow
  · have hlen : rec.fileSizeBytes - o = max (stat.stSize - o) buf.length := by
      rw [hsize']
      split <;> omega
    rw [hlen]
    refine (read_overwrite (fun i h1 h2 => hbytes i (.inr ⟨h1, h2⟩)) fun i h1 h2 => ?_).symm
    have hfit := hcap (by omega)
    rw [hbytes i (.inl (by omega)), Mem.write_of_ge _ _ h1]

theorem FileRegion.read (hg : Geometry vol) (he : IsNode E ino) {o : Nat} {r : List UInt8}
    (h : FileRegion vol E ino o disk r) (hr : r ≠ []) {n : Nat} (hlt : o + n < 2 ^ 64) :
    readFile vol disk ino o n = .ok (r.take n) := by
  obtain ⟨hs, stat, hstat, hreg, hcap, rfl⟩ := h
  have ho : o < stat.stSize := by
    by_contra hge
    exact hr (by rw [Nat.sub_eq_zero_of_le (by omega), Mem.read_zero])
  rw [readFile_slice hg hs he hstat hreg (hcap ho) (Nat.le_of_lt ho) hlt, take_read]

end Fat

/-! ### Block devices -/

namespace Dev

open Stuos.Fs.Dev

variable {table : List (List BlockDevicePartition)} {devs devs' : List BlockDevice} {id : VNodeData}
  {k : Nat} {part : BlockDevicePartition}

/-- The device has the bytes `r` from offset `o` of the partition on. -/
def DeviceRegion (table : List (List BlockDevicePartition)) (k a len : Nat)
    (devs : List BlockDevice) (r : List UInt8) : Prop :=
  ∃ m, Holds table devs m ∧ (m k).read a len = r

/-- **A write at the offset** goes over the front of the bytes there. -/
theorem DeviceRegion.write (hid : locate table id = some (k, part)) {o len n : Nat}
    (hlt : o + part.byteOffset + len < 2 ^ 64) {r buf : List UInt8} (hbuf : buf.length ≤ len)
    (h : DeviceRegion table k (o + part.byteOffset) len devs r)
    (hw : blockdevWriteFile devs id o buf = .ok (devs', n)) :
    DeviceRegion table k (o + part.byteOffset) len devs' (overwrite r buf) := by
  obtain ⟨m, hm, rfl⟩ := h
  rw [← hm.table] at hid
  obtain ⟨dev, hg⟩ := getBlockDevice_of_locate hid
  have hk := (getBlockDevice_eq_ok hg).2
  have hu : u64 (o + part.byteOffset) = o + part.byteOffset := u64_of_lt (by omega)
  rw [blockdevWriteFile, hg] at hw
  cases hw
  simp only [hu]
  generalize o + part.byteOffset = a at hlt ⊢
  have hall : buf.take (512 * sectorCount a buf.length - a % 512) = buf := by
    by_cases hne : buf.length = 0
    · rw [List.length_eq_zero_iff.mp hne, List.take_nil]
    · have := (sectorCount_covers (Nat.one_le_iff_ne_zero.mpr hne)
        (show a + buf.length < 2 ^ 64 by omega)).1
      exact List.take_of_length_le (by omega)
  have hbytes := writeSectors_span dev (a / 512) (a % 512) buf (sectorCount a buf.length)
    (Nat.mod_lt _ (by decide))
  rw [sector_start, hall, hm.bytes k dev hk] at hbytes
  refine ⟨_, hm.set hk (writeSectors_partitions _ _ _ _ _) (writeSectors_coherent _ _ _ _ _
    (hm.coherent dev (List.mem_of_getElem? hk))), ?_⟩
  rw [Function.update_self, hbytes]
  have hmax : max len buf.length = len := by omega
  have hread : ((m k).write a buf).read a (max len buf.length) = overwrite ((m k).read a len) buf :=
    read_overwrite (fun i _ _ => rfl) fun i h1 _ => Mem.write_of_ge _ _ h1
  rwa [hmax] at hread

theorem DeviceRegion.read (hid : locate table id = some (k, part)) {o len : Nat} (hpos : 1 ≤ len)
    (hlt : o + part.byteOffset + len < 2 ^ 64) {r : List UInt8}
    (h : DeviceRegion table k (o + part.byteOffset) len devs r) :
    ∃ devs', blockdevReadFile devs id o len = .ok (devs', len, r) := by
  obtain ⟨m, hm, rfl⟩ := h
  rw [← hm.table] at hid
  obtain ⟨dev, hg⟩ := getBlockDevice_of_locate hid
  have hk := (getBlockDevice_eq_ok hg).2
  obtain ⟨devs', hread⟩ :=
    blockdevReadFile_span hg (hm.coherent dev (List.mem_of_getElem? hk)) o len
  rw [u64_of_lt (by omega), span_of_le hpos (by omega) (by omega), initialBytes_of_getElem? hk,
    hm.bytes k dev hk] at hread
  exact ⟨devs', hread⟩

end Dev

/-! ### Sequential writes -/

/-- Buffers that are all written over the front of `r` come to stand one behind the other: at most one
of them has bytes, or each byte happens to be the one written last, or there already. -/
def Appends (r : List UInt8) (bufs : List (List UInt8)) : Prop :=
  AtMostOne bufs ∨ bufs.flatten.length ≤ r.length ∧
    ∀ j < bufs.flatten.length, bufs.flatten[j]? = (lastLonger r bufs j)[j]?

theorem appends_iff (r : List UInt8) (bufs : List (List UInt8)) :
    bufs.flatten <+: bufs.foldl overwrite r ↔ Appends r bufs := flatten_prefix_iff r bufs

theorem foldl_overwrite_ne_nil (r : List UInt8) {bufs : List (List UInt8)} (h : bufs.flatten ≠ []) :
    bufs.foldl overwrite r ≠ [] := by
  obtain ⟨buf, hmem, hne⟩ : ∃ buf ∈ bufs, buf ≠ [] := by
    by_contra hall
    exact h (List.flatten_eq_nil_iff.mpr fun buf hbuf => by_contra fun hne => hall ⟨buf, hbuf, hne⟩)
  have hpos := List.length_pos_iff.mpr hne
  have hle := length_le_foldl_overwrite (r := r) hmem
  exact List.length_pos_iff.mp (by omega)

/-- **When sequential writes append.**  The buffers are written one after another through an open file
at the offset `o`: to a regular file of a well-formed volume, and to a block device.  The bytes there
begin with the buffers one behind the other exactly if at most one buffer has bytes, or if the file
was long enough before and each byte happens to be the one written last, or there already. -/
theorem sequential_writes_iff {vol : Fat.Fat16Volume} {disk : Mem} (hg : Fat.Geometry vol)
    (hwf : Fat.WellFormed vol (Fat.view vol disk)) (hfit : Fat.Fitting vol (Fat.view vol disk))
    {ino : Nat} (he : Fat.IsNode (Fat.Entry vol (Fat.view vol disk)) ino) {stat : Fat.Stat}
    (hstat : Fat.statFile vol disk ino = .ok stat) (hreg : sIsreg stat.stMode = true) :
    (∀ o bufs data', o + bufs.flatten.length < 2 ^ 64 →
      writeAll (fatNode vol ino) ⟨disk, o⟩ bufs = .ok data' →
      ((bufs.flatten ≠ [] → Fat.readFile vol data'.fs ino o bufs.flatten.length = .ok bufs.flatten) ↔
        Appends ((Fat.nodeBytes vol (Fat.view vol disk) ino).read o (stat.stSize - o)) bufs)) ∧
    ∀ devs, Dev.Attached devs → ∀ id k part, Dev.locate (Dev.tableOf devs) id = some (k, part) →
      ∀ o bufs data', o + part.byteOffset + bufs.flatten.length < 2 ^ 64 →
      writeAll (blockNode id) ⟨devs, o⟩ bufs = .ok data' →
      ((bufs.flatten ≠ [] → ∃ devs', Dev.blockdevReadFile data'.fs id o bufs.flatten.length =
          .ok (devs', bufs.flatten.length, bufs.flatten)) ↔
        Appends ((Dev.initialBytes devs k).read (o + part.byteOffset) bufs.flatten.length) bufs) := by
  constructor
  · intro o bufs data' hlt hrun
    have hnd := Fat.not_sIsdir_of_sIsreg hreg
    have hstart : Fat.FileRegion vol (Fat.Entry vol (Fat.view vol disk)) ino o disk
        ((Fat.nodeBytes vol (Fat.view vol disk) ino).read o (stat.stSize - o)) :=
      ⟨hwf.sound, stat, hstat, hnd, fun _ => hfit.file hg hwf he hstat hnd, rfl⟩
    obtain ⟨-, hregion⟩ := writeAll_region (fun buf _ fs fs' r n hr hw => by
      obtain ⟨disk', hcall, heq⟩ := map_eq_ok.mp hw
      cases heq
      exact hr.write hg he (by omega) hcall) rfl hstart hrun
    rw [← appends_iff]
    by_cases hne : bufs.flatten = []
    · exact ⟨fun _ => hne ▸ List.nil_prefix, fun _ h => absurd hne h⟩
    · rw [hregion.read hg he (foldl_overwrite_ne_nil _ hne) hlt, List.prefix_iff_eq_take,
        Except.ok.injEq, eq_comm]
      exact ⟨fun h => h hne, fun h _ => h⟩
  · intro devs hdevs id k part hid o bufs data' hlt hrun
    have hcoherent := hdevs.wellAttached.coherent
    have hstart : Dev.DeviceRegion (Dev.tableOf devs) k (o + part.byteOffset) bufs.flatten.length devs
        ((Dev.initialBytes devs k).read (o + part.byteOffset) bufs.flatten.length) :=
      ⟨Dev.initialBytes devs, ⟨rfl, fun j dev hj => (Dev.initialBytes_of_getElem? hj).symm, hcoherent⟩,
        rfl⟩
    obtain ⟨-, hregion⟩ := writeAll_region
      (R := Dev.DeviceRegion (Dev.tableOf devs) k (o + part.byteOffset) bufs.flatten.length)
      (fun buf hbuf fs fs' r n hr hw => hr.write hid hlt (length_le_flatten hbuf) hw) rfl hstart hrun
    rw [← appends_iff]
    by_cases hne : bufs.flatten = []
    · exact ⟨fun _ => hne ▸ List.nil_prefix, fun _ h => absurd hne h⟩
    · obtain ⟨devs', hread⟩ := hregion.read hid (List.length_pos_iff.mpr hne) hlt
      have hlen : (bufs.foldl overwrite ((Dev.initialBytes devs k).read (o + part.byteOffset)
          bufs.flatten.length)).length = bufs.flatten.length := by
        obtain ⟨m, -, hm⟩ := hregion
        rw [← hm, Mem.read_length]
      rw [List.prefix_iff_eq_take, List.take_of_length_le (Nat.le_of_eq hlen)]
      constructor
      · intro h
        obtain ⟨devs'', hread'⟩ := h hne
        rw [hread, Except.ok.injEq, Prod.mk.injEq, Prod.mk.injEq] at hread'
        exact hread'.2.2.symm
      · exact fun heq _ => ⟨devs', by rw [hread, ← heq]⟩

/-- One byte written to the file `A`, which has 1024 bytes. -/
theorem sequential_writes_one :
    ∃ data', writeAll (fatNode Fat.twoFats 0) ⟨Fat.twoFatsDisk.disk, 0⟩ [[7]] = .ok data' ∧
      Fat.readFile Fat.twoFats data'.fs 0 0 1 = .ok [7] := by
  have hstat : Fat.statFile Fat.twoFats Fat.twoFatsDisk.disk 0 =
      .ok { stIno := 0, stMode := sIfreg, stSize := 1024 } := by decide +kernel
  have hok : (writeAll (fatNode Fat.twoFats 0) ⟨Fat.twoFatsDisk.disk, 0⟩ [[7]]).isOk = true := by
    decide +kernel
  obtain ⟨data', hrun⟩ := exists_of_isOk hok
  have hiff := (sequential_writes_iff Fat.twoFats_geometry Fat.twoFatsDisk_wellFormed
    Fat.twoFatsDisk_fitting Fat.twoFatsDisk_isNode hstat (by decide)).1 0 [[7]] data' (by decide) hrun
  exact ⟨data', hrun, hiff.mpr (.inl (by decide)) (by decide)⟩

/-- **The second byte is written over the first one.**  The bytes 7 and 8, one after the other, to the
empty file `B`: it has one byte then. -/
theorem second_write_over_first :
    ∃ data', writeAll (fatNode Fat.twoFats 65536) ⟨Fat.twoFatsDisk.disk, 0⟩ [[7], [8]] = .ok data' ∧
      Fat.readFile Fat.twoFats data'.fs 65536 0 2 = .ok [8] := by
  have hread : (writeAll (fatNode Fat.twoFats 65536) ⟨Fat.twoFatsDisk.disk, 0⟩ [[7], [8]] >>=
      fun data' => Fat.readFile Fat.twoFats data'.fs 65536 0 2) = .ok [8] := by decide +kernel
  exact bind_eq_ok.mp hread

end Stuos.Ipc
