import Stuos.Fs.Fat.Chains
import Stuos.Fs.Fat.Files

/-!
# The copies of the table

A volume has `number_of_fats` copies of its file allocation table one behind the other,
and `write_fat` writes to the first one only.  So the copies stay equal as long as no call
allocates a cluster: `NoAllocation` says when that is, in terms of the entries that the
call comes past.

* `writeClusters_tables`, `writeToClusterChain_tables`: a write that stays within its chain
  leaves the tables alone.
* `exec_tables`: so does a call that does not allocate.
* `copies_equal_of_no_allocation`: the copies stay equal in every run of such calls.
-/

namespace Stuos.Fs.Fat

open Stuos.Lib

section

variable (vol : Fat16Volume)

/-- Bytes of one copy of the table. -/
def bytesPerFat : Nat := vol.numberOfSectorsPerFat * vol.bytesPerSector

/-- All copies of the table have the same bytes. -/
def CopiesEqual (disk : Mem) : Prop :=
  ∀ i < vol.numberOfFats, ∀ j < vol.numberOfFats, ∀ b < bytesPerFat vol,
    disk (fatStart vol + i * bytesPerFat vol + b) = disk (fatStart vol + j * bytesPerFat vol + b)

/-! ### Calls that do not allocate -/

/-- From the cluster `c` on, `n` entries lead to a next cluster. -/
def Passes (v : View) : Nat → Nat → Prop
  | 0, _ => True
  | n + 1, c => InRange vol c ∧ isEndOfLlNum (v.fat c) = false ∧ Passes v n (v.fat c)

/-- How many clusters a write of `len` bytes at `offset` comes past.  After the last byte it
still looks for the next cluster. -/
def turns (offset len : Nat) : Nat :=
  if len = 0 then 0 else (offset + len - 1) / bytesPerCluster vol + 1

/-- A write to the chain of `c` stays within the chain. -/
def Fits (v : View) (c offset len : Nat) : Prop := Passes vol v (turns vol offset len) c

/-- A write to the directory `d` stays within it. -/
def FitsDir (v : View) (d offset len : Nat) : Prop :=
  d = parentIsRootDir ∨ Fits vol v d offset len

/-- The entry of a node can be rewritten. -/
def FitsParent (v : View) (inodeNum : Nat) : Prop :=
  FitsDir vol v (getParentClusterNum inodeNum) (getDirentIndexInParent inodeNum * 32) 32

/-- **The call allocates no cluster**: a file that is written has a first cluster and is long
enough, a new node is no directory, and its entries fit into the parent. -/
def NoAllocation (s : FatState) : FatOp → Prop
  | .writeFile inodeNum offset inputBuf => FitsParent vol (view vol s.disk) inodeNum ∧
      ∀ e, readParentDirent vol s.disk inodeNum = .ok e →
        isInvalidClusterNum e.clusterNumber = false ∧
          Fits vol (view vol s.disk) e.clusterNumber offset inputBuf.length
  | .ftruncate inodeNum _ => FitsParent vol (view vol s.disk) inodeNum ∧
      ∀ e, readParentDirent vol s.disk inodeNum = .ok e →
        isInvalidClusterNum e.clusterNumber = false
  | .createInode parent newInodeType name => sIsdir newInodeType = false ∧
      (parent = iAmRootDir ∨ FitsParent vol (view vol s.disk) parent ∧
        ∀ e, readParentDirent vol s.disk parent = .ok e →
          Fits vol (view vol s.disk) e.clusterNumber ((e.fileSizeBytes + 2 ^ 32 - 32) % 2 ^ 32)
            (32 * (lfnEntryCount name + 2)))

end

variable {vol : Fat16Volume} {disk disk' disk'' : Mem} {c d : Nat}

/-! ### The tables stay -/

/-- Nothing is written to the tables. -/
def SameTables (vol : Fat16Volume) (disk disk' : Mem) : Prop :=
  ∀ a, a < rootStart vol → disk' a = disk a

theorem SameTables.refl (vol : Fat16Volume) (disk : Mem) : SameTables vol disk disk := fun _ _ => rfl

theorem SameTables.trans (h : SameTables vol disk disk') (h' : SameTables vol disk' disk'') :
    SameTables vol disk disk'' := fun a ha => (h' a ha).trans (h a ha)

theorem SameTables.of_write {a : Nat} (h : rootStart vol ≤ a) (bs : List UInt8) :
    SameTables vol disk (disk.write a bs) :=
  fun i hi => Mem.write_of_lt disk bs (by omega)

theorem SameTables.fat (hg : Geometry vol) (h : SameTables vol disk disk') :
    (view vol disk').fat = (view vol disk).fat := by
  funext c
  simp only [view]
  split
  · rename_i hc
    have h1 := hg.fat_le_rootStart
    have h2 := hc.entry_le
    rw [Mem.read_congr fun i _ hi => h i (by omega)]
  · rfl

theorem copies_le {i b : Nat} (hi : i < vol.numberOfFats) (hb : b < bytesPerFat vol) :
    fatStart vol + i * bytesPerFat vol + b < rootStart vol := by
  have h : (i + 1) * bytesPerFat vol ≤ vol.numberOfFats * bytesPerFat vol :=
    Nat.mul_le_mul_right _ hi
  have hroot : rootStart vol = fatStart vol + vol.numberOfFats * bytesPerFat vol := by
    rw [rootStart, fatStart, bytesPerFat, Nat.add_mul, Nat.mul_comm vol.numberOfSectorsPerFat,
      Nat.mul_assoc]
  rw [Nat.add_mul] at h
  omega

theorem SameTables.copiesEqual (h : SameTables vol disk disk') (heq : CopiesEqual vol disk) :
    CopiesEqual vol disk' := by
  intro i hi j hj b hb
  rw [h _ (copies_le hi hb), h _ (copies_le hj hb)]
  exact heq i hi j hj b hb

theorem Passes.congr {v v' : View} (heq : v'.fat = v.fat) : ∀ {n c : Nat}, Passes vol v n c →
    Passes vol v' n c := by
  intro n
  induction n with
  | zero => exact fun _ => trivial
  | succ n ih =>
    intro c h
    refine ⟨h.1, ?_, ?_⟩
    · rw [heq]
      exact h.2.1
    · rw [heq]
      exact ih h.2.2

theorem FitsDir.congr {v v' : View} (heq : v'.fat = v.fat) {offset len : Nat}
    (h : FitsDir vol v d offset len) : FitsDir vol v' d offset len :=
  h.imp_right fun hp => Passes.congr heq hp

/-! ### Writing -/

theorem nextOrAllocate_of_passes (hg : Geometry vol) (hc : InRange vol c)
    (hend : isEndOfLlNum ((view vol disk).fat c) = false) :
    nextOrAllocate vol disk c = .ok ((view vol disk).fat c, disk) := by
  rw [nextOrAllocate, readFat_view hg hc, ok_bind, hend]
  rfl

theorem sameTables_cluster (disk : Mem) (hg : Geometry vol) (hc : InRange vol c) {start : Nat}
    (hs : start ≤ bytesPerCluster vol) (bs : List UInt8) :
    SameTables vol disk (disk.write (clusterAddress vol c start) bs) := by
  apply SameTables.of_write
  rw [hg.clusterAddress_eq hc hs, dataStart]
  omega

/-- **The loop leaves the tables alone** if the `n` clusters from `c` on take all bytes. -/
theorem writeClusters_tables (hg : Geometry vol) {required start : Nat}
    (hstart : start < bytesPerCluster vol) (fuel : Nat) :
    ∀ (n i c : Nat) (input : List UInt8) (disk disk' : Mem), Passes vol (view vol disk) n c →
    position (bytesPerCluster vol) required start i + input.length ≤ n * bytesPerCluster vol →
    writeClusters vol required start fuel i c input disk = .ok disk' →
    SameTables vol disk disk' := by
  induction fuel with
  | zero =>
    intro n i c input disk disk' hp hlen h
    cases input with
    | nil => exact Except.ok.inj h ▸ .refl vol disk
    | cons byte input => simp [writeClusters] at h
  | succ fuel ih =>
    intro n i c input disk disk' hp hlen h
    cases input with
    | nil => exact Except.ok.inj h ▸ .refl vol disk
    | cons byte input =>
      rw [List.length_cons] at hlen
      obtain ⟨n, rfl⟩ : ∃ k, n = k + 1 := by
        cases n with
        | zero => omega
        | succ k => exact ⟨k, rfl⟩
      obtain ⟨hc, hend, hp⟩ := hp
      rw [Nat.succ_mul] at hlen
      rw [writeClusters] at h
      split at h
      · rename_i hreq
        -- bytes go to this cluster, and its entry is read from the same table
        have hs := startInCluster_lt hstart required i
        have hsame := sameTables_cluster disk hg hc (Nat.le_of_lt hs)
          ((byte :: input).take (bytesPerCluster vol - startInCluster required start i))
        have hfat := hsame.fat hg
        simp only at h
        rw [nextOrAllocate_of_passes hg hc (by rw [hfat]; exact hend), ok_bind, hfat] at h
        refine hsame.trans (ih n (i + 1) _ _ _ _ (hp.congr hfat) ?_ h)
        rw [position_of_le hreq] at hlen
        rw [position, if_neg (by omega), List.length_drop, List.length_cons]
        omega
      · rename_i hreq
        obtain ⟨hle, hpos⟩ := position_of_lt (bytesPerCluster vol) start
          (show i < required by omega)
        rw [nextOrAllocate_of_passes hg hc hend, ok_bind] at h
        refine ih n (i + 1) _ _ _ _ hp ?_ h
        rw [hpos, List.length_cons]
        omega

/-- **A write that stays within its chain** leaves the tables alone. -/
theorem writeToClusterChain_tables (hg : Geometry vol) {offset : Nat} {input : List UInt8}
    (hfits : Fits vol (view vol disk) c offset input.length)
    (h : writeToClusterChain vol disk c offset input = .ok disk') : SameTables vol disk disk' := by
  have hpos := hg.bytesPerCluster_pos
  rw [writeToClusterChain, bind_eq_ok] at h
  obtain ⟨-, -, h⟩ := h
  simp only [bind_eq_ok] at h
  obtain ⟨-, -, h⟩ := h
  cases input with
  | nil =>
    simp only [writeClusters, Except.ok.injEq] at h
    exact h ▸ .refl vol disk
  | cons byte input =>
    refine writeClusters_tables hg (Nat.mod_lt offset hpos) _ _ 0 c _ disk disk' hfits ?_ h
    rw [position_zero, turns, List.length_cons, if_neg (by omega), Nat.mul_comm]
    have := Nat.lt_mul_div_succ (offset + (input.length + 1) - 1) hpos
    omega

theorem writeToRootDir_tables (hg : Geometry vol) {offset : Nat} {input : List UInt8}
    (hlt : offset + input.length < 2 ^ 64) (h : writeToRootDir vol disk offset input = .ok disk') :
    SameTables vol disk disk' := by
  rw [writeToRootDir, checkRootDir] at h
  simp only [bind_eq_ok, ensure_eq_ok] at h
  obtain ⟨-, ⟨-, -, -, -, hin⟩, h⟩ := h
  have hroot : intU64 (vol.numberOfSectorsRootDirectory * vol.bytesPerSector) = rootBytes vol :=
    hg.intU64_rootBytes
  have hlt' := hg.dataStart_lt
  rw [dataStart] at hlt'
  rw [hroot, u64_of_lt hlt] at hin
  rw [hg.rootDirStartByte_eq, u64_of_lt (by omega), pure_eq_ok, Except.ok.injEq] at h
  rw [← h]
  exact .of_write (by omega) _

theorem writeParentDirent_tables (hg : Geometry vol) {inodeNum : Nat} {value : Fat16DirectoryEntry}
    (hfits : FitsParent vol (view vol disk) inodeNum)
    (h : writeParentDirent vol disk inodeNum value = .ok disk') : SameTables vol disk disk' := by
  rw [writeParentDirent, bind_eq_ok] at h
  obtain ⟨-, -, h⟩ := h
  rw [writeToDirectory] at h
  split at h
  · apply writeToRootDir_tables hg _ h
    have hidx : getDirentIndexInParent inodeNum < 2 ^ 16 := Nat.mod_lt _ (by decide)
    rw [Fat16DirectoryEntry.length_toBytes]
    omega
  · rename_i hroot
    have hfits' := hfits.resolve_left hroot
    rw [← value.length_toBytes] at hfits'
    exact writeToClusterChain_tables hg hfits' h

/-! ### The calls -/

theorem writeFile_tables (hg : Geometry vol) {inodeNum offset : Nat} {input : List UInt8}
    (hfits : FitsParent vol (view vol disk) inodeNum)
    (hentry : ∀ e, readParentDirent vol disk inodeNum = .ok e →
      isInvalidClusterNum e.clusterNumber = false ∧
        Fits vol (view vol disk) e.clusterNumber offset input.length)
    (h : writeFile vol disk inodeNum offset input = .ok disk') : SameTables vol disk disk' := by
  rw [writeFile] at h
  simp only [bind_eq_ok] at h
  obtain ⟨stat, -, -, -, e, he, ⟨e₁, disk₁⟩, hfirst, -, -, disk₂, hparent, h⟩ := h
  obtain ⟨hvalid, hfile⟩ := hentry e he
  rw [ensureFirstCluster, if_neg (by simp [hvalid])] at hfirst
  cases hfirst
  have h₂ := writeParentDirent_tables hg hfits hparent
  have hcluster : (if u64 (offset + input.length) > e.fileSizeBytes then
      e.withFileSizeBytes (u64 (offset + input.length)) else e).clusterNumber =
        e.clusterNumber := by
    split <;> rfl
  simp only [hcluster] at h
  have hfile₂ : Fits vol (view vol disk₂) e.clusterNumber offset input.length :=
    Passes.congr (h₂.fat hg) hfile
  exact h₂.trans (writeToClusterChain_tables hg hfile₂ h)

theorem ftruncate_tables (hg : Geometry vol) {inodeNum len : Nat}
    (hfits : FitsParent vol (view vol disk) inodeNum)
    (hentry : ∀ e, readParentDirent vol disk inodeNum = .ok e →
      isInvalidClusterNum e.clusterNumber = false)
    (h : ftruncate vol disk inodeNum len = .ok disk') : SameTables vol disk disk' := by
  rw [ftruncate] at h
  simp only [bind_eq_ok, ensure_eq_ok] at h
  obtain ⟨stat, -, -, -, e, he, ⟨e₁, disk₁⟩, hfirst, -, hlen, h⟩ := h
  rw [ensureFirstCluster, if_neg (by simp [hentry e he])] at hfirst
  cases hfirst
  have hsize : (e.withFileSizeBytes len).fileSizeBytes = len := by
    rw [uint32Max] at hlen
    exact e.fileSizeBytes_withFileSizeBytes (by omega)
  -- the size is already the new one, so nothing is filled up
  simp only [hsize, Nat.sub_self, Nat.zero_mod, List.replicate_zero, le_refl, if_true,
    bind_eq_ok] at h
  obtain ⟨disk₂, hzeroes, h⟩ := h
  have hfits₀ : Fits vol (view vol disk) (e.withFileSizeBytes len).clusterNumber len
      ([] : List UInt8).length := trivial
  have h₁ := writeToClusterChain_tables hg hfits₀ hzeroes
  exact h₁.trans (writeParentDirent_tables hg (FitsDir.congr (h₁.fat hg) hfits) h)

theorem findRootEnd_le {offset fuel r : Nat} (h : findRootEnd vol disk offset fuel = .ok r) :
    r ≤ offset + 32 * fuel := by
  induction fuel generalizing offset with
  | zero => simp [findRootEnd] at h
  | succ fuel ih =>
    rw [findRootEnd, bind_eq_ok] at h
    obtain ⟨bytes, -, h⟩ := h
    split at h
    · cases h
      omega
    · have := ih h
      omega

theorem length_lfnLoop (count : Nat) (sum : UInt8) (seq : Nat) (name : List UInt8)
    (made : List Fat16DirectoryEntry) :
    (lfnLoop count sum seq name made).length = seq + made.length := by
  induction seq generalizing name made with
  | zero => rw [lfnLoop, Nat.zero_add]
  | succ seq ih =>
    rw [lfnLoop, ih, List.length_cons]
    omega

theorem length_flatMap_toBytes (entries : List Fat16DirectoryEntry) :
    (entries.flatMap Fat16DirectoryEntry.toBytes).length = 32 * entries.length := by
  induction entries with
  | nil => rfl
  | cons e entries ih =>
    rw [List.flatMap_cons, List.length_append, Fat16DirectoryEntry.length_toBytes, ih,
      List.length_cons]
    omega

theorem insertEntries_tables (hg : Geometry vol) {parent n : Nat}
    {entries : List Fat16DirectoryEntry} (hlen : entries.length = n) (hn : n ≤ 65)
    (hparent : parent = iAmRootDir ∨ FitsParent vol (view vol disk) parent ∧
      ∀ e, readParentDirent vol disk parent = .ok e →
        Fits vol (view vol disk) e.clusterNumber ((e.fileSizeBytes + 2 ^ 32 - 32) % 2 ^ 32) (32 * n))
    (h : insertEntries vol disk parent entries = .ok disk') : SameTables vol disk disk' := by
  have hbytes := length_flatMap_toBytes entries
  rw [hlen] at hbytes
  rw [insertEntries] at h
  simp only at h
  split at h
  · rw [bind_eq_ok] at h
    obtain ⟨offset, hoff, h⟩ := h
    apply writeToRootDir_tables hg _ h
    have hle := findRootEnd_le hoff
    have hroot := hg.dataStart_lt
    have hdef : vol.numberOfSectorsRootDirectory * vol.bytesPerSector = rootBytes vol := rfl
    rw [dataStart] at hroot
    rw [hdef] at hle
    omega
  · rename_i hroot
    obtain ⟨hfits, hentry⟩ := hparent.resolve_left hroot
    simp only [bind_eq_ok] at h
    obtain ⟨e, he, disk₁, hwrite, h⟩ := h
    have h₁ := writeParentDirent_tables hg hfits hwrite
    have hchain := hentry e he
    rw [← hbytes] at hchain
    exact h₁.trans (writeToClusterChain_tables hg (Passes.congr (h₁.fat hg) hchain) h)

theorem createInode_tables (hg : Geometry vol) {s s' : FatState} {parent newInodeType : Nat}
    {name : List UInt8} (hno : NoAllocation vol s (.createInode parent newInodeType name))
    (h : createInode vol s parent newInodeType name = .ok s') :
    SameTables vol s.disk s'.disk := by
  obtain ⟨hreg, hparent⟩ := hno
  rw [createInode] at h
  simp only [bind_eq_ok, ensure_eq_ok] at h
  obtain ⟨stat, -, -, -, -, -, -, hroom, ⟨cluster, size, disk₁⟩, hnew, attributes, -, disk₂, hins, h⟩ := h
  rw [newNodeChain, if_neg (by simp [hreg])] at hnew
  cases hnew
  cases h
  refine insertEntries_tables hg ?_ hroom hparent hins
  rw [List.length_append, length_lfnLoop]
  simp

/-- **A call that does not allocate** leaves the tables alone. -/
theorem exec_tables (hg : Geometry vol) {s s' : FatState} {op : FatOp} (hno : NoAllocation vol s op)
    (h : op.exec vol s = .ok s') : SameTables vol s.disk s'.disk := by
  cases op with
  | createInode parent newInodeType name => exact createInode_tables hg hno h
  | writeFile inodeNum offset input =>
    exact writeFile_tables hg hno.1 hno.2 (FatOp.exec_writeFile vol h)
  | ftruncate inodeNum len =>
    exact ftruncate_tables hg hno.1 hno.2 (FatOp.exec_ftruncate vol h)

/-- **The copies of the table stay equal** in every run of calls that allocate no cluster. -/
theorem copies_equal_of_no_allocation (hg : Geometry vol) {s s' : FatState} {ops : List FatOp}
    (heq : CopiesEqual vol s.disk) (hrun : (fat vol).Run (NoAllocation vol) s ops s') :
    CopiesEqual vol s'.disk := by
  refine hrun.invariant (P := fun _ s => CopiesEqual vol s.disk) ?_ heq
  intro _ s op s' hs hno hstep
  exact (exec_tables hg hno hstep).copiesEqual hs

/-! ### A volume with two tables -/

def twoFats : Fat16Volume where
  fatsStartSector := 1
  numberOfFats := 2
  numberOfSectorsPerFat := 1
  bytesPerSector := 512
  sectorsPerCluster := 1
  numberOfSectorsRootDirectory := 1

/-- The start of both tables: the file in clusters 2 and 3. -/
def twoFatsTable : List UInt8 := [0xF8, 0xFF, 0xFF, 0xFF, 3, 0, 0xF8, 0xFF]

/-- A file `A` of two clusters and an empty file `B` in the root directory. -/
def twoFatsRoot : List UInt8 :=
  (Fat16DirectoryEntry.ofFields (fun i => if i.val = 0 then 65 else 32) 0 2 1024).toBytes ++
    (Fat16DirectoryEntry.ofFields (fun i => if i.val = 0 then 66 else 32) 0 0 0).toBytes

def twoFatsDisk : FatState where
  disk := Mem.write (Mem.write (Mem.write (fun _ => 0) 512 twoFatsTable) 1024 twoFatsTable) 1536
    twoFatsRoot
  createIdx := 0

theorem twoFats_geometry : Geometry twoFats := by
  refine ⟨?_, ?_, ?_, ?_, ?_, ?_, ?_⟩ <;> decide

theorem twoFatsDisk_copies : CopiesEqual twoFats twoFatsDisk.disk := by
  have hcopy : ∀ i < 2, ∀ b < 512, twoFatsDisk.disk (512 + i * 512 + b) =
      twoFatsTable.getD b 0 := by
    intro i hi b hb
    have hlen : twoFatsTable.length = 8 := rfl
    simp only [twoFatsDisk]
    rw [Mem.write_of_lt _ _ (by omega)]
    have h8 : ¬ b < 8 → twoFatsTable.getD b 0 = 0 := fun h =>
      List.getD_eq_default _ _ (by omega)
    rcases Nat.lt_or_ge i 1 with h1 | h1
    · obtain rfl : i = 0 := by omega
      rw [Mem.write_of_lt _ _ (by omega)]
      by_cases h : b < 8
      · rw [Mem.write_of_mem _ _ (by omega) (by omega), show 512 + 0 * 512 + b - 512 = b by omega]
      · rw [Mem.write_of_ge _ _ (by omega), h8 h]
    · obtain rfl : i = 1 := by omega
      by_cases h : b < 8
      · rw [Mem.write_of_mem _ _ (by omega) (by omega), show 512 + 1 * 512 + b - 1024 = b by omega]
      · rw [Mem.write_of_ge _ _ (by omega), Mem.write_of_ge _ _ (by omega), h8 h]
  intro i hi j hj b hb
  exact (hcopy i hi b hb).trans (hcopy j hj b hb).symm

/-- Writing one byte to the file `A` allocates nothing. -/
theorem copies_equal_after_write :
    ∃ s', (fat twoFats).Run (NoAllocation twoFats) twoFatsDisk [.writeFile 0 0 [1]] s' ∧
      CopiesEqual twoFats s'.disk := by
  have hno : NoAllocation twoFats twoFatsDisk (.writeFile 0 0 [1]) := by
    refine ⟨Or.inl rfl, fun e he => ?_⟩
    have hcluster : (readParentDirent twoFats twoFatsDisk.disk 0).map
        Fat16DirectoryEntry.clusterNumber = .ok 2 := by decide +kernel
    rw [he] at hcluster
    obtain hcluster : e.clusterNumber = 2 := Except.ok.inj hcluster
    rw [hcluster]
    exact ⟨by decide, by decide, by decide +kernel, trivial⟩
  have hok : (FatOp.exec twoFats twoFatsDisk (.writeFile 0 0 [1])).isOk = true := by
    decide +kernel
  obtain ⟨s', hexec⟩ := exists_of_isOk hok
  have hrun : (fat twoFats).Run (NoAllocation twoFats) twoFatsDisk [.writeFile 0 0 [1]] s' :=
    .snoc (.nil _) hno hexec
  exact ⟨s', hrun, copies_equal_of_no_allocation twoFats_geometry twoFatsDisk_copies hrun⟩

/-- Writing one byte to the empty file `B` marks a cluster as used in the first copy only. -/
theorem copies_differ_after_write :
    ∃ s', Geometry twoFats ∧ 2 ≤ twoFats.numberOfFats ∧ CopiesEqual twoFats twoFatsDisk.disk ∧
      (fat twoFats).step twoFatsDisk (.writeFile 65536 0 [1]) s' ∧ ¬ CopiesEqual twoFats s'.disk := by
  have hbytes : (FatOp.exec twoFats twoFatsDisk (.writeFile 65536 0 [1])).map
      (fun s' => (s'.disk 520, s'.disk 1032)) = .ok (5, 0) := by decide +kernel
  obtain ⟨s', hstep, hne⟩ := map_eq_ok.mp hbytes
  rw [Prod.mk.injEq] at hne
  refine ⟨s', twoFats_geometry, by decide, twoFatsDisk_copies, hstep, ?_⟩
  intro heq
  have h520 : s'.disk 520 = s'.disk 1032 := heq 0 (by decide) 1 (by decide) 8 (by decide)
  rw [hne.1, hne.2] at h520
  exact absurd h520 (by decide)

end Stuos.Fs.Fat
