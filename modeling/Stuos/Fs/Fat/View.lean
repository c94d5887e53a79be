import Stuos.Fs.Fat.Volume

/-!
# What is on a disk

`Geometry` says that the three areas of a volume fit the arithmetic of the source:
the first file allocation table, the root directory and the clusters.  A `View` is
the content of these areas: an entry and a block of bytes for every cluster, and the
bytes of the root directory.

* `readFat_view`, `view_writeFat`, `view_writeCluster`, `view_writeRoot`: each access
  to the disk is the access to one component of the view.
* `findFreeClusterNumber_ok`, `allocateCluster_ok`: what a cluster that is found is,
  and that the only way to fail is to be out of clusters.
-/

namespace Stuos.Fs.Fat

open Stuos.Lib

section

variable (vol : Fat16Volume)

/-- Bytes of the root directory. -/
def rootBytes : Nat := vol.numberOfSectorsRootDirectory * vol.bytesPerSector

def fatStart : Nat := vol.fatsStartSector * vol.bytesPerSector

def rootStart : Nat :=
  (vol.fatsStartSector + vol.numberOfSectorsPerFat * vol.numberOfFats) * vol.bytesPerSector

def dataStart : Nat := rootStart vol + rootBytes vol

/-- One more than the largest cluster number with an entry in the table. -/
def clusterLimit : Nat := min 0xFFF7 (vol.numberOfSectorsPerFat * vol.bytesPerSector / 2)

/-- A cluster number with an entry in the table. -/
def InRange (c : Nat) : Prop := 2 ≤ c ∧ c < clusterLimit vol

instance (c : Nat) : Decidable (InRange vol c) := inferInstanceAs (Decidable (_ ∧ _))

/-- The volume is laid out within the ranges its fields are used in. -/
structure Geometry : Prop where
  bytesPerSector_pos : 0 < vol.bytesPerSector
  sectorsPerCluster_pos : 0 < vol.sectorsPerCluster
  numberOfFats_pos : 0 < vol.numberOfFats
  /-- a sector holds whole directory entries -/
  aligned : 32 ∣ vol.bytesPerSector
  bytesPerCluster_le : bytesPerCluster vol ≤ 65536
  sectors_lt : vol.fatsStartSector + vol.numberOfFats * vol.numberOfSectorsPerFat +
    vol.numberOfSectorsRootDirectory < 2 ^ 16
  dataStart_lt : dataStart vol < 2 ^ 31

end

/-- The content of the areas of a volume. -/
structure View where
  fat : Nat → Nat
  data : Nat → Mem
  root : Mem

namespace View

variable (v : View)

def setFat (c value : Nat) : View := { v with fat := Function.update v.fat c value }

def setData (c : Nat) (m : Mem) : View := { v with data := Function.update v.data c m }

def setRoot (m : Mem) : View := { v with root := m }

@[simp] theorem setFat_data (c value : Nat) : (v.setFat c value).data = v.data := rfl

@[simp] theorem setFat_root (c value : Nat) : (v.setFat c value).root = v.root := rfl

@[simp] theorem setData_fat (c : Nat) (m : Mem) : (v.setData c m).fat = v.fat := rfl

@[simp] theorem setData_root (c : Nat) (m : Mem) : (v.setData c m).root = v.root := rfl

@[simp] theorem setRoot_fat (m : Mem) : (v.setRoot m).fat = v.fat := rfl

@[simp] theorem setRoot_data (m : Mem) : (v.setRoot m).data = v.data := rfl

@[simp] theorem setRoot_root (m : Mem) : (v.setRoot m).root = m := rfl

@[simp] theorem setFat_fat_self (c value : Nat) : (v.setFat c value).fat c = value :=
  Function.update_self ..

theorem setFat_fat_of_ne {c d : Nat} (value : Nat) (h : d ≠ c) :
    (v.setFat c value).fat d = v.fat d := Function.update_of_ne h ..

@[simp] theorem setData_data_self (c : Nat) (m : Mem) : (v.setData c m).data c = m :=
  Function.update_self ..

theorem setData_data_of_ne {c d : Nat} (m : Mem) (h : d ≠ c) :
    (v.setData c m).data d = v.data d := Function.update_of_ne h ..

end View

/-- The view of a disk; what lies outside an area reads as zero. -/
def view (vol : Fat16Volume) (disk : Mem) : View where
  fat c := if InRange vol c then leVal (disk.read (fatStart vol + 2 * c) 2) else 0
  data c j := if InRange vol c ∧ j < bytesPerCluster vol then
    disk (dataStart vol + bytesPerCluster vol * (c - 2) + j) else 0
  root j := if j < rootBytes vol then disk (rootStart vol + j) else 0

/-! ### Arithmetic -/

theorem int32_of_lt {n : Nat} (h : n < 2 ^ 31) : int32 n = n := by
  have hmod : (n : Int) % ((2 ^ 32 : Nat) : Int) = n := by
    apply Int.emod_eq_of_lt
    · exact Int.natCast_nonneg n
    · push_cast
      omega
  unfold int32 Int.bmod
  simp only [hmod]
  rw [if_pos]
  push_cast
  omega

theorem intU64_of_lt {n : Nat} (h : n < 2 ^ 31) : intU64 n = n := by
  rw [intU64, int32_of_lt h]
  omega

variable {vol : Fat16Volume} {disk : Mem}

theorem InRange.valid {c : Nat} (h : InRange vol c) : isInvalidClusterNum c = false := by
  have h1 : 2 ≤ c := h.1
  have h2 : c < 0xFFF7 := lt_of_lt_of_le h.2 (min_le_left _ _)
  simp only [isInvalidClusterNum, Bool.or_eq_false_iff, decide_eq_false_iff_not]
  omega

theorem InRange.lt {c : Nat} (h : InRange vol c) : c < 0xFFF7 :=
  lt_of_lt_of_le h.2 (min_le_left _ _)

theorem InRange.entry_le {c : Nat} (h : InRange vol c) :
    2 * c + 2 ≤ vol.numberOfSectorsPerFat * vol.bytesPerSector := by
  have h2 : c < vol.numberOfSectorsPerFat * vol.bytesPerSector / 2 :=
    lt_of_lt_of_le h.2 (min_le_right _ _)
  omega

namespace Geometry

variable (hg : Geometry vol)
include hg

theorem bytesPerCluster_pos : 0 < bytesPerCluster vol :=
  Nat.mul_pos hg.bytesPerSector_pos hg.sectorsPerCluster_pos

theorem aligned_bytesPerCluster : 32 ∣ bytesPerCluster vol :=
  Dvd.dvd.mul_right hg.aligned _

theorem fat_le_rootStart :
    fatStart vol + vol.numberOfSectorsPerFat * vol.bytesPerSector ≤ rootStart vol := by
  rw [fatStart, rootStart, ← Nat.add_mul]
  have := Nat.le_mul_of_pos_right vol.numberOfSectorsPerFat hg.numberOfFats_pos
  exact Nat.mul_le_mul_right _ (by omega)

theorem calculateDataSectionStart_eq : calculateDataSectionStart vol = dataStart vol := by
  have heq : (vol.fatsStartSector + vol.numberOfFats * vol.numberOfSectorsPerFat +
      vol.numberOfSectorsRootDirectory) * vol.bytesPerSector = dataStart vol := by
    rw [dataStart, rootStart, rootBytes, Nat.mul_comm vol.numberOfFats, Nat.add_mul]
  simp only [calculateDataSectionStart]
  rw [Nat.mod_eq_of_lt hg.sectors_lt, heq, intU64_of_lt hg.dataStart_lt]

theorem rootDirStartByte_eq : rootDirStartByte vol = rootStart vol := by
  have h := hg.dataStart_lt
  rw [dataStart] at h
  exact intU64_of_lt (n := rootStart vol) (by omega)

theorem intU64_rootBytes : intU64 (rootBytes vol) = rootBytes vol := by
  have h := hg.dataStart_lt
  rw [dataStart] at h
  exact intU64_of_lt (by omega)

theorem fatAddress_eq {c : Nat} (hc : InRange vol c) :
    fatAddress vol c = fatStart vol + 2 * c := by
  have h1 := hg.dataStart_lt
  have h2 := hg.fat_le_rootStart
  have h3 := hc.entry_le
  rw [dataStart] at h1
  exact intU64_of_lt (n := fatStart vol + 2 * c) (by omega)

theorem clusterAddress_eq {c start : Nat} (hc : InRange vol c) (hs : start ≤ bytesPerCluster vol) :
    clusterAddress vol c start = dataStart vol + bytesPerCluster vol * (c - 2) + start := by
  have h1 := hg.dataStart_lt
  have h2 := hg.bytesPerCluster_le
  have h3 : bytesPerCluster vol * (c - 2) ≤ 65536 * 65536 :=
    Nat.mul_le_mul h2 (by have := hc.lt; omega)
  rw [clusterAddress, hg.calculateDataSectionStart_eq, u64_of_lt (by omega)]

end Geometry

/-! ### The file allocation table -/

theorem view_fat {c : Nat} (hc : InRange vol c) :
    (view vol disk).fat c = leVal (disk.read (fatStart vol + 2 * c) 2) := if_pos hc

theorem readFat_view (hg : Geometry vol) {c : Nat} (hc : InRange vol c) :
    readFat vol disk c = .ok ((view vol disk).fat c) := by
  rw [readFat, ensure_of hc.valid, hg.fatAddress_eq hc, view_fat hc]
  rfl

theorem cluster_disjoint (b : Nat) {c d : Nat} (hc : 2 ≤ c) (hd : 2 ≤ d) (hne : c ≠ d) :
    b * (c - 2) + b ≤ b * (d - 2) ∨ b * (d - 2) + b ≤ b * (c - 2) := by
  rcases Nat.lt_or_gt_of_ne hne with h | h
  · left
    rw [← Nat.mul_succ]
    exact Nat.mul_le_mul_left b (by omega)
  · right
    rw [← Nat.mul_succ]
    exact Nat.mul_le_mul_left b (by omega)

theorem View.ext' {v w : View} (hf : ∀ c, v.fat c = w.fat c) (hd : ∀ c j, v.data c j = w.data c j)
    (hr : ∀ j, v.root j = w.root j) : v = w := by
  cases v
  cases w
  simp only [View.mk.injEq]
  exact ⟨funext hf, funext fun c => funext (hd c), funext hr⟩

theorem view_fat_write (a : Nat) (bs : List UInt8) {c : Nat}
    (h : InRange vol c → fatStart vol + 2 * c + 2 ≤ a ∨ a + bs.length ≤ fatStart vol + 2 * c) :
    (view vol (disk.write a bs)).fat c = (view vol disk).fat c := by
  simp only [view]
  split
  · rw [Mem.read_write_of_disjoint _ _ (h ‹_›)]
  · rfl

theorem view_data_write (a : Nat) (bs : List UInt8) {c j : Nat}
    (h : InRange vol c → j < bytesPerCluster vol →
      dataStart vol + bytesPerCluster vol * (c - 2) + j < a ∨
      a + bs.length ≤ dataStart vol + bytesPerCluster vol * (c - 2) + j) :
    (view vol (disk.write a bs)).data c j = (view vol disk).data c j := by
  simp only [view]
  split
  · rename_i hc
    rcases h hc.1 hc.2 with h | h
    · exact Mem.write_of_lt _ _ h
    · exact Mem.write_of_ge _ _ h
  · rfl

theorem view_root_write (a : Nat) (bs : List UInt8) {j : Nat}
    (h : j < rootBytes vol → rootStart vol + j < a ∨ a + bs.length ≤ rootStart vol + j) :
    (view vol (disk.write a bs)).root j = (view vol disk).root j := by
  simp only [view]
  split
  · rcases h ‹_› with h | h
    · exact Mem.write_of_lt _ _ h
    · exact Mem.write_of_ge _ _ h
  · rfl

/-- **An entry is written.** -/
theorem view_writeFat (hg : Geometry vol) {c value : Nat} (hc : InRange vol c)
    (hv : value < 2 ^ 16) :
    view vol (disk.write (fatAddress vol c) (leBytes 2 value)) =
      (view vol disk).setFat c value := by
  have h1 := hg.fat_le_rootStart
  have h2 := hc.entry_le
  rw [hg.fatAddress_eq hc]
  apply View.ext'
  · intro d
    by_cases hd : d = c
    · subst hd
      have hread := Mem.read_write_self disk (fatStart vol + 2 * d) (leBytes 2 value)
      rw [leBytes_length] at hread
      rw [View.setFat_fat_self, view_fat hc, hread, leVal_leBytes 2 value (by simpa using hv)]
    · rw [View.setFat_fat_of_ne _ _ hd]
      apply view_fat_write
      intro _
      rw [leBytes_length]
      omega
  · intro d j
    apply view_data_write
    intro _ _
    right
    rw [leBytes_length, dataStart]
    omega
  · intro j
    apply view_root_write
    intro _
    right
    rw [leBytes_length]
    omega

/-- **Bytes of a cluster are written.** -/
theorem view_writeCluster (disk : Mem) (hg : Geometry vol) {c start : Nat} {bs : List UInt8}
    (hc : InRange vol c) (hs : start + bs.length ≤ bytesPerCluster vol) :
    view vol (disk.write (clusterAddress vol c start) bs) =
      (view vol disk).setData c (((view vol disk).data c).write start bs) := by
  have h1 := hg.fat_le_rootStart
  rw [hg.clusterAddress_eq hc (by omega)]
  apply View.ext'
  · intro d
    apply view_fat_write
    intro hd
    have := hd.entry_le
    rw [dataStart]
    omega
  · intro d j
    by_cases hd : d = c
    · subst hd
      rw [View.setData_data_self]
      by_cases hj : j < bytesPerCluster vol
      · simp only [view, hc, hj, and_true, if_true, Mem.write]
        by_cases hw : start ≤ j ∧ j < start + bs.length
        · rw [if_pos hw, if_pos (by omega)]
          congr 1
          omega
        · rw [if_neg hw, if_neg (by omega)]
      · rw [Mem.write_of_ge _ _ (by omega)]
        exact view_data_write _ _ (fun _ h => absurd h hj)
    · rw [View.setData_data_of_ne _ _ hd]
      apply view_data_write
      intro hdr hj
      have := cluster_disjoint (bytesPerCluster vol) hdr.1 hc.1 hd
      omega
  · intro j
    apply view_root_write
    intro _
    left
    rw [dataStart]
    omega

/-- **Bytes of the root directory are written.** -/
theorem view_writeRoot (hg : Geometry vol) {off : Nat} {bs : List UInt8}
    (hs : off + bs.length ≤ rootBytes vol) :
    view vol (disk.write (rootStart vol + off) bs) =
      (view vol disk).setRoot ((view vol disk).root.write off bs) := by
  have h1 := hg.fat_le_rootStart
  apply View.ext'
  · intro d
    apply view_fat_write
    intro hd
    have := hd.entry_le
    omega
  · intro d j
    apply view_data_write
    intro _ _
    right
    rw [dataStart]
    omega
  · intro j
    rw [View.setRoot_root]
    by_cases hj : j < rootBytes vol
    · simp only [view, hj, if_true, Mem.write]
      by_cases hw : off ≤ j ∧ j < off + bs.length
      · rw [if_pos hw, if_pos (by omega)]
        congr 1
        omega
      · rw [if_neg hw, if_neg (by omega)]
    · rw [Mem.write_of_ge _ _ (by omega)]
      exact view_root_write _ _ (fun h => absurd h hj)

theorem view_readCluster (disk : Mem) (hg : Geometry vol) {c start n : Nat} (hc : InRange vol c)
    (hs : start + n ≤ bytesPerCluster vol) :
    disk.read (clusterAddress vol c start) n = ((view vol disk).data c).read start n := by
  rw [hg.clusterAddress_eq hc (by omega)]
  refine Mem.read_eq_read fun i hi => ?_
  simp only [view]
  rw [if_pos ⟨hc, by omega⟩, Nat.add_assoc]

theorem view_readRoot {off n : Nat} (hs : off + n ≤ rootBytes vol) :
    disk.read (rootStart vol + off) n = (view vol disk).root.read off n := by
  refine Mem.read_eq_read fun i hi => ?_
  simp only [view]
  rw [if_pos (by omega), Nat.add_assoc]

/-! ### Finding a free cluster -/

theorem numClusters_eq (hg : Geometry vol) :
    numClusters vol = vol.numberOfSectorsPerFat * vol.bytesPerSector / 2 % 2 ^ 16 := by
  have h1 := hg.dataStart_lt
  have h2 := hg.fat_le_rootStart
  rw [dataStart] at h1
  rw [numClusters, int32_of_lt (by omega), Int.tdiv_eq_ediv_of_nonneg (by omega)]
  omega

/-- A sector holds whole entries, so the search stays below the reserved numbers. -/
theorem numClusters_le (hg : Geometry vol) : numClusters vol ≤ clusterLimit vol := by
  have h1 : vol.numberOfSectorsPerFat * vol.bytesPerSector % 32 = 0 :=
    Nat.mod_eq_zero_of_dvd (Dvd.dvd.mul_left hg.aligned _)
  rw [numClusters_eq hg, clusterLimit]
  apply le_min
  · omega
  · exact Nat.mod_le _ _

theorem findFree_ok (hg : Geometry vol) : ∀ (n i c : Nat), 2 ≤ i → i + n ≤ clusterLimit vol →
    findFree vol disk i n = .ok c →
      i ≤ c ∧ c < i + n ∧ isFreeClusterNum ((view vol disk).fat c) = true := by
  intro n
  induction n with
  | zero => intro i c _ _ h; simp [findFree] at h
  | succ n ih =>
    intro i c hi hn h
    rw [findFree, readFat_view hg ⟨hi, by omega⟩, ok_bind] at h
    split at h
    · rename_i hfree
      simp only [pure_eq_ok, Except.ok.injEq] at h
      subst h
      exact ⟨le_refl i, by omega, hfree⟩
    · obtain ⟨h1, h2, h3⟩ := ih (i + 1) c (by omega) (by omega) h
      exact ⟨by omega, by omega, h3⟩

theorem findFree_error (hg : Geometry vol) : ∀ (n i : Nat) (e : Halt), 2 ≤ i →
    i + n ≤ clusterLimit vol → findFree vol disk i n = .error e →
      e = .outOfClusters ∧
        ∀ c, i ≤ c → c < i + n → isFreeClusterNum ((view vol disk).fat c) = false := by
  intro n
  induction n with
  | zero =>
    intro i e _ _ h
    rw [findFree, Except.error.injEq] at h
    exact ⟨h.symm, fun c h1 h2 => by omega⟩
  | succ n ih =>
    intro i e hi hn h
    rw [findFree, readFat_view hg ⟨hi, by omega⟩, ok_bind] at h
    split at h
    · simp at h
    · rename_i hfree
      obtain ⟨h1, h2⟩ := ih (i + 1) e (by omega) (by omega) h
      refine ⟨h1, fun c hc1 hc2 => ?_⟩
      rcases Nat.eq_or_lt_of_le hc1 with heq | hlt
      · subst heq
        simpa using hfree
      · exact h2 c hlt (by omega)

/-- **A cluster that is found** is in range and free. -/
theorem findFreeClusterNumber_ok (hg : Geometry vol) {c : Nat}
    (h : findFreeClusterNumber vol disk = .ok c) :
    InRange vol c ∧ isFreeClusterNum ((view vol disk).fat c) = true := by
  have hle := numClusters_le hg
  by_cases h2 : 2 ≤ numClusters vol
  · obtain ⟨h3, h4, h5⟩ := findFree_ok hg _ 2 c (le_refl 2) (by omega) h
    exact ⟨⟨h3, by omega⟩, h5⟩
  · rw [findFreeClusterNumber, Nat.sub_eq_zero_of_le (by omega)] at h
    simp [findFree] at h

/-- **The search fails only if every cluster is in use.** -/
theorem findFreeClusterNumber_error (hg : Geometry vol) {e : Halt}
    (h : findFreeClusterNumber vol disk = .error e) :
    e = .outOfClusters ∧ ∀ c, 2 ≤ c → c < numClusters vol →
      isFreeClusterNum ((view vol disk).fat c) = false := by
  have hle := numClusters_le hg
  by_cases h2 : 2 ≤ numClusters vol
  · obtain ⟨h3, h4⟩ := findFree_error hg _ 2 e (le_refl 2) (by omega) h
    exact ⟨h3, fun c hc1 hc2 => h4 c hc1 (by omega)⟩
  · rw [findFreeClusterNumber, Nat.sub_eq_zero_of_le (by omega)] at h
    simp only [findFree, Except.error.injEq] at h
    exact ⟨h.symm, fun c hc1 hc2 => by omega⟩

theorem writeFat_ok {c value : Nat} (hc : InRange vol c) :
    writeFat vol disk c value = .ok (disk.write (fatAddress vol c) (leBytes 2 value)) := by
  rw [writeFat, ensure_of hc.valid]
  rfl

/-- A cluster that was free and is now a list of its own. -/
structure Allocated (vol : Fat16Volume) (v v' : View) (fresh : Nat) : Prop where
  inRange : InRange vol fresh
  free : isFreeClusterNum (v.fat fresh) = true
  eq : v' = v.setFat fresh 0xFFF8

theorem allocateCluster_ok (hg : Geometry vol) {fresh : Nat} {disk' : Mem}
    (h : allocateCluster vol disk = .ok (fresh, disk')) :
    Allocated vol (view vol disk) (view vol disk') fresh := by
  rw [allocateCluster, bind_eq_ok] at h
  obtain ⟨c, hfind, h⟩ := h
  obtain ⟨hin, hfree⟩ := findFreeClusterNumber_ok hg hfind
  rw [writeFat_ok hin, ok_bind, pure_eq_ok, Except.ok.injEq, Prod.mk.injEq] at h
  obtain ⟨rfl, rfl⟩ := h
  exact ⟨hin, hfree, view_writeFat hg hin (by decide)⟩

theorem allocateCluster_error (hg : Geometry vol) {e : Halt}
    (h : allocateCluster vol disk = .error e) : e = .outOfClusters := by
  rw [allocateCluster] at h
  cases hfind : findFreeClusterNumber vol disk with
  | error e' =>
    rw [hfind, error_bind, Except.error.injEq] at h
    exact h ▸ (findFreeClusterNumber_error hg hfind).1
  | ok c =>
    rw [hfind, ok_bind, writeFat_ok (findFreeClusterNumber_ok hg hfind).1] at h
    simp at h

end Stuos.Fs.Fat
