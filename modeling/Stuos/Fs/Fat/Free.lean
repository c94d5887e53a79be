import Mathlib.Order.Bounds.Defs
import Stuos.Fs.Fat.Chains

/-!
# Free clusters

`find_free_cluster_number` looks at the entries of the table one after the other.  It
stops where a 16-bit number of entries stops, whatever the number of clusters.

* `findFree_cases`: what the search does, on any volume.
* `find_free_correct_iff`: exactly when it finds the lowest free cluster of the volume.
* `freeEntries`, `freeClusters`: the free entries of the table, and those of them that the search
  comes to, in its order; `allocateCluster_free` takes the first one.
* `Grown.freeClusters`: a chain that grows takes its new clusters away from them.
-/

namespace Stuos.Fs.Fat

open Stuos.Lib

/-! ### The search -/

section

variable (vol : Fat16Volume) (disk : Mem)

/-- The entry of a cluster, as `read_fat` finds it. -/
def fatEntry (n : Nat) : Nat := leVal (disk.read (fatAddress vol n) 2)

/-- How many entries the table has. -/
def tableEntries : Nat := vol.numberOfSectorsPerFat * vol.bytesPerSector / 2

/-- The data of the cluster `n` lies within the sectors of the volume. -/
def InVolume (totalSectors n : Nat) : Prop :=
  vol.fatsStartSector + vol.numberOfFats * vol.numberOfSectorsPerFat +
    vol.numberOfSectorsRootDirectory + vol.sectorsPerCluster * (n - 1) ≤ totalSectors

/-- A cluster with a free entry. -/
def FreeEntry (n : Nat) : Prop :=
  isInvalidClusterNum n = false ∧ n < tableEntries vol ∧
    isFreeClusterNum (fatEntry vol disk n) = true

/-- A cluster that can be given to a file. -/
def Allocatable (totalSectors n : Nat) : Prop := FreeEntry vol disk n ∧ InVolume vol totalSectors n

/-- The search finds the lowest cluster that can be given to a file, and it gives up only if
there is none; it never asks for the entry of an invalid cluster. -/
structure SearchCorrect (totalSectors : Nat) : Prop where
  found : ∀ n, findFreeClusterNumber vol disk = .ok n →
    IsLeast { n | Allocatable vol disk totalSectors n } n
  halted : ∀ e, findFreeClusterNumber vol disk = .error e →
    e = .outOfClusters ∧ ∀ n, ¬ Allocatable vol disk totalSectors n

end

variable {vol : Fat16Volume} {disk : Mem}

theorem isInvalidClusterNum_eq_false {n : Nat} :
    isInvalidClusterNum n = false ↔ 2 ≤ n ∧ n < 0xFFF7 := by
  simp only [isInvalidClusterNum, Bool.or_eq_false_iff, decide_eq_false_iff_not]
  omega

theorem InVolume.mono {totalSectors m n : Nat} (h : InVolume vol totalSectors n) (hm : m ≤ n) :
    InVolume vol totalSectors m := by
  have hle : vol.sectorsPerCluster * (m - 1) ≤ vol.sectorsPerCluster * (n - 1) :=
    Nat.mul_le_mul_left _ (by omega)
  unfold InVolume at h ⊢
  omega

/-- **The search from `i` on.**  It finds the first free entry, or it comes to the end, or to the
first reserved number. -/
theorem findFree_cases (vol : Fat16Volume) (disk : Mem) : ∀ n i, 2 ≤ i → i ≤ 0xFFF7 →
    (∃ c, findFree vol disk i n = .ok c ∧ i ≤ c ∧ c < i + n ∧ c < 0xFFF7 ∧
      isFreeClusterNum (fatEntry vol disk c) = true ∧
      ∀ j, i ≤ j → j < c → isFreeClusterNum (fatEntry vol disk j) = false) ∨
    ((∀ j, i ≤ j → j < i + n → j < 0xFFF7 → isFreeClusterNum (fatEntry vol disk j) = false) ∧
      findFree vol disk i n = .error (if i + n ≤ 0xFFF7 then .outOfClusters else .hcf)) := by
  intro n
  induction n with
  | zero =>
    intro i _ hle
    refine .inr ⟨fun j h1 h2 => by omega, ?_⟩
    rw [findFree, if_pos (by omega)]
  | succ n ih =>
    intro i hi hle
    rcases Nat.lt_or_ge i 0xFFF7 with hlt | hge
    · have hread : readFat vol disk i = .ok (fatEntry vol disk i) := by
        rw [readFat, ensure_of (isInvalidClusterNum_eq_false.mpr ⟨hi, hlt⟩)]
        rfl
      rw [findFree, hread, ok_bind]
      by_cases hfree : isFreeClusterNum (fatEntry vol disk i) = true
      · rw [if_pos hfree]
        exact .inl ⟨i, rfl, le_refl i, by omega, hlt, hfree, fun j h1 h2 => by omega⟩
      · rw [if_neg hfree, show i + (n + 1) = i + 1 + n by omega]
        -- nothing is free up to here
        have hnot : ∀ j, i ≤ j → (i + 1 ≤ j → isFreeClusterNum (fatEntry vol disk j) = false) →
            isFreeClusterNum (fatEntry vol disk j) = false := by
          intro j hj hrest
          rcases Nat.eq_or_lt_of_le hj with rfl | hj
          · simpa using hfree
          · exact hrest hj
        rcases ih (i + 1) (by omega) (by omega) with ⟨c, hok, h1, h2, h3, h4, h5⟩ | ⟨hnone, herr⟩
        · exact .inl ⟨c, hok, by omega, h2, h3, h4, fun j hj hjc => hnot j hj fun hj' => h5 j hj' hjc⟩
        · exact .inr ⟨fun j hj h2 h3 => hnot j hj fun hj' => hnone j hj' h2 h3, herr⟩
    · have hinv : ¬ isInvalidClusterNum i = false := by
        rw [isInvalidClusterNum_eq_false]
        omega
      refine .inr ⟨fun j h1 _ h3 => by omega, ?_⟩
      rw [findFree, readFat, ensure_of_not hinv, if_neg (by omega)]
      rfl

theorem numClusters_of_le (h : vol.numberOfSectorsPerFat * vol.bytesPerSector ≤ 2 * 65536) :
    numClusters vol = tableEntries vol % 2 ^ 16 := by
  rw [numClusters, tableEntries, int32_of_lt (by omega), Int.tdiv_eq_ediv_of_nonneg (by omega)]
  omega

theorem searchCorrect_of_ok {totalSectors c : Nat} (h : findFreeClusterNumber vol disk = .ok c) :
    SearchCorrect vol disk totalSectors ↔ IsLeast { n | Allocatable vol disk totalSectors n } c := by
  constructor
  · exact fun hs => hs.found c h
  · intro hleast
    refine ⟨fun n hn => ?_, fun e he => ?_⟩
    · cases h.symm.trans hn
      exact hleast
    · cases h.symm.trans he

theorem searchCorrect_of_error {totalSectors : Nat} {e : Halt}
    (h : findFreeClusterNumber vol disk = .error e) :
    SearchCorrect vol disk totalSectors ↔
      e = .outOfClusters ∧ ∀ n, ¬ Allocatable vol disk totalSectors n := by
  constructor
  · exact fun hs => hs.halted e h
  · intro hnone
    refine ⟨fun n hn => ?_, fun e' he => ?_⟩
    · cases h.symm.trans hn
    · cases h.symm.trans he
      exact hnone

/-- **When the search is correct.**  A table of 65536 entries counts as empty, so then there must
be nothing to find.  With a smaller table the search finds the lowest free entry, so either that
one belongs to a cluster of the volume, or no entry is free and the table ends before the reserved
numbers. -/
theorem find_free_correct_iff
    (h : vol.numberOfSectorsPerFat * vol.bytesPerSector ≤ 2 * 65536) (totalSectors : Nat) :
    SearchCorrect vol disk totalSectors ↔
      ((∃ n, Allocatable vol disk totalSectors n) ∧ tableEntries vol < 65536) ∨
      ((∀ n, ¬ Allocatable vol disk totalSectors n) ∧ (tableEntries vol = 65536 ∨
        (∀ n, ¬ FreeEntry vol disk n) ∧ tableEntries vol ≤ 0xFFF7)) := by
  have hnum := numClusters_of_le h
  have hle : tableEntries vol ≤ 65536 := by
    rw [tableEntries]
    omega
  rcases eq_or_lt_of_le hle with hfull | hlt
  · have hfind : findFreeClusterNumber vol disk = .error .outOfClusters := by
      rw [findFreeClusterNumber, hnum, hfull]
      rfl
    refine (searchCorrect_of_error hfind).trans ?_
    constructor
    · rintro ⟨-, hno⟩
      exact .inr ⟨hno, .inl hfull⟩
    · rintro (⟨-, hlt⟩ | ⟨hno, -⟩)
      · omega
      · exact ⟨rfl, hno⟩
  · rw [Nat.mod_eq_of_lt (by omega)] at hnum
    have hcases := findFree_cases vol disk (tableEntries vol - 2) 2 (le_refl 2) (by decide)
    rw [← hnum] at hcases
    rcases hcases with ⟨c, hok, h1, h2, h3, h4, h5⟩ | ⟨hnone, herr⟩
    · refine (searchCorrect_of_ok hok).trans ?_
      have hentry : FreeEntry vol disk c :=
        ⟨isInvalidClusterNum_eq_false.mpr ⟨h1, h3⟩, by omega, h4⟩
      have hlow : ∀ n, FreeEntry vol disk n → c ≤ n := by
        intro n hn
        by_contra hcn
        have hn2 := (isInvalidClusterNum_eq_false.mp hn.1).1
        exact absurd hn.2.2 (by rw [h5 n hn2 (by omega)]; decide)
      constructor
      · intro hleast
        exact .inl ⟨⟨c, hleast.1⟩, hlt⟩
      · rintro (⟨⟨n, hn⟩, -⟩ | ⟨-, heq | ⟨hno, -⟩⟩)
        · exact ⟨⟨hentry, hn.2.mono (hlow n hn.1)⟩, fun m hm => hlow m hm.1⟩
        · omega
        · exact absurd hentry (hno c)
    · refine (searchCorrect_of_error herr).trans ?_
      have hno : ∀ n, ¬ FreeEntry vol disk n := by
        intro n hn
        obtain ⟨hn2, hn7⟩ := isInvalidClusterNum_eq_false.mp hn.1
        have hlt := hn.2.1
        have hused := hnone n hn2 (by omega) hn7
        rw [hn.2.2] at hused
        cases hused
      have hnot : ∀ n, ¬ Allocatable vol disk totalSectors n := fun n hn => hno n hn.1
      constructor
      · rintro ⟨he, -⟩
        refine .inr ⟨hnot, .inr ⟨hno, ?_⟩⟩
        by_contra hgt
        rw [if_neg (by omega)] at he
        cases he
      · rintro (⟨⟨n, hn⟩, -⟩ | ⟨-, heq | ⟨-, hends⟩⟩)
        · exact absurd hn (hnot n)
        · omega
        · exact ⟨if_pos (by omega), hnot⟩

/-- A volume whose table has the given number of sectors of 512 bytes. -/
def tableOf (sectors : Nat) : Fat16Volume where
  fatsStartSector := 1
  numberOfFats := 2
  numberOfSectorsPerFat := sectors
  bytesPerSector := 512
  sectorsPerCluster := 1
  numberOfSectorsRootDirectory := 32

theorem tableOf_allocatable {sectors totalSectors : Nat} (hlt : 0 < sectors)
    (htotal : 2 * sectors + 34 ≤ totalSectors) :
    Allocatable (tableOf sectors) (fun _ => 0) totalSectors 2 := by
  refine ⟨⟨by decide, ?_, ?_⟩, ?_⟩
  · show 2 < sectors * 512 / 2
    omega
  · rfl
  · show 1 + 2 * sectors + 32 + 1 * (2 - 1) ≤ totalSectors
    omega

/-- An empty volume with a table of 256 entries. -/
theorem find_free_correct_small : SearchCorrect (tableOf 1) (fun _ => 0) 100 :=
  (find_free_correct_iff (by decide) 100).mpr
    (.inl ⟨⟨2, tableOf_allocatable (by decide) (by decide)⟩, by decide⟩)

/-- On an empty volume with a table of 65536 entries nothing is found; on one with fewer clusters
than entries, a cluster behind the end of the volume is. -/
theorem find_free_misses_full_table :
    ¬ SearchCorrect (tableOf 256) (fun _ => 0) 100000 ∧
      ¬ SearchCorrect (tableOf 1) (fun _ => 0) 35 := by
  refine ⟨fun h => ?_, fun h => ?_⟩
  · have hfind : findFreeClusterNumber (tableOf 256) (fun _ => 0) = .error .outOfClusters := by
      decide
    exact (h.halted _ hfind).2 2 (tableOf_allocatable (by decide) (by decide))
  · have hfind : findFreeClusterNumber (tableOf 1) (fun _ => 0) = .ok 2 := by
      decide
    have hin : 1 + 2 * 1 + 32 + 1 * (2 - 1) ≤ 35 := (h.found _ hfind).1.2
    omega

/-! ### The free clusters -/

/-- The free entries of the table. -/
def freeEntries (vol : Fat16Volume) (v : View) : List Nat :=
  (List.range' 2 (clusterLimit vol - 2)).filter fun c => isFreeClusterNum (v.fat c)

/-- Those below `num_clusters`, in the order in which the search finds them. -/
def freeClusters (vol : Fat16Volume) (v : View) : List Nat :=
  (List.range' 2 (numClusters vol - 2)).filter fun c => isFreeClusterNum (v.fat c)

section

variable {v v' : View} {l ext : List Nat} {c : Nat}

theorem freeClusters_congr (h : v'.fat = v.fat) : freeClusters vol v' = freeClusters vol v := by
  rw [freeClusters, freeClusters, h]

theorem nodup_freeClusters (vol : Fat16Volume) (v : View) : (freeClusters vol v).Nodup :=
  (List.nodup_range').filter _

theorem mem_freeEntries {c : Nat} :
    c ∈ freeEntries vol v ↔ InRange vol c ∧ isFreeClusterNum (v.fat c) = true := by
  rw [freeEntries, List.mem_filter, List.mem_range'_1, InRange]
  refine and_congr_left fun _ => ?_
  omega

theorem length_freeClusters_le (hg : Geometry vol) (v : View) :
    (freeClusters vol v).length ≤ (freeEntries vol v).length := by
  have hle := numClusters_le hg
  have hfront : (List.range' 2 (numClusters vol - 2)).Sublist (List.range' 2 (clusterLimit vol - 2)) :=
    List.range'_sublist_right.mpr (by omega)
  exact (hfront.filter _).length_le

theorem findFree_eq_head (hg : Geometry vol) : ∀ n i, 2 ≤ i → i + n ≤ clusterLimit vol →
    findFree vol disk i n = orHalt .outOfClusters
      ((List.range' i n).filter fun c => isFreeClusterNum ((view vol disk).fat c)).head? := by
  intro n
  induction n with
  | zero => exact fun _ _ _ => rfl
  | succ n ih =>
    intro i hi hn
    rw [findFree, readFat_view hg ⟨hi, by omega⟩, ok_bind, List.range'_succ, List.filter_cons]
    split
    · rfl
    · exact ih (i + 1) (by omega) (by omega)

/-- **The search returns the first free cluster.** -/
theorem findFreeClusterNumber_eq (hg : Geometry vol) :
    findFreeClusterNumber vol disk =
      orHalt .outOfClusters (freeClusters vol (view vol disk)).head? := by
  have hle := numClusters_le hg
  by_cases h2 : 2 ≤ numClusters vol
  · exact findFree_eq_head hg _ 2 (le_refl 2) (by omega)
  · rw [findFreeClusterNumber, freeClusters, Nat.sub_eq_zero_of_le (by omega)]
    rfl

/-- **A new cluster is the first free one.** -/
theorem allocateCluster_free (disk : Mem) (hg : Geometry vol) :
    (freeClusters vol (view vol disk) = [] → allocateCluster vol disk = .error .outOfClusters) ∧
    ∀ fresh rest, freeClusters vol (view vol disk) = fresh :: rest →
      ∃ disk', allocateCluster vol disk = .ok (fresh, disk') := by
  refine ⟨fun h => ?_, fun fresh rest h => ?_⟩
  · rw [allocateCluster, findFreeClusterNumber_eq hg, h]
    rfl
  · have hfind : findFreeClusterNumber vol disk = .ok fresh := by
      rw [findFreeClusterNumber_eq hg, h]
      rfl
    rw [allocateCluster, hfind, ok_bind, writeFat_ok (findFreeClusterNumber_ok hg hfind).1, ok_bind]
    exact ⟨_, rfl⟩

/-- **What a chain has got is no longer free.** -/
theorem Grown.freeClusters (h : Grown vol v v' l ext) (hl : IsChain vol v l) :
    Fat.freeClusters vol v' = (Fat.freeClusters vol v).filter fun c => decide (c ∉ ext) := by
  rw [Fat.freeClusters, Fat.freeClusters, List.filter_filter]
  apply List.filter_congr
  intro c _
  by_cases hext : c ∈ ext
  · rw [h.chain.not_free c (List.mem_append_right _ hext)]
    simp [hext]
  · by_cases hmem : c ∈ l
    · rw [h.chain.not_free c (List.mem_append_left _ hmem), hl.not_free c hmem]
      simp
    · rw [h.fat c hmem hext]
      simp [hext]

theorem Grown.freeClusters_drop {m : Nat}
    (h : Grown vol v v' l ((Fat.freeClusters vol v).take m)) (hl : IsChain vol v l) :
    Fat.freeClusters vol v' = (Fat.freeClusters vol v).drop m := by
  rw [h.freeClusters hl]
  have hsplit := List.take_append_drop m (Fat.freeClusters vol v)
  have hnodup := nodup_freeClusters vol v
  rw [← hsplit, List.nodup_append'] at hnodup
  conv => lhs; rw [← hsplit, List.filter_append]
  rw [List.filter_eq_nil_iff.mpr, List.nil_append, List.filter_eq_self.mpr]
  · intro c hc
    have hnot : c ∉ (Fat.freeClusters vol v).take m := fun hc' => hnodup.2.2 hc' hc
    rw [hsplit]
    simpa using hnot
  · intro c hc
    rw [hsplit]
    simpa using hc

end

end Stuos.Fs.Fat
