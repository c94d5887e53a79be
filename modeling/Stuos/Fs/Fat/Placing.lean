import Stuos.Fs.Fat.Extending
import Stuos.Fs.Fat.Integrity

/-!
# Where new entries go

In the root directory `create_inode` looks for the first entry that starts with a zero, in any
other directory it takes the place from the size that the directory's own entry says.  The two
agree on directories that this system has made; a directory of another system has the size 0.

* `newNodeChain_free`, `insertEntries_enough`, `insertEntries_takes`: the call returns exactly if the
  search finds the clusters that it takes.
* `no_shift`: the new entries are not the same entries somewhere else.
* `create_inode_at_end_iff`: where there is room, the new entries are put at the end exactly if they
  leave a byte of the root directory free, or if the size of the directory counts its entries and
  the search finds the clusters.
-/

namespace Stuos.Fs.Fat

open Stuos.Lib Fat16DirectoryEntry

variable {vol : Fat16Volume} {v v' : View} {disk disk' : Mem} {n : Nat}

/-! ### The clusters of a new node -/

/-- The clusters that a new node gets: a directory has its end in the first one, and the one behind
is taken with it. -/
def newNeed (newInodeType : Nat) : Nat := if sIsdir newInodeType then 2 else 0

/-- **A new node** takes the first free clusters. -/
theorem newNodeChain_free (disk : Mem) (hg : Geometry vol) (newInodeType : Nat) :
    (newNeed newInodeType ≤ (freeClusters vol (view vol disk)).length →
      ∃ p, newNodeChain vol disk newInodeType = .ok p) ∧
    ∀ c size disk₁, newNodeChain vol disk newInodeType = .ok (c, size, disk₁) →
      newNeed newInodeType ≤ (freeClusters vol (view vol disk)).length ∧
      freeClusters vol (view vol disk₁) =
        (freeClusters vol (view vol disk)).drop (newNeed newInodeType) := by
  rw [newNodeChain, newNeed]
  split
  · have hturns : turns vol 0 endSentinel.toBytes.length = 1 := by
      have h := turns_entry hg 0
      rwa [Nat.zero_mul, Nat.zero_div] at h
    obtain ⟨hnone, hsome⟩ := allocateCluster_free disk hg
    cases hfree : freeClusters vol (view vol disk) with
    | nil =>
      rw [hnone hfree]
      refine ⟨fun h => absurd h (by decide), fun _ _ _ h => by cases h⟩
    | cons fresh rest =>
      obtain ⟨disk₁, halloc⟩ := hsome fresh rest hfree
      have ha := allocateCluster_ok hg halloc
      have hgrown : Grown vol (view vol disk) (view vol disk₁) []
          ((freeClusters vol (view vol disk)).take 1) := by
        rw [hfree]
        exact ha.touched.toGrown
      have hdrop := hgrown.freeClusters_drop (.nil _ _)
      rw [hfree, List.drop_one, List.tail_cons] at hdrop
      have hchain : IsChain vol (view vol disk₁) [fresh] := ha.touched.chain
      have hall := writeToClusterChain_allocates hg hchain 0 endSentinel.toBytes
      rw [hturns, List.length_nil, Nat.sub_zero] at hall
      simp only [halloc, ok_bind]
      refine ⟨fun hlen => ?_, fun c size disk₂ h => ?_⟩
      · obtain ⟨disk₂, hw, -⟩ := hall.enough (by
          rw [hdrop]
          rw [List.length_cons] at hlen
          omega)
        exact ⟨_, by rw [hw]; rfl⟩
      · rw [bind_eq_ok] at h
        obtain ⟨disk₃, hw, h⟩ := h
        cases h
        obtain ⟨hle, hgrown'⟩ := hall.of_ok hw
        rw [hdrop] at hle
        rw [hgrown'.freeClusters_drop hchain, hdrop, List.length_cons]
        exact ⟨Nat.succ_le_succ hle, rfl⟩
  · refine ⟨fun _ => ⟨_, rfl⟩, fun c size disk₁ h => ?_⟩
    cases h
    exact ⟨Nat.zero_le _, rfl⟩

/-- **No directory lists itself.** -/
theorem Reach.ne_self (hwf : WellFormed vol v) {d : Nat} (h : Reach vol v d) :
    ∀ k, Listed vol v d k → (record vol v d k).IsDirectory →
      (record vol v d k).clusterNumber ≠ d := by
  induction h with
  | root =>
    intro k hl hdir heq
    have hvalid := hwf.directory _ _ ⟨.root, hl⟩ hdir
    rw [heq] at hvalid
    exact absurd hvalid (by decide)
  | @sub d₀ k₀ hr hl₀ hdir₀ ih =>
    intro k hl hdir heq
    -- a directory has one owner, so this one would list itself already
    have howner := hwf.sound.owner_unique ⟨hr, hl₀⟩ ⟨.sub hr hl₀ hdir₀, hl⟩ hdir₀ heq
    have hd : d₀ = (record vol v d₀ k₀).clusterNumber := congrArg Prod.fst howner
    exact ih k₀ hl₀ hdir₀ hd.symm

/-! ### The new entries -/

/-- The entries that `create_inode` writes: the long name, the node and a new end. -/
def newEntries (createIdx : Nat) (name : List UInt8) (attributes : UInt8) (c size : Nat) :
    List Fat16DirectoryEntry :=
  longEntries createIdx name ++ [ofFields (shortFileName createIdx) attributes c size, endSentinel]

section

variable {createIdx : Nat} {name : List UInt8} {attributes : UInt8} {c size : Nat}

theorem length_newEntries :
    (newEntries createIdx name attributes c size).length = lfnEntryCount name + 2 := by
  rw [newEntries, List.length_append, length_longEntries]
  rfl

theorem length_newEntries_bytes :
    ((newEntries createIdx name attributes c size).flatMap toBytes).length =
      32 * (lfnEntryCount name + 1 + 1) := by
  rw [length_flatMap_toBytes, length_newEntries]

theorem getElem_newEntries {q : Nat} (hge : lfnEntryCount name ≤ q)
    (hq : q < (newEntries createIdx name attributes c size).length) :
    (newEntries createIdx name attributes c size)[q] =
      [ofFields (shortFileName createIdx) attributes c size, endSentinel].getD
        (q - lfnEntryCount name) endSentinel := by
  have hlong : (longEntries createIdx name).length = lfnEntryCount name := length_longEntries _ _
  have hlen : (newEntries createIdx name attributes c size).length = lfnEntryCount name + 2 :=
    length_newEntries
  rw [← hlong, List.getD_eq_getElem _ _ (by simp only [List.length_cons, List.length_nil]; omega)]
  exact List.getElem_append_right (by omega)

/-- All entries but the last one start with another byte than zero. -/
theorem newEntries_firstByte (hname : lfnEntryCount name + 2 ≤ 65) {q : Nat}
    (hq : q < lfnEntryCount name + 1) :
    ((newEntries createIdx name attributes c size).flatMap toBytes).getD (32 * q) 0 ≠ 0 := by
  have hbound : q < (newEntries createIdx name attributes c size).length := by
    rw [length_newEntries]
    omega
  have hlong : (longEntries createIdx name).length = lfnEntryCount name := length_longEntries _ _
  have hget := getD_flatMap_toBytes _ hbound 0
  rw [Fin.val_zero, Nat.add_zero] at hget
  rw [hget]
  rcases Nat.lt_or_ge q (longEntries createIdx name).length with hlt | hge
  · have hpart : (newEntries createIdx name attributes c size)[q] = (longEntries createIdx name)[q] :=
      List.getElem_append_left hlt
    rw [hpart]
    exact longEntries_firstByte (by omega) (List.getElem_mem _)
  · rw [getElem_newEntries (by omega) hbound, show q - lfnEntryCount name = 0 by omega]
    show (82 : UInt8) ≠ 0
    decide

theorem newEntries_last {t : Nat} (h1 : 32 * (lfnEntryCount name + 1) ≤ t)
    (h2 : t < 32 * (lfnEntryCount name + 1 + 1)) :
    ((newEntries createIdx name attributes c size).flatMap toBytes).getD t 0 = 0 := by
  have hbound : lfnEntryCount name + 1 < (newEntries createIdx name attributes c size).length := by
    rw [length_newEntries]
    omega
  have hget := getD_flatMap_toBytes _ hbound ⟨t - 32 * (lfnEntryCount name + 1), by omega⟩
  simp only [Nat.add_sub_cancel' h1] at hget
  rw [hget, getElem_newEntries (by omega) hbound, Nat.add_sub_cancel_left]
  rfl

end

/-- **The entries are found in one place only.**  Bytes in groups of 32 that start with another byte
than zero, but for the last group, which is all zero: moved to the right, they do not come to lie
on themselves. -/
theorem no_shift {f : Nat → UInt8} {m s : Nat} (hm : 0 < m) (hs : 0 < s) (hlt : s < 32 * (m + 1))
    (hfirst : ∀ q < m, f (32 * q) ≠ 0)
    (hlast : ∀ t, 32 * m ≤ t → t < 32 * (m + 1) → f t = 0) :
    ¬ ∀ t < 32 * (m + 1) - s, f t = f (s + t) := by
  intro hshift
  by_cases hsmall : s ≤ 32
  · -- in small steps from the first byte into the last group
    have hsteps : ∀ j, j * s < 32 * (m + 1) → f 0 = f (j * s) := by
      intro j
      induction j with
      | zero => intro _; rw [Nat.zero_mul]
      | succ j ih =>
        intro hj
        rw [Nat.add_mul, Nat.one_mul] at hj ⊢
        rw [ih (by omega), hshift (j * s) (by omega), Nat.add_comm]
    have hdiv := Nat.div_add_mod (32 * (m + 1) - 1) s
    have hmod := Nat.mod_lt (32 * (m + 1) - 1) hs
    rw [Nat.mul_comm] at hdiv
    refine hfirst 0 hm ?_
    rw [Nat.mul_zero, hsteps ((32 * (m + 1) - 1) / s) (by omega)]
    exact hlast _ (by omega) (by omega)
  · -- in one step from the start of a group into the last one
    refine hfirst ((32 * m - s + 31) / 32) (by omega) ?_
    rw [hshift _ (by omega)]
    exact hlast _ (by omega) (by omega)

/-- The entries stand in the directory `d` from index `n` on, and those in front are as before. -/
structure Placed (vol : Fat16Volume) (v v' : View) (d n : Nat)
    (entries : List Fat16DirectoryEntry) : Prop where
  entries : ∀ j (h : j < entries.length), record vol v' d (n + j) = entries[j]
  before : ∀ j < n, record vol v' d j = record vol v d j

theorem Placed.bytes {d : Nat} {entries : List Fat16DirectoryEntry}
    (h : Placed vol v v' d n entries) {t : Nat} (ht : t < 32 * entries.length) :
    dirBytes vol v' d (n * 32 + t) = (entries.flatMap toBytes).getD t 0 := by
  have hj : t / 32 < entries.length := by omega
  have hget := getD_flatMap_toBytes entries hj ⟨t % 32, Nat.mod_lt _ (by decide)⟩
  rw [← h.entries _ hj] at hget
  simp only [Nat.div_add_mod] at hget
  rw [hget, record]
  congr 1
  simp only
  omega

/-- **Entries that were written along the chain of a directory** and stand at its end were written
there. -/
theorem Placed.offset_eq {d off createIdx c size : Nat} {name : List UInt8} {attributes : UInt8}
    {v₂ : View} {ext : List Nat} (hvalid : isInvalidClusterNum d = false)
    (hend : DirEnd vol v₂ d n) (hname : lfnEntryCount name + 2 ≤ 65)
    (hw : Written vol v₂ v' (v₂.chain d) ext off
      ((newEntries createIdx name attributes c size).flatMap toBytes))
    (hp : Placed vol v v' d n (newEntries createIdx name attributes c size)) : off = n * 32 := by
  have hroot : d ≠ parentIsRootDir := by
    rintro rfl
    exact absurd hvalid (by decide)
  have hlen : ((newEntries createIdx name attributes c size).flatMap toBytes).length =
      32 * (lfnEntryCount name + 1 + 1) := length_newEntries_bytes
  have hbytes : ∀ i, dirBytes vol v' d i = (content vol v₂ (v₂.chain d ++ ext)).write off
      ((newEntries createIdx name attributes c size).flatMap toBytes) i := by
    intro i
    rw [dirBytes, if_neg hroot, hw.chain_eq_append hvalid, hw.content_eq]
  have hplaced : ∀ t < 32 * (lfnEntryCount name + 1 + 1), dirBytes vol v' d (n * 32 + t) =
      ((newEntries createIdx name attributes c size).flatMap toBytes).getD t 0 :=
    fun t ht => hp.bytes (by rw [length_newEntries]; exact ht)
  -- the zero of the old end
  have hzero : content vol v₂ (v₂.chain d ++ ext) (n * 32) = 0 := by
    have hin := hend.inDir
    rw [InDir, if_neg hroot, capacity] at hin
    have hold : content vol v₂ (v₂.chain d ++ ext) (n * 32) = dirBytes vol v₂ d (n * 32) := by
      rw [dirBytes, if_neg hroot]
      exact joined_append (by omega)
    exact hold.trans hend.zero
  have hstart := hplaced 0 (by omega)
  rw [Nat.add_zero, hbytes] at hstart
  have hfirst : ∀ q < lfnEntryCount name + 1,
      ((newEntries createIdx name attributes c size).flatMap toBytes).getD (32 * q) 0 ≠ 0 :=
    fun q hq => newEntries_firstByte hname hq
  have hne := hfirst 0 (Nat.succ_pos _)
  rw [Nat.mul_zero] at hne
  by_contra hoff
  rcases Nat.lt_or_ge (n * 32) off with hlt | hge
  · rw [Mem.write_of_lt _ _ hlt, hzero] at hstart
    exact hne hstart.symm
  rcases Nat.lt_or_ge (n * 32 - off) (32 * (lfnEntryCount name + 1 + 1)) with hlt | hout
  · refine no_shift
      (f := fun t => ((newEntries createIdx name attributes c size).flatMap toBytes).getD t 0)
      (Nat.succ_pos _) (by omega) hlt hfirst (fun t h1 h2 => newEntries_last h1 h2) fun t ht => ?_
    rw [← hplaced t (by omega), hbytes, Mem.write_of_mem _ _ (by omega) (by omega)]
    congr 1
    omega
  · rw [Mem.write_of_ge _ _ (by omega), hzero] at hstart
    exact hne hstart.symm

/-! ### The call returns -/

/-- The clusters that a directory gets for `m` entries at the place that its size says. -/
def entriesNeed (vol : Fat16Volume) (v : View) (parent m : Nat) : Nat :=
  turns vol (((direntOf vol v parent).fileSizeBytes + 2 ^ 32 - 32) % 2 ^ 32) (32 * m) -
    ((v.chain (direntOf vol v parent).clusterNumber).length - 1)

theorem createInode_of_calls {s : FatState} {parent newInodeType c size : Nat} {name : List UInt8}
    {stat : Stat} {attributes : UInt8} {disk₁ disk₂ : Mem}
    (hstat : statFile vol s.disk parent = .ok stat) (hdir : sIsdir stat.stMode = true)
    (hname : lfnEntryCount name + 2 ≤ 65)
    (hnew : newNodeChain vol s.disk newInodeType = .ok (c, size, disk₁))
    (hattr : createFatMode newInodeType = .ok attributes)
    (hins : insertEntries vol disk₁ parent (newEntries s.createIdx name attributes c size) =
      .ok disk₂) :
    createInode vol s parent newInodeType name =
      .ok { disk := disk₂, createIdx := (s.createIdx + 1) % 2 ^ 32 } := by
  have hlen : name.length < charsPerLfn * 65 := by
    rw [lfnEntryCount] at hname
    rw [charsPerLfn] at hname ⊢
    omega
  rw [createInode, hstat, ok_bind, ensure_of hdir, ok_bind]
  simp only
  rw [ensure_of hlen, ok_bind, ensure_of hname, ok_bind, hnew, ok_bind]
  simp only
  rw [hattr, ok_bind]
  exact bind_eq_ok.mpr ⟨disk₂, hins, rfl⟩

theorem DirEnd.unique {d m : Nat} (h : DirEnd vol v d n) (h' : DirEnd vol v d m) : n = m := by
  rcases Nat.lt_trichotomy n m with hlt | heq | hlt
  · exact absurd h.zero (h'.before n hlt)
  · exact heq
  · exact absurd h'.zero (h.before m hlt)

theorem findRootEnd_enough (hg : Geometry vol) (hend : DirEnd vol (view vol disk) parentIsRootDir n)
    (fuel : Nat) : ∀ k ≤ n, n < k + fuel → findRootEnd vol disk (k * 32) fuel = .ok (n * 32) := by
  induction fuel with
  | zero => exact fun k hk hlt => absurd hlt (by omega)
  | succ fuel ih =>
    intro k hk hlt
    have hread := readFromDirectory_ok hg (.inl rfl) (k := k) (n := 1)
      (hend.inDir.mono (by omega))
    rw [readFromDirectory, if_pos rfl, Nat.one_mul] at hread
    rw [findRootEnd, hread, ok_bind, ofBytes_read]
    rcases Nat.eq_or_lt_of_le hk with rfl | hk
    · rw [if_pos hend.zero]
      rfl
    · rw [if_neg (hend.before k hk), show k * 32 + 32 = (k + 1) * 32 by omega]
      exact ih (k + 1) hk (by omega)

theorem insertEntries_root_enough (hg : Geometry vol)
    (hend : DirEnd vol (view vol disk) parentIsRootDir n) {entries : List Fat16DirectoryEntry}
    (hroom : n * 32 + 32 * entries.length < rootBytes vol) :
    ∃ disk', insertEntries vol disk iAmRootDir entries = .ok disk' := by
  have hroot := hg.dataStart_lt
  have hdef : vol.numberOfSectorsRootDirectory * vol.bytesPerSector = rootBytes vol := rfl
  have hlen : (entries.flatMap toBytes).length = entries.length * 32 := by
    rw [length_flatMap_toBytes, Nat.mul_comm]
  rw [dataStart] at hroot
  have hfind := findRootEnd_enough hg hend (rootBytes vol / 32 + 1) 0 (Nat.zero_le n) (by omega)
  rw [Nat.zero_mul] at hfind
  have hcheck : checkRootDir vol (n * 32) (entries.length * 32) = .ok () := by
    rw [checkRootDir_eq hg (by omega), ensure_of (by omega)]
  rw [insertEntries]
  simp only [if_true]
  rw [hdef, hfind, ok_bind, writeToRootDir, hlen, hcheck]
  exact ⟨_, rfl⟩

section

variable {E : Nat → Nat → Prop} {spare : List Nat} (hg : Geometry vol)
  (hs : Sound vol (view vol disk) E spare) {parent : Nat} (he : IsNode E parent)
  (hdir : (direntOf vol (view vol disk) parent).IsDirectory)
  (hself : (direntOf vol (view vol disk) parent).clusterNumber ≠ getParentClusterNum parent)
include hg hs he hdir hself

omit hg in
theorem Resized.sameDir {v₂ : View} {m : Nat} {ext : List Nat}
    (hr : Resized vol (view vol disk) v₂ (getParentClusterNum parent)
      (getDirentIndexInParent parent) m ext) :
    SameDir vol (view vol disk) v₂ (direntOf vol (view vol disk) parent).clusterNumber :=
  (hs.frame_dir (hs.parent _ _ he) hr.written).1 _ (.inr ⟨_, _, he, hdir, rfl⟩) hself

theorem insertEntries_allocates {entries : List Fat16DirectoryEntry} {disk₂ : Mem}
    (hw : writeParentDirent vol disk parent ((direntOf vol (view vol disk) parent).withFileSizeBytes
      ((direntOf vol (view vol disk) parent).fileSizeBytes + 32 * (entries.length - 1))) = .ok disk₂) :
    Allocates vol (view vol disk₂)
      ((view vol disk₂).chain (direntOf vol (view vol disk) parent).clusterNumber)
      (entriesNeed vol (view vol disk) parent entries.length)
      (insertEntries vol disk parent entries) := by
  obtain ⟨ext₁, hr, hchain⟩ := resized_of_write hg hs he hdir hw
  have hvalid : isInvalidClusterNum (direntOf vol (view vol disk) parent).clusterNumber = false :=
    hs.directory _ _ he hdir
  have hcons := chain_eq_cons (view vol disk₂) hvalid
  have hlen := congrArg List.length (hr.sameDir hs he hdir hself).chain
  rw [hcons, List.length_cons] at hlen
  have hall := writeToClusterChain_allocates hg hchain
    (((direntOf vol (view vol disk) parent).fileSizeBytes + 2 ^ 32 - 32) % 2 ^ 32)
    (entries.flatMap toBytes)
  rw [length_flatMap_toBytes, ← hcons] at hall
  rw [insertEntries_eq hg hs he, hw, ok_bind, entriesNeed, ← hlen, Nat.add_sub_cancel]
  exact hall

/-- **Enough free clusters are enough** for entries at the place that the size says. -/
theorem insertEntries_enough {entries : List Fat16DirectoryEntry}
    (h : direntNeed vol (view vol disk) parent +
        entriesNeed vol (view vol disk) parent entries.length ≤
      (freeClusters vol (view vol disk)).length) :
    ∃ disk', insertEntries vol disk parent entries = .ok disk' := by
  have hdirent := hs.hasDirent he
  obtain ⟨disk₂, hw, hgrown⟩ := (writeParentDirent_allocates hg hdirent
    ((direntOf vol (view vol disk) parent).withFileSizeBytes
      ((direntOf vol (view vol disk) parent).fileSizeBytes + 32 * (entries.length - 1)))).enough
    (by omega)
  have hfree := hgrown.freeClusters_drop hdirent.isDir.isChain
  obtain ⟨disk', hok, -⟩ := (insertEntries_allocates hg hs he hdir hself hw).enough (by
    rw [hfree, List.length_drop]
    omega)
  exact ⟨disk', hok⟩

/-- **What the entries have taken** when the call returns: then there is a cluster behind them, and
one behind the directory's own entry. -/
theorem insertEntries_takes {entries : List Fat16DirectoryEntry}
    (h : insertEntries vol disk parent entries = .ok disk') :
    direntNeed vol (view vol disk) parent + entriesNeed vol (view vol disk) parent entries.length ≤
        (freeClusters vol (view vol disk)).length ∧
      freeClusters vol (view vol disk') = (freeClusters vol (view vol disk)).drop
        (direntNeed vol (view vol disk) parent +
          entriesNeed vol (view vol disk) parent entries.length) ∧
      ((view vol disk').chain (direntOf vol (view vol disk) parent).clusterNumber).length =
        ((view vol disk).chain (direntOf vol (view vol disk) parent).clusterNumber).length +
          entriesNeed vol (view vol disk) parent entries.length ∧
      direntNeed vol (view vol disk') parent = 0 := by
  have hdirent := hs.hasDirent he
  have hvalid : isInvalidClusterNum (direntOf vol (view vol disk) parent).clusterNumber = false :=
    hs.directory _ _ he hdir
  have hok := h
  rw [insertEntries_eq hg hs he, bind_eq_ok] at h
  obtain ⟨disk₂, hw, h⟩ := h
  obtain ⟨hle, hgrown⟩ := (writeParentDirent_allocates hg hdirent _).of_ok hw
  obtain ⟨ext₁, hr, hchain⟩ := resized_of_write hg hs he hdir hw
  obtain ⟨hle', hgrown'⟩ := (insertEntries_allocates hg hs he hdir hself hw).of_ok hok
  have hfree := hgrown.freeClusters_drop hdirent.isDir.isChain
  have hsame := hr.sameDir hs he hdir hself
  have hcons := chain_eq_cons (view vol disk₂) hvalid
  rw [hfree, List.length_drop] at hle'
  refine ⟨by omega, ?_, ?_, ?_⟩
  · rw [hgrown'.freeClusters_drop (hcons ▸ hchain), hfree, List.drop_drop]
  · rw [hgrown'.chain_eq_append hvalid, List.length_append, List.length_take, hfree,
      List.length_drop, hsame.chain]
    omega
  · -- the other directory is left alone when the entries are written
    rw [direntNeed]
    split
    · rfl
    · rename_i hroot
      have hvalid' := (hdirent.isDir.resolve_left hroot).1
      obtain ⟨ext, hwritten⟩ := writeToClusterChain_ok hg hchain h
      rw [← hcons] at hwritten
      have hs₂ := hr.sound hs he
      have hd₂ : DirOf vol (view vol disk₂) E
          (direntOf vol (view vol disk) parent).clusterNumber := by
        refine .inr ⟨_, _, he, hr.name.isDirectory.mpr hdir, ?_⟩
        rw [hr.record_self, clusterNumber_withFileSizeBytes]
        rfl
      have hother := (hs₂.frame_dir hd₂ (hwritten.dirWritten hvalid)).1 _ (hs₂.parent _ _ he)
        hself.symm
      rw [direntNeed, if_neg hroot] at hgrown
      rw [hother.chain, hgrown.chain_eq_append hvalid', List.length_append, List.length_take]
      rw [direntNeed, if_neg hroot] at hle
      have hpos := congrArg List.length (chain_eq_cons (view vol disk) hvalid')
      rw [List.length_cons] at hpos
      omega

end

/-! ### Where the entries are -/

/-- There is room for the entries of a new node at the end of its directory: the table has a free
entry for a new directory and for each cluster that the entries reach into, and the root directory
is long enough. -/
def HasRoom (vol : Fat16Volume) (v : View) (parent newInodeType : Nat) (name : List UInt8)
    (n : Nat) : Prop :=
  (if sIsdir newInodeType then 1 else 0) +
      (if parent = iAmRootDir then 0 else clustersFor vol (32 * (n + lfnEntryCount name + 2)) -
        (v.chain (directoryOf vol v parent)).length) ≤ (freeEntries vol v).length ∧
    (parent = iAmRootDir → 32 * (n + lfnEntryCount name + 2) ≤ rootBytes vol)

/-- The clusters that `create_inode` takes, where the directory is not the root. -/
def createNeed (vol : Fat16Volume) (v : View) (parent newInodeType : Nat) (name : List UInt8) : Nat :=
  newNeed newInodeType + direntNeed vol v parent + entriesNeed vol v parent (lfnEntryCount name + 2)

/-- **`create_inode` returns and puts the new entries at the end**, at index `n`, and those in front
stay as they are. -/
def CreatesAtEnd (vol : Fat16Volume) (s : FatState) (parent newInodeType : Nat) (name : List UInt8)
    (n : Nat) : Prop :=
  ∃ s' attributes c size disk₁, createInode vol s parent newInodeType name = .ok s' ∧
    createFatMode newInodeType = .ok attributes ∧
    newNodeChain vol s.disk newInodeType = .ok (c, size, disk₁) ∧
    Placed vol (view vol s.disk) (view vol s'.disk) (directoryOf vol (view vol s.disk) parent) n
      (newEntries s.createIdx name attributes c size)

theorem DirWritten.placed {v₂ : View} {d : Nat} {ext : List Nat} {entries : List Fat16DirectoryEntry}
    (hw : DirWritten vol v₂ v' d ext (n * 32) (entries.flatMap toBytes)) (hend : DirEnd vol v₂ d n)
    (hsame : SameDir vol v v₂ d) : Placed vol v v' d n entries := by
  refine ⟨fun j hj => hw.record_entries hj, fun j hj => ?_⟩
  rw [hw.record_of_disjoint (hend.inDir.mono (by omega)) (by omega), hsame.record]

section

variable (hg : Geometry vol) {s : FatState} (hwf : WellFormed vol (view vol s.disk))
  {parent newInodeType : Nat} {name : List UInt8} {stat : Stat} {attributes : UInt8}
  (hstat : statFile vol s.disk parent = .ok stat) (hdir : sIsdir stat.stMode = true)
  (hname : lfnEntryCount name + 2 ≤ 65) (hattr : createFatMode newInodeType = .ok attributes)
  (hend : DirEnd vol (view vol s.disk) (directoryOf vol (view vol s.disk) parent) n)
include hg hwf hstat hdir hname hattr hend

/-- **In the root directory** one byte stays free. -/
theorem createsAtEnd_root_iff (hroot : parent = iAmRootDir) :
    CreatesAtEnd vol s parent newInodeType name n ↔
      newNeed newInodeType ≤ (freeClusters vol (view vol s.disk)).length ∧
        32 * (n + lfnEntryCount name + 2) < rootBytes vol := by
  subst hroot
  rw [directoryOf, if_pos rfl] at hend
  have hlen : ∀ c size, (newEntries s.createIdx name attributes c size).length =
      lfnEntryCount name + 2 := fun _ _ => length_newEntries
  constructor
  · rintro ⟨s', attributes', c, size, disk₁, hok, hattr', hnew, -⟩
    obtain ⟨-, c', size', disk₁', attributes₀, -, -, -, hnew₀, hattr₀, hins⟩ := createInode_calls hok
    cases hnew.symm.trans hnew₀
    cases hattr.symm.trans hattr₀
    obtain ⟨hp, -⟩ := newNodeChain_ok hg hwf.sound hnew
    have hins' : insertEntries vol disk₁ iAmRootDir (newEntries s.createIdx name attributes c size) =
        .ok s'.disk := hins
    obtain ⟨m, ext, hend', hw⟩ := insertEntries_root hg (by rw [hlen]; exact hname) hins'
    obtain rfl := (hend.congr (hp.dirs parentIsRootDir (.inl rfl))).unique hend'
    have hin := hw.room (by simp [newEntries, toBytes])
    rw [InDir, if_pos rfl, length_flatMap_toBytes, hlen] at hin
    exact ⟨((newNodeChain_free s.disk hg newInodeType).2 c size disk₁ hnew).1, by omega⟩
  · rintro ⟨hfree, hroom⟩
    obtain ⟨⟨c, size, disk₁⟩, hnew⟩ := (newNodeChain_free s.disk hg newInodeType).1 hfree
    obtain ⟨hp, -⟩ := newNodeChain_ok hg hwf.sound hnew
    have hsame := hp.dirs parentIsRootDir (.inl rfl)
    have hend₁ := hend.congr hsame
    obtain ⟨disk₂, hins⟩ : ∃ disk₂, insertEntries vol disk₁ iAmRootDir
        (newEntries s.createIdx name attributes c size) = .ok disk₂ :=
      insertEntries_root_enough hg hend₁ (by rw [hlen]; omega)
    obtain ⟨m, ext, hend', hw⟩ := insertEntries_root hg (by rw [hlen]; exact hname) hins
    obtain rfl := hend₁.unique hend'
    refine ⟨_, attributes, c, size, disk₁,
      createInode_of_calls hstat hdir hname hnew hattr hins, hattr, hnew, ?_⟩
    rw [directoryOf, if_pos rfl]
    exact hw.placed hend₁ hsame

end

section

variable (hg : Geometry vol) {s : FatState} (hwf : WellFormed vol (view vol s.disk))
  {parent newInodeType : Nat} (he : IsNode (Entry vol (view vol s.disk)) parent)
  (hisDir : (direntOf vol (view vol s.disk) parent).IsDirectory) {c size : Nat} {disk₁ : Mem}
  (hnew : newNodeChain vol s.disk newInodeType = .ok (c, size, disk₁))
include hg hwf he hisDir hnew

theorem newNodeChain_parent : ∃ spare,
    Sound vol (view vol disk₁) (Entry vol (view vol s.disk)) spare ∧
    direntOf vol (view vol disk₁) parent = direntOf vol (view vol s.disk) parent ∧
    SameDir vol (view vol s.disk) (view vol disk₁)
      (direntOf vol (view vol s.disk) parent).clusterNumber ∧
    (direntOf vol (view vol s.disk) parent).clusterNumber ≠ getParentClusterNum parent := by
  have hs := hwf.sound
  obtain ⟨hp, -⟩ := newNodeChain_ok hg hs hnew
  have hparent := hp.dirs _ (hs.parent _ _ he)
  exact ⟨_, hp.sound, hparent.record _, hp.dirs _ (.inr ⟨_, _, he, hisDir, rfl⟩),
    he.reach.ne_self hwf _ he.listed hisDir⟩

theorem newNodeChain_needs :
    direntNeed vol (view vol disk₁) parent = direntNeed vol (view vol s.disk) parent ∧
    ∀ m, entriesNeed vol (view vol disk₁) parent m = entriesNeed vol (view vol s.disk) parent m := by
  obtain ⟨hp, -⟩ := newNodeChain_ok hg hwf.sound hnew
  have hparent := hp.dirs _ (hwf.sound.parent _ _ he)
  obtain ⟨-, -, hrec, hsame, -⟩ := newNodeChain_parent hg hwf he hisDir hnew
  refine ⟨by rw [direntNeed, direntNeed, hparent.chain], fun m => ?_⟩
  rw [entriesNeed, entriesNeed, hrec, hsame.chain]

theorem insertEntries_offset {entries : List Fat16DirectoryEntry}
    (hins : insertEntries vol disk₁ parent entries = .ok disk') :
    ∃ v₂ ext, SameDir vol (view vol s.disk) v₂ (direntOf vol (view vol s.disk) parent).clusterNumber ∧
      Written vol v₂ (view vol disk') (v₂.chain (direntOf vol (view vol s.disk) parent).clusterNumber)
        ext (((direntOf vol (view vol s.disk) parent).fileSizeBytes + 2 ^ 32 - 32) % 2 ^ 32)
        (entries.flatMap toBytes) := by
  obtain ⟨spare, hs₁, hrec, hsame, hself⟩ := newNodeChain_parent hg hwf he hisDir hnew
  rw [← hrec] at hisDir hself hsame ⊢
  obtain ⟨v₂, ext₁, ext, hr, hw⟩ := insertEntries_written hg hs₁ he hisDir hins
  exact ⟨v₂, ext, hsame.trans (hr.sameDir hs₁ he hisDir hself), hw⟩

omit hnew in
/-- **What `create_inode` has taken** when it returns. -/
theorem createInode_takes {s' : FatState} {name : List UInt8}
    (h : createInode vol s parent newInodeType name = .ok s') :
    createNeed vol (view vol s.disk) parent newInodeType name ≤
        (freeClusters vol (view vol s.disk)).length ∧
      freeClusters vol (view vol s'.disk) = (freeClusters vol (view vol s.disk)).drop
        (createNeed vol (view vol s.disk) parent newInodeType name) ∧
      ((view vol s'.disk).chain (direntOf vol (view vol s.disk) parent).clusterNumber).length =
        ((view vol s.disk).chain (direntOf vol (view vol s.disk) parent).clusterNumber).length +
          entriesNeed vol (view vol s.disk) parent (lfnEntryCount name + 2) ∧
      direntNeed vol (view vol s'.disk) parent = 0 := by
  obtain ⟨-, c, size, disk₁, attributes, -, -, -, hnew, hattr, hins⟩ := createInode_calls h
  obtain ⟨hle, hfree⟩ := (newNodeChain_free s.disk hg newInodeType).2 c size disk₁ hnew
  obtain ⟨spare, hs₁, hrec, hsame, hself⟩ := newNodeChain_parent hg hwf he hisDir hnew
  obtain ⟨hneed, hneed'⟩ := newNodeChain_needs hg hwf he hisDir hnew
  obtain ⟨hle', hfree', hlength, hdirent⟩ := insertEntries_takes hg hs₁ he
    (by rw [hrec]; exact hisDir) (by rw [hrec]; exact hself) hins
  have hlen : (longEntries s.createIdx name ++ [ofFields (shortFileName s.createIdx) attributes c size,
      endSentinel]).length = lfnEntryCount name + 2 := length_newEntries
  rw [hneed, hneed', hlen, hfree, List.length_drop] at hle'
  rw [hneed, hneed', hlen, hfree, List.drop_drop] at hfree'
  rw [hneed', hlen, hrec, hsame.chain] at hlength
  rw [createNeed]
  refine ⟨by omega, ?_, hlength, hdirent⟩
  rw [hfree', Nat.add_assoc]

end

section

variable (hg : Geometry vol) {s : FatState} (hwf : WellFormed vol (view vol s.disk))
  {parent newInodeType : Nat} {name : List UInt8} {stat : Stat} {attributes : UInt8}
  (hstat : statFile vol s.disk parent = .ok stat) (hdir : sIsdir stat.stMode = true)
  (hname : lfnEntryCount name + 2 ≤ 65) (hattr : createFatMode newInodeType = .ok attributes)
  (hend : DirEnd vol (view vol s.disk) (directoryOf vol (view vol s.disk) parent) n)
include hg hwf hstat hdir hname hattr hend

/-- **In any other directory** the size decides, and whether the search finds the clusters. -/
theorem createsAtEnd_node_iff (he : IsNode (Entry vol (view vol s.disk)) parent) :
    CreatesAtEnd vol s parent newInodeType name n ↔
      (direntOf vol (view vol s.disk) parent).fileSizeBytes = 32 * (n + 1) ∧
        createNeed vol (view vol s.disk) parent newInodeType name ≤
          (freeClusters vol (view vol s.disk)).length := by
  have hs := hwf.sound
  have hroot := he.ne_iAmRootDir hs
  have hisDir := isDirectory_of_stat hg (hs.hasDirent he) hstat hdir
  have hvalid : isInvalidClusterNum (direntOf vol (view vol s.disk) parent).clusterNumber = false :=
    hs.directory _ _ he hisDir
  have hsize := fileSizeBytes_lt (direntOf vol (view vol s.disk) parent)
  rw [directoryOf, if_neg hroot] at hend
  have hlt := hend.inDir.lt hg (hs.isDir (.inr ⟨_, _, he, hisDir, rfl⟩))
  have hlen : ∀ c size, (newEntries s.createIdx name attributes c size).length =
      lfnEntryCount name + 2 := fun _ _ => length_newEntries
  constructor
  · rintro ⟨s', attributes', c, size, disk₁, hok, hattr', hnew, hp⟩
    rw [directoryOf, if_neg hroot] at hp
    obtain ⟨-, c', size', disk₁', attributes₀, -, -, -, hnew₀, hattr₀, hins⟩ := createInode_calls hok
    cases hnew.symm.trans hnew₀
    cases hattr'.symm.trans hattr₀
    cases hattr.symm.trans hattr'
    obtain ⟨v₂, ext, hsame, hw⟩ := insertEntries_offset hg hwf he hisDir hnew hins
    have hoff := hp.offset_eq hvalid (hend.congr hsame) hname hw
    exact ⟨by omega, (createInode_takes hg hwf he hisDir hok).1⟩
  · rintro ⟨heq, hfound⟩
    have hoff : ((direntOf vol (view vol s.disk) parent).fileSizeBytes + 2 ^ 32 - 32) % 2 ^ 32 =
        n * 32 := by omega
    rw [createNeed] at hfound
    obtain ⟨⟨c, size, disk₁⟩, hnew⟩ := (newNodeChain_free s.disk hg newInodeType).1 (by omega)
    obtain ⟨-, hfree⟩ := (newNodeChain_free s.disk hg newInodeType).2 c size disk₁ hnew
    obtain ⟨spare, hs₁, hrec, -, hself⟩ := newNodeChain_parent hg hwf he hisDir hnew
    obtain ⟨hneed, hneed'⟩ := newNodeChain_needs hg hwf he hisDir hnew
    obtain ⟨disk₂, hins⟩ : ∃ disk₂, insertEntries vol disk₁ parent
        (newEntries s.createIdx name attributes c size) = .ok disk₂ := by
      refine insertEntries_enough hg hs₁ he (by rw [hrec]; exact hisDir) (by rw [hrec]; exact hself) ?_
      rw [hneed, hneed', hlen, hfree, List.length_drop]
      omega
    obtain ⟨v₂, ext, hsame₂, hw⟩ := insertEntries_offset hg hwf he hisDir hnew hins
    rw [hoff] at hw
    refine ⟨_, attributes, c, size, disk₁,
      createInode_of_calls hstat hdir hname hnew hattr hins, hattr, hnew, ?_⟩
    rw [directoryOf, if_neg hroot]
    exact (hw.dirWritten hvalid).placed (hend.congr hsame₂) hsame₂

/-- **Where `create_inode` puts the new entries.**  With room for them, they come to the end of the
root directory exactly if they do not fill it, and to the end of any other directory exactly if its
size counts its entries and the end; and the search must find the clusters that the call takes. -/
theorem create_inode_at_end_iff
    (hnode : parent = iAmRootDir ∨ IsNode (Entry vol (view vol s.disk)) parent)
    (hroom : HasRoom vol (view vol s.disk) parent newInodeType name n) :
    CreatesAtEnd vol s parent newInodeType name n ↔
      (parent = iAmRootDir ∧ 32 * (n + lfnEntryCount name + 2) ≠ rootBytes vol ∧
        newNeed newInodeType ≤ (freeClusters vol (view vol s.disk)).length) ∨
      (parent ≠ iAmRootDir ∧
        (direntOf vol (view vol s.disk) parent).fileSizeBytes = 32 * (n + 1) ∧
        createNeed vol (view vol s.disk) parent newInodeType name ≤
          (freeClusters vol (view vol s.disk)).length) := by
  rcases hnode with hroot | he
  · rw [createsAtEnd_root_iff hg hwf hstat hdir hname hattr hend hroot]
    have hle := hroom.2 hroot
    constructor
    · rintro ⟨hfree, hlt⟩
      exact .inl ⟨hroot, by omega, hfree⟩
    · rintro (⟨-, hne, hfree⟩ | ⟨hne, -⟩)
      · exact ⟨hfree, by omega⟩
      · exact absurd hroot hne
  · have hroot := he.ne_iAmRootDir hwf.sound
    rw [createsAtEnd_node_iff hg hwf hstat hdir hname hattr hend he]
    exact ⟨fun h => .inr ⟨hroot, h⟩, fun h => (h.resolve_left fun h' => hroot h'.1).2⟩

end

/-! ### A directory of another system -/

/-- A file `x` behind `A` and `B` in the root directory. -/
theorem create_inode_at_end_root :
    CreatesAtEnd twoFats twoFatsDisk iAmRootDir sIfreg [120] 2 := by
  have hstat : statFile twoFats twoFatsDisk.disk iAmRootDir =
      .ok { stIno := iAmRootDir, stMode := sIfdir, stSize := 512 } := by decide +kernel
  have hend : DirEnd twoFats (view twoFats twoFatsDisk.disk)
      (directoryOf twoFats (view twoFats twoFatsDisk.disk) iAmRootDir) 2 := by
    refine ⟨?_, by decide +kernel, by decide +kernel⟩
    unfold InDir
    decide
  have hroom : HasRoom twoFats (view twoFats twoFatsDisk.disk) iAmRootDir sIfreg [120] 2 :=
    ⟨Nat.zero_le _, fun _ => by decide⟩
  have hattr : createFatMode sIfreg = .ok 0 := by decide
  exact (create_inode_at_end_iff twoFats_geometry twoFatsDisk_wellFormed hstat (by decide)
    (by decide) hattr hend (.inl rfl) hroom).mpr (.inl ⟨rfl, by decide, Nat.zero_le _⟩)

/-- A volume with an empty directory `D`, whose entry says the size 0. -/
def foreignDisk : FatState where
  disk := Mem.write (Mem.write (fun _ => 0) 512 fullDirTable) 1536
    (letterEntry 68 fileAttributesDirectory 2).toBytes
  createIdx := 0

theorem foreignDisk_entry {d k : Nat} (he : Entry twoFats (view twoFats foreignDisk.disk) d k) :
    (d, k) = (0, 0) := by
  have hroot : ∀ k, Listed twoFats (view twoFats foreignDisk.disk) 0 k → k = 0 := by
    intro k hl
    by_contra hk
    exact absurd (hl.before 1 (by omega)) (by decide +kernel)
  have hsub : ∀ k, ¬ Listed twoFats (view twoFats foreignDisk.disk) 2 k :=
    fun k hl => absurd (hl.before 0 (Nat.zero_le k)) (by decide +kernel)
  have hreach : ∀ d, Reach twoFats (view twoFats foreignDisk.disk) d → d = 0 ∨ d = 2 := by
    intro d h
    induction h with
    | root => exact .inl rfl
    | sub _ hl _ ih =>
      rcases ih with rfl | rfl
      · obtain rfl := hroot _ hl
        right
        decide +kernel
      · exact absurd hl (hsub _)
  rcases hreach d he.reach with rfl | rfl
  · rw [hroot k he.listed]
  · exact absurd he.listed (hsub k)

theorem foreignDisk_wellFormed : WellFormed twoFats (view twoFats foreignDisk.disk) := by
  have hchain : IsChain twoFats (view twoFats foreignDisk.disk) [2] := by
    refine ⟨by decide, ?_, trivial⟩
    decide +kernel
  have hD : chainOf twoFats (view twoFats foreignDisk.disk) 0 0 = [2] := by
    have hcluster : (record twoFats (view twoFats foreignDisk.disk) 0 0).clusterNumber = 2 := by
      decide +kernel
    rw [chainOf, hcluster, hchain.chain_eq]
  exact .of_one_chain hchain hD (fun _ => by decide +kernel)
    fun d k he => .inl (foreignDisk_entry he)

/-- There is room for a file in `D`, which ends at index 0, but `create_inode` does not put it
there: it asks for the offset `2 ^ 32 - 32`. -/
theorem create_inode_in_foreign_directory :
    WellFormed twoFats (view twoFats foreignDisk.disk) ∧
      IsNode (Entry twoFats (view twoFats foreignDisk.disk)) 0 ∧
      statFile twoFats foreignDisk.disk 0 = .ok { stIno := 0, stMode := sIfdir, stSize := 0 } ∧
      DirEnd twoFats (view twoFats foreignDisk.disk)
        (directoryOf twoFats (view twoFats foreignDisk.disk) 0) 0 ∧
      HasRoom twoFats (view twoFats foreignDisk.disk) 0 sIfreg [120] 0 ∧
      ¬ CreatesAtEnd twoFats foreignDisk 0 sIfreg [120] 0 := by
  have he : IsNode (Entry twoFats (view twoFats foreignDisk.disk)) 0 := by
    refine ⟨.root, ?_, ?_, ?_⟩
    · unfold InDir
      decide
    · decide +kernel
    · decide +kernel
  have hstat : statFile twoFats foreignDisk.disk 0 =
      .ok { stIno := 0, stMode := sIfdir, stSize := 0 } := by decide +kernel
  have hend : DirEnd twoFats (view twoFats foreignDisk.disk)
      (directoryOf twoFats (view twoFats foreignDisk.disk) 0) 0 := by
    refine ⟨?_, by decide +kernel, by decide +kernel⟩
    unfold InDir
    decide +kernel
  have hroom : HasRoom twoFats (view twoFats foreignDisk.disk) 0 sIfreg [120] 0 := by
    unfold HasRoom
    decide +kernel
  have hattr : createFatMode sIfreg = .ok 0 := by decide
  refine ⟨foreignDisk_wellFormed, he, hstat, hend, hroom, fun h => ?_⟩
  have hsize := (createsAtEnd_node_iff twoFats_geometry foreignDisk_wellFormed hstat (by decide)
    (by decide) hattr hend he).mp h
  exact absurd hsize.1 (by decide +kernel)

end Stuos.Fs.Fat
