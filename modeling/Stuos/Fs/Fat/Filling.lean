import Stuos.Fs.Fat.Listing
import Stuos.Fs.Fat.Placing

/-!
# Filling a directory

How many clusters `create_inode` takes while it fills a directory that it made, and what is listed
then.

* `Filled.createAll_ok_iff`: the calls return exactly if the search finds `allNeed` clusters.
* `directory_list_law`: exactly then the nodes are listed in the order of their creation.
-/

namespace Stuos.Fs.Fat

open Stuos.Lib Fat16DirectoryEntry

section

variable {vol : Fat16Volume} {v : View} {ino : Nat} {recs : List Fat16DirectoryEntry}

/-- The clusters of the directory that nodes are created in. -/
def dirLength (vol : Fat16Volume) (v : View) (ino : Nat) : Nat :=
  (v.chain (direntOf vol v ino).clusterNumber).length

/-- The clusters that new nodes need in a directory with `m` entries: one for a new directory, and
those that the entries and the end reach into. -/
def nodesNeed (vol : Fat16Volume) (v : View) (ino m : Nat) (files : List (Nat × List UInt8)) : Nat :=
  (files.filter fun file => sIsdir file.1).length +
    (clustersFor vol (32 * (m + entriesOf files + 1)) - dirLength vol v ino)

/-- The clusters that `create_inode` takes for them: two for a new directory, the one behind the
entry of their directory, and always one more than the entries reach into. -/
def allNeed (vol : Fat16Volume) (v : View) (ino m : Nat) (files : List (Nat × List UInt8)) : Nat :=
  (files.map fun file => newNeed file.1).sum +
    if files = [] then 0
    else direntNeed vol v ino +
      (clustersFor vol (32 * (m + entriesOf files + 1)) + 1 - dirLength vol v ino)

theorem clustersFor_mono (vol : Fat16Volume) {m n : Nat} (h : m ≤ n) :
    clustersFor vol m ≤ clustersFor vol n :=
  Nat.div_le_div_right (by omega)

/-! ### One node -/

namespace Filled

variable (hg : Geometry vol) {s : FatState} (hf : Filled vol (view vol s.disk) ino recs)
include hg hf

omit hg in
theorem dirLength_pos : 0 < dirLength vol (view vol s.disk) ino := by
  have hvalid := hf.wellFormed.sound.directory _ _ hf.node hf.isDirectory
  rw [dirLength, direntOf, chain_eq_cons _ hvalid, List.length_cons]
  exact Nat.succ_pos _

theorem entriesNeed_eq (m : Nat) : entriesNeed vol (view vol s.disk) ino (m + 1) =
    clustersFor vol (32 * (recs.length + m + 1)) + 1 - dirLength vol (view vol s.disk) ino := by
  have hpos := hf.dirLength_pos
  have hlt := fileSizeBytes_lt (direntOf vol (view vol s.disk) ino)
  have hsize := hf.size
  have hoff : ((direntOf vol (view vol s.disk) ino).fileSizeBytes + 2 ^ 32 - 32) % 2 ^ 32 =
      32 * recs.length := by omega
  rw [entriesNeed, hoff, turns_eq hg _ (by omega), ← Nat.mul_add, ← Nat.add_assoc]
  rw [dirLength] at hpos ⊢
  omega

/-- **A call that finds the clusters returns.** -/
theorem createInode_ok_iff {file : Nat × List UInt8} (hfile : IsFile file) :
    (∃ s', createInode vol s ino file.1 file.2 = .ok s') ↔
      createNeed vol (view vol s.disk) ino file.1 file.2 ≤
        (freeClusters vol (view vol s.disk)).length := by
  constructor
  · rintro ⟨s', h⟩
    exact (createInode_takes hg hf.wellFormed hf.node hf.isDirectory h).1
  · intro hfound
    have hs := hf.wellFormed.sound
    have hroot := hf.node.ne_iAmRootDir hs
    obtain ⟨attributes, hattr⟩ := createFatMode_of_type hfile.type
    have hmode : readFatMode fileAttributesDirectory = .ok sIfdir := by decide
    have hstat := statFile_eq hg (hs.hasDirent hf.node)
    rw [hf.attributes, hmode, ok_bind] at hstat
    have hname : lfnEntryCount file.2 + 2 ≤ 65 := by
      have := hfile.name.length_le
      rw [lfnEntryCount, charsPerLfn]
      omega
    have hend := hf.dirEnd
    have hd : directoryOf vol (view vol s.disk) ino = (direntOf vol (view vol s.disk) ino).clusterNumber :=
      if_neg hroot
    rw [← hd] at hend
    have hdir : sIsdir sIfdir = true := by decide
    obtain ⟨s', -, -, -, -, hok, -⟩ := (createsAtEnd_node_iff hg hf.wellFormed hstat hdir hname
      hattr hend hf.node).mpr ⟨hf.size, hfound⟩
    exact ⟨s', hok⟩

theorem allNeed_cons {s₁ : FatState} {file : Nat × List UInt8} (files : List (Nat × List UInt8))
    (h : createInode vol s ino file.1 file.2 = .ok s₁) :
    allNeed vol (view vol s.disk) ino recs.length (file :: files) =
      createNeed vol (view vol s.disk) ino file.1 file.2 +
        allNeed vol (view vol s₁.disk) ino (recs.length + (lfnEntryCount file.2 + 1)) files := by
  obtain ⟨-, -, hlength, hdirent⟩ := createInode_takes hg hf.wellFormed hf.node hf.isDirectory h
  have hpos := hf.dirLength_pos
  have hneed := hf.entriesNeed_eq hg (lfnEntryCount file.2 + 1)
  have hsafe : Safe vol s (.createInode ino file.1 file.2) := hf.insertable
  have hcluster := (exec_kept hg hf.wellFormed hsafe h).2.cluster _ _ hf.node hf.isDirectory
  have hlength' : dirLength vol (view vol s₁.disk) ino = dirLength vol (view vol s.disk) ino +
      entriesNeed vol (view vol s.disk) ino (lfnEntryCount file.2 + 2) := by
    rw [dirLength, direntOf, hcluster]
    exact hlength
  have hmono := clustersFor_mono vol (show 32 * (recs.length + (lfnEntryCount file.2 + 1) + 1) ≤
    32 * (recs.length + (lfnEntryCount file.2 + 1) + entriesOf files + 1) by omega)
  rw [hneed] at hlength'
  rw [allNeed, allNeed, createNeed, hneed, hdirent, hlength']
  cases files with
  | nil =>
    simp only [entriesOf, List.map_cons, List.map_nil, List.sum_cons, List.sum_nil, Nat.add_zero,
      List.cons_ne_nil, if_false, if_true]
    omega
  | cons f fs =>
    simp only [List.cons_ne_nil, if_false]
    have hsum : recs.length + entriesOf (file :: f :: fs) + 1 =
        recs.length + (lfnEntryCount file.2 + 1) + entriesOf (f :: fs) + 1 := by
      simp only [entriesOf, List.map_cons, List.sum_cons]
      omega
    rw [hsum, List.map_cons, List.sum_cons]
    omega

theorem createNeed_le {file : Nat × List UInt8} (files : List (Nat × List UInt8)) :
    createNeed vol (view vol s.disk) ino file.1 file.2 ≤
      allNeed vol (view vol s.disk) ino recs.length (file :: files) := by
  have hmono := clustersFor_mono vol (show 32 * (recs.length + (lfnEntryCount file.2 + 1) + 1) ≤
    32 * (recs.length + entriesOf (file :: files) + 1) by
      simp only [entriesOf, List.map_cons, List.sum_cons]
      omega)
  rw [createNeed, hf.entriesNeed_eq hg (lfnEntryCount file.2 + 1), allNeed,
    if_neg (List.cons_ne_nil _ _), List.map_cons, List.sum_cons]
  omega

/-- **The calls return** exactly if the search finds the clusters that they take. -/
theorem createAll_ok_iff {files : List (Nat × List UInt8)} (hfiles : ∀ file ∈ files, IsFile file)
    (hroom : recs.length + entriesOf files < 2 ^ 16) :
    (∃ s', Fat.createAll vol ino s files = .ok s') ↔
      allNeed vol (view vol s.disk) ino recs.length files ≤
        (freeClusters vol (view vol s.disk)).length := by
  induction files generalizing s recs with
  | nil => exact ⟨fun _ => Nat.zero_le _, fun _ => ⟨s, rfl⟩⟩
  | cons file files ih =>
    have hok := hf.createInode_ok_iff hg (hfiles file (List.mem_cons_self ..))
    rw [entriesOf, List.map_cons, List.sum_cons] at hroom
    -- what is left for the others
    have hrest : ∀ s₁, createInode vol s ino file.1 file.2 = .ok s₁ →
        ((∃ s', Fat.createAll vol ino s₁ files = .ok s') ↔
          allNeed vol (view vol s.disk) ino recs.length (file :: files) ≤
            (freeClusters vol (view vol s.disk)).length) := by
      intro s₁ h
      obtain ⟨group, hgroup, hf₁⟩ := hf.create hg (by omega) h
      obtain ⟨hle, hfree, -⟩ := createInode_takes hg hf.wellFormed hf.node hf.isDirectory h
      have hlength : (recs ++ group).length = recs.length + (lfnEntryCount file.2 + 1) := by
        rw [List.length_append, hgroup.length]
      rw [ih hf₁ (fun f hf => hfiles f (List.mem_cons_of_mem _ hf)) (by rw [hlength, entriesOf]; omega),
        hlength, hf.allNeed_cons hg files h, hfree, List.length_drop]
      omega
    constructor
    · rintro ⟨s', h⟩
      rw [Fat.createAll, List.foldlM_cons, bind_eq_ok] at h
      obtain ⟨s₁, hcreate, h⟩ := h
      exact (hrest s₁ hcreate).mp ⟨s', h⟩
    · intro hfound
      obtain ⟨s₁, hcreate⟩ := hok.mpr ((hf.createNeed_le hg files).trans hfound)
      obtain ⟨s', h⟩ := (hrest s₁ hcreate).mpr hfound
      exact ⟨s', by rw [Fat.createAll, List.foldlM_cons, hcreate, ok_bind]; exact h⟩

end Filled

/-! ### The law -/

/-- `read_dirents` gives all the names in the order of their creation, under distinct inode numbers,
and `stat_file` the types that the nodes were created with. -/
def ListsCreated (vol : Fat16Volume) (disk : Mem) (ino : Nat) (files : List (Nat × List UInt8)) :
    Prop :=
  ∀ count, files.length ≤ count → ∃ dirents, readDirents vol disk ino 0 count = .ok dirents ∧
    dirents.map Dirent.dName = files.map Prod.snd ∧ (dirents.map Dirent.dIno).Nodup ∧
    List.Forall₂ (fun dirent file => ∃ stat, statFile vol disk dirent.dIno = .ok stat ∧
      sIsdir stat.stMode = sIsdir file.1 ∧ sIsreg stat.stMode = sIsreg file.1) dirents files

theorem Filled.listsCreated (hg : Geometry vol) {s s' : FatState}
    (hf : Filled vol (view vol s.disk) ino []) {files : List (Nat × List UInt8)}
    (hfiles : ∀ file ∈ files, IsFile file) (hroom : entriesOf files < 2 ^ 16)
    (h : Fat.createAll vol ino s files = .ok s') : ListsCreated vol s'.disk ino files := by
  intro count hcount
  obtain ⟨groups, hgroups, hf'⟩ := hf.createAll hg (by simpa using hroom) h
  rw [List.nil_append] at hf'
  have hd : IsDir vol (view vol s'.disk) (direntOf vol (view vol s'.disk) ino).clusterNumber :=
    hf'.wellFormed.sound.isDir (.inr ⟨_, _, hf'.node, hf'.isDirectory, rfl⟩)
  have hd16 := clusterNumber_lt (direntOf vol (view vol s'.disk) ino)
  have hlength := length_groups hgroups
  refine ⟨_, readDirents_filled hg hf' hgroups (fun file hfile => (hfiles file hfile).name) hroom
    hcount, map_dName_direntsAt _ _ _, nodup_direntsAt hd16 (by omega), ?_⟩
  exact statFile_direntsAt hg hd hd16 hgroups hf'.holdsAt.left (by omega)

/-- **What is created in a new directory is listed**, exactly if the search finds the clusters that
the calls take. -/
theorem directory_list_law (hg : Geometry vol) {s s₁ : FatState} {parent newInodeType : Nat}
    {name : List UInt8} (hwf : WellFormed vol (view vol s.disk))
    (hins : Insertable vol (view vol s.disk) (Entry vol (view vol s.disk)) parent)
    (hdir : sIsdir newInodeType = true)
    (hcreate : createInode vol s parent newInodeType name = .ok s₁)
    (hnode : IsNode (Entry vol (view vol s₁.disk)) ino)
    (hnew : ¬ IsNode (Entry vol (view vol s.disk)) ino) {files : List (Nat × List UInt8)}
    (hfiles : ∀ file ∈ files, IsFile file) (hroom : entriesOf files < 2 ^ 16) :
    (∃ s', createAll vol ino s₁ files = .ok s' ∧ ListsCreated vol s'.disk ino files) ↔
      allNeed vol (view vol s₁.disk) ino 0 files ≤ (freeClusters vol (view vol s₁.disk)).length := by
  have hf := filled_of_create hg hwf hins hdir hcreate hnode hnew
  have hiff := hf.createAll_ok_iff hg hfiles (by simpa using hroom)
  rw [List.length_nil] at hiff
  rw [← hiff]
  exact exists_congr fun s' => and_iff_left_of_imp (hf.listsCreated hg hfiles hroom)

end

/-! ### Runs on sample volumes -/

/-- A directory `d` in the root directory of the sample volume, with a file `a` and a directory
`bc` in it. -/
theorem directory_list_law_two_nodes :
    ∃ s₁ s', createInode twoFats twoFatsDisk iAmRootDir sIfdir [100] = .ok s₁ ∧
      createAll twoFats (3 * 65536) s₁ [(sIfreg, [97]), (sIfdir, [98, 99])] = .ok s' ∧
      ListsCreated twoFats s'.disk (3 * 65536) [(sIfreg, [97]), (sIfdir, [98, 99])] := by
  have hfacts : ((createInode twoFats twoFatsDisk iAmRootDir sIfdir [100]).map
      fun s₁ => view twoFats s₁.disk).map (fun v =>
      decide ((∀ j : Nat, j < 4 → (record twoFats v 0 j).firstByte ≠ 0) ∧
        (record twoFats v 0 3).Names ∧
        allNeed twoFats v (3 * 65536) 0 [(sIfreg, [97]), (sIfdir, [98, 99])] ≤
          (freeClusters twoFats v).length)) = .ok true := by
    decide +kernel
  obtain ⟨v, hv, hfacts⟩ := map_eq_ok.mp hfacts
  obtain ⟨s₁, hcreate, rfl⟩ := map_eq_ok.mp hv
  obtain ⟨hbefore, hnames, hfound⟩ := of_decide_eq_true hfacts
  have hnode : IsNode (Entry twoFats (view twoFats s₁.disk)) (3 * 65536) := by
    refine ⟨.root, ?_, fun j hj => hbefore j (Nat.lt_succ_of_le hj), hnames⟩
    show 3 * 32 + 32 < rootBytes twoFats
    decide
  have hnew : ¬ IsNode (Entry twoFats (view twoFats twoFatsDisk.disk)) (3 * 65536) :=
    fun he => absurd (twoFatsDisk_entry he).2 (by decide)
  have hfiles : ∀ file ∈ [(sIfreg, ([97] : List UInt8)), (sIfdir, [98, 99])], IsFile file := by
    intro file hfile
    simp only [List.mem_cons, List.not_mem_nil, or_false] at hfile
    rcases hfile with rfl | rfl
    · exact ⟨by decide, by decide, by decide, by decide⟩
    · exact ⟨by decide, by decide, by decide, by decide⟩
  obtain ⟨s', hall, hlists⟩ := (directory_list_law twoFats_geometry twoFatsDisk_wellFormed (.inl rfl)
    (by decide) hcreate hnode hnew hfiles (by decide)).mpr hfound
  exact ⟨s₁, s', hcreate, hall, hlists⟩

/-- A volume whose table has 65792 entries, of which `num_clusters` counts 256. -/
def wrapped : Fat16Volume where
  fatsStartSector := 1
  numberOfFats := 1
  numberOfSectorsPerFat := 257
  bytesPerSector := 512
  sectorsPerCluster := 1
  numberOfSectorsRootDirectory := 4

/-- The clusters from 4 to 255 are taken, and all others are free. -/
def wrappedDisk : FatState where
  disk := fun a => if 520 ≤ a ∧ a < 1024 then 0xFF else 0
  createIdx := 0

theorem wrappedDisk_no_entry {d k : Nat} : ¬ Entry wrapped (view wrapped wrappedDisk.disk) d k := by
  have hroot : ∀ k, ¬ Listed wrapped (view wrapped wrappedDisk.disk) parentIsRootDir k :=
    fun k hl => hl.before 0 (Nat.zero_le k) (by decide +kernel)
  have hreach : ∀ d, Reach wrapped (view wrapped wrappedDisk.disk) d → d = parentIsRootDir := by
    intro d h
    induction h with
    | root => rfl
    | sub _ hl _ ih => exact absurd (ih ▸ hl) (hroot _)
  rintro ⟨hr, hl⟩
  exact hroot k (hreach d hr ▸ hl)

theorem wrapped_wellFormed : WellFormed wrapped (view wrapped wrappedDisk.disk) :=
  ⟨fun _ _ he => absurd he wrappedDisk_no_entry, fun _ _ _ _ he => absurd he wrappedDisk_no_entry,
    fun _ _ he => absurd he wrappedDisk_no_entry⟩

/-- A regular file with a name of 255 characters. -/
def longFile : Nat × List UInt8 := (sIfreg, List.replicate 255 97)

/-- In a new directory two files are created whose entries reach into one cluster more than the
directory has, and tens of thousands of clusters are free, but none below `num_clusters`. -/
theorem directory_list_law_wrapped :
    Geometry wrapped ∧ WellFormed wrapped (view wrapped wrappedDisk.disk) ∧ IsFile longFile ∧
    ∃ s₁, createInode wrapped wrappedDisk iAmRootDir sIfdir [100] = .ok s₁ ∧
      IsNode (Entry wrapped (view wrapped s₁.disk)) 65536 ∧
      nodesNeed wrapped (view wrapped s₁.disk) 65536 0 [longFile, longFile] ≤
        (freeEntries wrapped (view wrapped s₁.disk)).length ∧
      createAll wrapped 65536 s₁ [longFile, longFile] = .error .outOfClusters := by
  refine ⟨by refine ⟨?_, ?_, ?_, ?_, ?_, ?_, ?_⟩ <;> decide, wrapped_wellFormed,
    ⟨.inr rfl, by decide +kernel, by decide, by decide +kernel⟩, ?_⟩
  have hfacts : (createInode wrapped wrappedDisk iAmRootDir sIfdir [100]).map (fun s₁ =>
      decide ((∀ j : Nat, j < 2 → (record wrapped (view wrapped s₁.disk) 0 j).firstByte ≠ 0) ∧
        (record wrapped (view wrapped s₁.disk) 0 1).Names ∧
        nodesNeed wrapped (view wrapped s₁.disk) 65536 0 [longFile, longFile] = 1 ∧
        isFreeClusterNum ((view wrapped s₁.disk).fat 256) = true)) = .ok true := by
    decide +kernel
  have hall : (createInode wrapped wrappedDisk iAmRootDir sIfdir [100] >>= fun s₁ =>
      (createAll wrapped 65536 s₁ [longFile, longFile]).map fun _ => ()) =
        .error .outOfClusters := by
    decide +kernel
  obtain ⟨s₁, hcreate, hfacts⟩ := map_eq_ok.mp hfacts
  obtain ⟨hbefore, hnames, hneed, hfree⟩ := of_decide_eq_true hfacts
  rw [hcreate, ok_bind] at hall
  refine ⟨s₁, hcreate, ⟨.root, ?_, fun j hj => hbefore j (Nat.lt_succ_of_le hj), hnames⟩, ?_, ?_⟩
  · show 1 * 32 + 32 < rootBytes wrapped
    decide
  · have hmem : 256 ∈ freeEntries wrapped (view wrapped s₁.disk) :=
      mem_freeEntries.mpr ⟨⟨by decide, by decide⟩, hfree⟩
    rw [hneed]
    exact List.length_pos_of_mem hmem
  · cases hrun : createAll wrapped 65536 s₁ [longFile, longFile] with
    | ok s' => rw [hrun] at hall; cases hall
    | error e => rw [hrun] at hall; exact congrArg Except.error (Except.error.inj hall)

end Stuos.Fs.Fat
