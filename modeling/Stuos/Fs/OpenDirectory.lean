import Stuos.Fs.Fat.Integrity
import Stuos.Fs.Paging

/-!
# Directories that are read while files are written

What an open directory shows does not depend on the calls on other nodes of its volume: they change
first clusters and sizes of its entries at most.

* `createInode_recordsAlike`: a new node does not show outside its directory.
* `Lists.exec`: a directory keeps its listing in every safe call that puts nothing into it.
* `Lists.readFile`: a read of one entry returns it, and nothing behind the last one.
-/

namespace Stuos.Fs.Fat

open Stuos.Lib Fat16DirectoryEntry

variable {vol : Fat16Volume} {disk : Mem} {v v' : View} {E : Nat → Nat → Prop} {a d k ino : Nat}

/-! ### New nodes -/

theorem Resized.recordsAlike {spare ext : List Nat} {m : Nat} (hr : Resized vol v v' d k m ext)
    (hs : Sound vol v E spare) (he : E d k)
    (hshort : (record vol v d k).attributes ≠ fileAttributesLfn) (ha : DirOf vol v E a) :
    RecordsAlike vol v v' a := by
  by_cases had : a = d
  · subst had
    exact .of_siblings hr.written.inDir (fun j hj hin => hr.written.record_of_ne hin hj) hr.name
      hshort
  · exact .of_sameDir ((hs.frame_dir (hs.parent d k he) hr.written).1 a ha had)

/-- **`create_inode`** leaves the listings of all other directories alone. -/
theorem createInode_recordsAlike (hg : Geometry vol) {s s' : FatState}
    (hwf : WellFormed vol (view vol s.disk)) {parent newInodeType : Nat} {name : List UInt8}
    (hins : Insertable vol (view vol s.disk) (Entry vol (view vol s.disk)) parent)
    (h : createInode vol s parent newInodeType name = .ok s')
    (ha : DirOf vol (view vol s.disk) (Entry vol (view vol s.disk)) a)
    (hne : a ≠ directoryOf vol (view vol s.disk) parent) :
    RecordsAlike vol (view vol s.disk) (view vol s'.disk) a := by
  have hs := hwf.sound
  rcases hins with rfl | ⟨hp, -, hsmall | ⟨n, hend, hsize⟩⟩
  · rw [directoryOf, if_pos rfl] at hne
    obtain ⟨v₁, r, n, ext, hprep, happ, -⟩ := createInode_root hg hs h
    exact (RecordsAlike.of_sameDir (hprep.dirs a ha)).trans (.of_sameDir
      ((hprep.sound.frame_dir happ.dirOf happ.written).1 a ((hprep.kept hs).dirOf_kept ha) hne))
  · exact absurd h (createInode_small hg hs hp hsmall)
  · rw [directoryOf, if_neg (hp.ne_iAmRootDir hs)] at hne
    obtain ⟨v₁, v₂, r, ext₁, ext, hprep, hr, happ, -, -⟩ :=
      createInode_node hg hs hp hp.listed hend hsize h
    have hrec : direntOf vol v₁ parent = direntOf vol (view vol s.disk) parent :=
      hs.sameRecord hprep.dirs hp
    have hshort : (direntOf vol v₁ parent).attributes ≠ fileAttributesLfn := by
      rw [hrec]
      exact hp.listed.names.1
    -- the directory is one of the volume in each state on the way
    have ha₁ := (hprep.kept hs).dirOf_kept ha
    have ha₂ := (hr.kept hprep.sound hp).dirOf_kept ha₁
    have hs₂ := hr.sound hprep.sound hp
    exact (RecordsAlike.of_sameDir (hprep.dirs a ha)).trans
      ((hr.recordsAlike hprep.sound hp hshort ha₁).trans
        (.of_sameDir ((hs₂.frame_dir happ.dirOf happ.written).1 a ha₂ hne)))

/-! ### Calls elsewhere -/

/-- A directory of the volume: the root, or a node. -/
def IsDirNode (vol : Fat16Volume) (v : View) (ino : Nat) : Prop :=
  ino = iAmRootDir ∨ IsNode (Entry vol v) ino ∧ (direntOf vol v ino).IsDirectory

theorem IsDirNode.dirOf (hs : Sound vol (view vol disk) (Entry vol (view vol disk)) [])
    (h : IsDirNode vol (view vol disk) ino) :
    DirOf vol (view vol disk) (Entry vol (view vol disk)) (directoryOf vol (view vol disk) ino) := by
  rw [directoryOf]
  rcases h with rfl | ⟨he, hdir⟩
  · exact .inl (if_pos rfl)
  · exact .inr ⟨_, _, he, hdir, by rw [if_neg (he.ne_iAmRootDir hs)]; rfl⟩

/-- The call puts nothing into the directory `ino`. -/
def Elsewhere (vol : Fat16Volume) (v : View) (ino : Nat) : FatOp → Prop
  | .createInode parent _ _ => directoryOf vol v ino ≠ directoryOf vol v parent
  | _ => True

theorem exec_listsAlike (hg : Geometry vol) {s s' : FatState} {op : FatOp}
    (hwf : WellFormed vol (view vol s.disk)) (hsafe : Safe vol s op)
    (hd : IsDirNode vol (view vol s.disk) ino) (helse : Elsewhere vol (view vol s.disk) ino op)
    (h : op.exec vol s = .ok s') :
    ListsAlike vol s.disk s'.disk (directoryOf vol (view vol s.disk) ino) := by
  have ha := hd.dirOf hwf.sound
  cases op with
  | createInode parent newInodeType name =>
    obtain ⟨hwf', hk, -⟩ := createInode_adds hg hwf hsafe h
    have ha' : DirOf vol (view vol s'.disk) (Entry vol (view vol s'.disk))
        (directoryOf vol (view vol s.disk) ino) :=
      (hk.dirOf_kept ha).mono (fun _ _ he => hk.entry he) fun _ _ _ hdir => ⟨hdir, rfl⟩
    exact (createInode_recordsAlike hg hwf hsafe h ha helse).listsAlike hg (hwf.sound.isDir ha)
      (hwf'.sound.isDir ha')
  | writeFile node offset input =>
    obtain ⟨r, hc, hfile, hname, -⟩ :=
      writeFile_changed hg hwf.sound hsafe.1 (FatOp.exec_writeFile vol h)
    exact hc.listsAlike hg hwf.sound hfile hname hsafe.1.listed.names.1 ha
  | ftruncate node len =>
    obtain ⟨r, hc, hfile, hname, -⟩ :=
      ftruncate_changed hg hwf.sound hsafe.1 (FatOp.exec_ftruncate vol h)
    exact hc.listsAlike hg hwf.sound hfile hname hsafe.1.listed.names.1 ha

/-- A directory with the entries `all`, as `stat_file` and `read_dirents` see it. -/
structure Lists (vol : Fat16Volume) (disk : Mem) (ino : Nat) (all : List Dirent) : Prop where
  node : IsDirNode vol (view vol disk) ino
  stat : ∃ stat, statFile vol disk ino = .ok stat ∧ sIsdir stat.stMode = true
  full : FullListing (readDirentsCall vol disk ino) all

theorem fullListing_iff {all : List Dirent} : FullListing (readDirentsCall vol disk ino) all ↔
    ∃ n, readDirents vol disk ino 0 n = .ok all ∧ all.length < n := by
  simp only [FullListing, readDirentsCall_eq, map_eq_ok]
  constructor
  · rintro ⟨r, n, ⟨ents, hents, heq⟩, hlt⟩
    cases heq
    exact ⟨n, hents, hlt⟩
  · rintro ⟨n, hents, hlt⟩
    exact ⟨_, n, ⟨all, hents, rfl⟩, hlt⟩

/-- **A directory keeps its listing** in a call that puts nothing into it. -/
theorem Lists.exec (hg : Geometry vol) {s s' : FatState} {op : FatOp} {all : List Dirent}
    (hl : Lists vol s.disk ino all) (hwf : WellFormed vol (view vol s.disk))
    (hsafe : Safe vol s op) (helse : Elsewhere vol (view vol s.disk) ino op)
    (h : op.exec vol s = .ok s') : Lists vol s'.disk ino all := by
  have halike := exec_listsAlike hg hwf hsafe hl.node helse h
  obtain ⟨hwf', hk⟩ := exec_kept hg hwf hsafe h
  obtain ⟨stat, hstat, hmode⟩ := hl.stat
  obtain ⟨n, hents, hlt⟩ := fullListing_iff.mp hl.full
  rcases hl.node with rfl | ⟨he, hdir⟩
  · refine ⟨.inl rfl, ?_, fullListing_iff.mpr ⟨n, ?_, hlt⟩⟩
    · have hroot : getParentClusterNum iAmRootDir = iAmRootDir := rfl
      rw [statFile, if_pos hroot] at hstat ⊢
      exact ⟨stat, hstat, hmode⟩
    · exact readDirents_mono hg halike (.inl ⟨rfl, if_pos rfl⟩) hents
  · have he' : IsNode (Entry vol (view vol s'.disk)) ino := hk.entry he
    have hdir' : (direntOf vol (view vol s'.disk) ino).IsDirectory :=
      (hk.name _ _ he).isDirectory.mpr hdir
    refine ⟨.inr ⟨he', hdir'⟩, ?_, fullListing_iff.mpr ⟨n, ?_, hlt⟩⟩
    · obtain ⟨stat', hstat', hmode'⟩ := statFile_kept hg hwf hwf' hk he hstat
      exact ⟨stat', hstat', by rw [hmode', hmode]⟩
    · have hd := hwf.sound.hasDirent he
      rw [directoryOf, if_neg (he.ne_iAmRootDir hwf.sound)] at halike
      exact readDirents_mono hg halike (.inr ⟨hd.isDir.ne_iAmRootDir, _, _,
        readParentDirent_ok hg hd, readParentDirent_ok hg (hwf'.sound.hasDirent he'), rfl,
        hk.cluster _ _ he hdir⟩) hents

/-! ### Reading a directory -/

theorem readDirentsLoop_bounds (fuel : Nat) : ∀ i skip count fileName all,
    readDirentsLoop vol disk d fuel i skip count fileName = .ok all →
    all.length ≤ fuel ∧ ∀ e ∈ all, e.dName.length < maxPathLen := by
  induction fuel with
  | zero =>
    intro i skip count fileName all h
    cases h
  | succ fuel ih =>
    intro i skip count fileName all h
    rw [readDirentsLoop_succ, bind_eq_ok] at h
    obtain ⟨t, -, h⟩ := h
    cases t with
    | stop =>
      cases h
      simp
    | pass next fileName' =>
      obtain ⟨hlen, hnames⟩ := ih next skip count fileName' all h
      exact ⟨Nat.le_succ_of_le hlen, hnames⟩
    | entry fileName' =>
      cases skip with
      | succ skip =>
        obtain ⟨hlen, hnames⟩ := ih (i + 1) skip count _ all h
        exact ⟨Nat.le_succ_of_le hlen, hnames⟩
      | zero =>
        cases count with
        | zero =>
          cases h
          simp
        | succ count =>
          simp only [afterTurn, bind_eq_ok] at h
          obtain ⟨dIno, -, dName, hname, rest, hrest, h⟩ := h
          cases h
          obtain ⟨hlen, hnames⟩ := ih (i + 1) 0 count _ rest hrest
          refine ⟨Nat.succ_le_succ hlen, fun e he => ?_⟩
          rcases List.mem_cons.mp he with rfl | he
          · simp only [bufferString, bind_eq_ok, ensure_eq_ok] at hname
            obtain ⟨-, hfits, hname⟩ := hname
            cases hname
            exact hfits
          · exact hnames e he

theorem Dirent.length_toBytes {e : Dirent} (h : e.dName.length < maxPathLen) :
    e.toBytes.length = direntSize := by
  rw [maxPathLen] at h
  simp only [toBytes, List.length_append, leBytes_length, List.length_singleton,
    List.length_replicate, maxPathLen, direntSize]
  omega

theorem Lists.bounds {all : List Dirent} (hl : Lists vol disk ino all) :
    all.length ≤ direntFuel vol ∧ ∀ e ∈ all, e.dName.length < maxPathLen := by
  obtain ⟨n, hents, -⟩ := fullListing_iff.mp hl.full
  rw [readDirents_eq, bind_eq_ok] at hents
  obtain ⟨clusterNumber, -, hloop⟩ := hents
  exact readDirentsLoop_bounds _ _ _ _ _ _ hloop

/-- **A read of one entry** returns it, and nothing behind the last one. -/
theorem Lists.readFile {all : List Dirent} (hl : Lists vol disk ino all) (i : Nat) :
    readFile vol disk ino (i * direntSize) direntSize =
      .ok ((all[i]?.map Dirent.toBytes).getD []) := by
  obtain ⟨stat, hstat, hmode⟩ := hl.stat
  obtain ⟨n, hents, hlt⟩ := fullListing_iff.mp hl.full
  have hpos : 0 < direntSize := by decide
  rw [Fat.readFile, hstat, ok_bind, if_pos hmode, ensure_of (Nat.mul_mod_left _ _), ok_bind,
    ensure_of (Nat.mod_self _), ok_bind, Nat.mul_div_cancel _ hpos, Nat.div_self hpos,
    readDirents_page hents hlt, ok_bind]
  cases hi : all[i]? with
  | none =>
    rw [List.drop_of_length_le (List.getElem?_eq_none_iff.mp hi)]
    rfl
  | some e =>
    obtain ⟨hlen, heq⟩ := List.getElem?_eq_some_iff.mp hi
    rw [List.drop_eq_getElem_cons hlen, heq]
    simp [pure_eq_ok]

end Stuos.Fs.Fat
