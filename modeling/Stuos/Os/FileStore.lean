import Stuos.Fs.Fat.Extending
import Stuos.Ipc.OpenFile
import Stuos.Lib.FileStore

/-!
# A FAT16 volume is a store of files

For all that can be seen through `read_file`, a volume is a map from inode numbers to lists of
bytes.  The calls of a run are on any files, in any order; they are those that the file system gets
right (`Safe`, and no write behind the end of a file and no `ftruncate` to a larger size).

* `exec_store`: a call does to the bytes of the files what the operation of the store does.
* `store_reads`: `read_file` and `stat_file` tell what is in the store.
* `fat_refines_fileStore`: **every run is a run of the store**.
* `written_bytes_stay`: what is written stays until it is written over or cut off.
-/

namespace Stuos.Os

open Stuos.Lib Stuos.Fs Stuos.Fs.Fat Fat16DirectoryEntry

variable {vol : Fat16Volume} {v v' : View} {d k : Nat}

/-! ### The store -/

/-- What an inode number says: the directory of the file, and the index of its entry there. -/
def fileKey (ino : Nat) : Nat × Nat := (getParentClusterNum ino, getDirentIndexInParent ino)

/-- The bytes of the file with the entry `k` of the directory `d`. -/
def fileBytes (vol : Fat16Volume) (v : View) (d k : Nat) : List UInt8 :=
  (content vol v (chainOf vol v d k)).read 0 (record vol v d k).fileSizeBytes

/-- There is a file. -/
def IsFile (vol : Fat16Volume) (v : View) (d k : Nat) : Prop :=
  Entry vol v d k ∧ ¬ (record vol v d k).IsDirectory

open Classical in
/-- What is stored on a volume. -/
noncomputable def store (vol : Fat16Volume) (v : View) : FileStore (Nat × Nat) UInt8 :=
  fun p => if IsFile vol v p.1 p.2 then some (fileBytes vol v p.1 p.2) else none

theorem store_of_isFile (h : IsFile vol v d k) : store vol v (d, k) = some (fileBytes vol v d k) :=
  if_pos h

theorem store_of_not_isFile (h : ¬ IsFile vol v d k) : store vol v (d, k) = none := if_neg h

@[simp] theorem length_fileBytes : (fileBytes vol v d k).length =
    (record vol v d k).fileSizeBytes := Mem.read_length _ _ _

theorem length_of_store {p : Nat × Nat} {c : List UInt8} (h : store vol v p = some c) :
    c.length < 2 ^ 32 := by
  rw [store] at h
  split at h
  · rw [← Option.some.inj h, length_fileBytes]
    exact fileSizeBytes_lt _
  · cases h

theorem fileBytes_congr (hrec : record vol v' d k = record vol v d k)
    (hsame : SameFile vol v v' (record vol v d k).clusterNumber) :
    fileBytes vol v' d k = fileBytes vol v d k := by
  rw [fileBytes, fileBytes, chainOf, chainOf, hrec, hsame.chain, hsame.content]

/-! ### Calls on a file -/

/-- **A call on one file** changes the store under its name only. -/
theorem Changed.store_eq {r : Fat16DirectoryEntry} (hwf : WellFormed vol v)
    (hc : Changed vol v v' (Entry vol v) d k r) (he : Entry vol v d k)
    (hfile : ¬ (Fat.record vol v d k).IsDirectory) (hname : SameName (Fat.record vol v d k) r)
    (hclosed : Closed vol v d k) :
    store vol v' = Function.update (store vol v) (d, k) (some (fileBytes vol v' d k)) := by
  obtain ⟨-, hk, hcomplete⟩ := hc.intact hwf hfile hname hclosed
  funext ⟨a, b⟩
  by_cases heq : (a, b) = (d, k)
  · cases heq
    rw [Function.update_self]
    refine store_of_isFile ⟨hk.entry he, ?_⟩
    rw [hc.record, hname.isDirectory]
    exact hfile
  rw [Function.update_of_ne heq]
  by_cases hab : IsFile vol v a b
  · obtain ⟨hentry, hnd⟩ := hab
    have hrec := hc.record_of_ne hwf.sound hentry heq
    rw [store_of_isFile ⟨hentry, hnd⟩, store_of_isFile ⟨hk.entry hentry, by rwa [hrec]⟩,
      fileBytes_congr hrec (hc.files a b hentry heq hnd)]
  · rw [store_of_not_isFile hab, store_of_not_isFile]
    rintro ⟨hentry', hnd'⟩
    have hentry := hcomplete.entry hentry'
    rw [hc.record_of_ne hwf.sound hentry heq] at hnd'
    exact hab ⟨hentry, hnd'⟩

/-- **`write_file`** writes over the bytes of the file. -/
theorem fileBytes_writeFile (hg : Geometry vol) {disk disk' : Mem}
    (hwf : WellFormed vol (view vol disk)) (hfit : Fitting vol (view vol disk)) {ino : Nat}
    (he : IsNode (Entry vol (view vol disk)) ino) {offset : Nat} {input : List UInt8}
    (hoff : offset ≤ (direntOf vol (view vol disk) ino).fileSizeBytes)
    (h : writeFile vol disk ino offset input = .ok disk') :
    fileBytes vol (view vol disk') (getParentClusterNum ino) (getDirentIndexInParent ino) =
      overwriteAt (fileBytes vol (view vol disk) (getParentClusterNum ino)
        (getDirentIndexInParent ino)) offset input := by
  obtain ⟨r, hc, hfile, -, -, hsize, hbytes, hroom⟩ := writeFile_changed hg hwf.sound he h
  have hlt := fileSizeBytes_lt (direntOf vol (view vol disk) ino)
  have hcap : (direntOf vol (view vol disk) ino).fileSizeBytes ≤
      capacity vol (nodeChain vol (view vol disk) ino) := hfit _ _ he hfile
  have hcap' : capacity vol (nodeChain vol (view vol disk') ino) < 2 ^ 32 :=
    capacity_lt hg (hc.sound.chainOf he).length_le
  have hsize' : r.fileSizeBytes =
      max (direntOf vol (view vol disk) ino).fileSizeBytes (offset + input.length) := by
    have hend : offset + input.length < 2 ^ 64 := by
      by_cases hne : input = []
      · rw [hne, List.length_nil]
        omega
      · have := hroom hne
        omega
    rw [hsize, sizeAfter, u64_of_lt hend]
    split <;> omega
  rw [fileBytes, hc.record, hsize', fileBytes, overwriteAt]
  show (nodeBytes vol (view vol disk') ino).read 0 _ =
    ((nodeBytes vol (view vol disk) ino).read 0
      (direntOf vol (view vol disk) ino).fileSizeBytes).take offset ++
      overwrite (((nodeBytes vol (view vol disk) ino).read 0
        (direntOf vol (view vol disk) ino).fileSizeBytes).drop offset) input
  generalize (direntOf vol (view vol disk) ino).fileSizeBytes = size at hoff hcap
  -- in front of the data, and from the data on
  have hsplit : max size (offset + input.length) = offset + max (size - offset) input.length := by
    omega
  have hfront : (nodeBytes vol (view vol disk') ino).read 0 offset =
      (nodeBytes vol (view vol disk) ino).read 0 offset :=
    Mem.read_congr fun i _ hi => by
      rw [hbytes i (.inl (by omega)), Mem.write_of_lt _ _ (by omega)]
  have hback : (nodeBytes vol (view vol disk') ino).read offset (max (size - offset) input.length) =
      overwrite ((nodeBytes vol (view vol disk) ino).read offset (size - offset)) input :=
    Ipc.read_overwrite (fun i h1 h2 => hbytes i (.inr ⟨h1, h2⟩)) fun i h1 h2 => by
      rw [hbytes i (.inl (by omega)), Mem.write_of_ge _ _ h1]
  rw [hsplit, Mem.read_add, hfront, Nat.zero_add, hback, Ipc.take_read, Ipc.drop_read,
    Nat.min_eq_left hoff, Nat.zero_add]

/-- **`ftruncate`** to a smaller size cuts the bytes off. -/
theorem fileBytes_ftruncate (hg : Geometry vol) {disk disk' : Mem}
    (hwf : WellFormed vol (view vol disk)) (hfit : Fitting vol (view vol disk)) {ino : Nat}
    (he : IsNode (Entry vol (view vol disk)) ino) {len : Nat}
    (hlen : len ≤ (direntOf vol (view vol disk) ino).fileSizeBytes)
    (h : ftruncate vol disk ino len = .ok disk') :
    fileBytes vol (view vol disk') (getParentClusterNum ino) (getDirentIndexInParent ino) =
      (fileBytes vol (view vol disk) (getParentClusterNum ino)
        (getDirentIndexInParent ino)).take len := by
  obtain ⟨r, hc, hfile, -, -, hsize⟩ := ftruncate_changed hg hwf.sound he h
  have hbytes := (ftruncate_takes hg hwf.sound he h).2
  have hcap : (direntOf vol (view vol disk) ino).fileSizeBytes ≤
      capacity vol (nodeChain vol (view vol disk) ino) := hfit _ _ he hfile
  rw [fileBytes, hc.record, hsize, fileBytes]
  show (nodeBytes vol (view vol disk') ino).read 0 len =
    ((nodeBytes vol (view vol disk) ino).read 0
      (direntOf vol (view vol disk) ino).fileSizeBytes).take len
  rw [Ipc.take_read, Nat.min_eq_left hlen, hbytes]
  exact Mem.read_congr fun i _ hi =>
    joined_append (show i < capacity vol (nodeChain vol (view vol disk) ino) by omega)

/-! ### A new node -/

/-- **`create_inode`** leaves the bytes of all files alone. -/
theorem createInode_sameFile (hg : Geometry vol) {s s' : FatState}
    (hwf : WellFormed vol (view vol s.disk)) {parent newInodeType : Nat} {name : List UInt8}
    (hins : Insertable vol (view vol s.disk) (Entry vol (view vol s.disk)) parent)
    (h : createInode vol s parent newInodeType name = .ok s') {a b : Nat}
    (hf : IsFile vol (view vol s.disk) a b) :
    SameFile vol (view vol s.disk) (view vol s'.disk)
      (record vol (view vol s.disk) a b).clusterNumber := by
  obtain ⟨he, hnd⟩ := hf
  have hs := hwf.sound
  rcases hins with rfl | ⟨hp, -, hsmall | ⟨n, hend, hsize⟩⟩
  · obtain ⟨v₁, r, n, ext, hprep, happ, -⟩ := createInode_root hg hs h
    have hrec : record vol v₁ a b = record vol (view vol s.disk) a b := hs.sameRecord hprep.dirs he
    have hsame := (hprep.sound.frame_dir happ.dirOf happ.written).2.1 a b he (by rwa [hrec])
    rw [hrec] at hsame
    exact (hprep.files a b he).trans hsame
  · exact absurd h (createInode_small hg hs hp hsmall)
  · obtain ⟨v₁, v₂, r, ext₁, ext, hprep, hr, ha, -, hdir⟩ :=
      createInode_node hg hs hp hp.listed hend hsize h
    have hne : (a, b) ≠ (getParentClusterNum parent, getDirentIndexInParent parent) := by
      intro heq
      cases heq
      exact hnd hdir
    -- the clusters, the size of the parent, the entries
    have hrec : record vol v₁ a b = record vol (view vol s.disk) a b := hs.sameRecord hprep.dirs he
    have hrec₂ : record vol v₂ a b = record vol v₁ a b :=
      hprep.sound.record_rewrite (hprep.sound.parent _ _ hp) hr.written he hne
    have hsame₁ := (hprep.sound.frame_dir (hprep.sound.parent _ _ hp) hr.written).2.1 a b he
      (by rwa [hrec])
    have hsame₂ := ((hr.sound hprep.sound hp).frame_dir ha.dirOf ha.written).2.1 a b he
      (by rwa [hrec₂, hrec])
    rw [hrec] at hsame₁
    rw [hrec₂, hrec] at hsame₂
    exact ((hprep.files a b he).trans hsame₁).trans hsame₂

/-- **A new file** is empty, and a new directory is no file. -/
theorem createInode_store (hg : Geometry vol) {s s' : FatState}
    (hwf : WellFormed vol (view vol s.disk)) {parent newInodeType : Nat} {name : List UInt8}
    (hins : Insertable vol (view vol s.disk) (Entry vol (view vol s.disk)) parent)
    (h : createInode vol s parent newInodeType name = .ok s') :
    (sIsdir newInodeType = true → store vol (view vol s'.disk) = store vol (view vol s.disk)) ∧
    (sIsdir newInodeType = false → ∃ k,
      store vol (view vol s.disk) (directoryOf vol (view vol s.disk) parent, k) = none ∧
      store vol (view vol s'.disk) = Function.update (store vol (view vol s.disk))
        (directoryOf vol (view vol s.disk) parent, k) (some [])) := by
  have hold : ∀ a b, IsFile vol (view vol s.disk) a b →
      store vol (view vol s'.disk) (a, b) = store vol (view vol s.disk) (a, b) := by
    intro a b hf
    obtain ⟨-, hk, hfiles, -⟩ := createInode_adds hg hwf hins h
    have hrec := hfiles a b hf.1 hf.2
    have hf' : IsFile vol (view vol s'.disk) a b := ⟨hk.entry hf.1, by rw [hrec]; exact hf.2⟩
    rw [store_of_isFile hf, store_of_isFile hf',
      fileBytes_congr hrec (createInode_sameFile hg hwf hins h hf)]
  obtain ⟨v₂, spare, d, n, r, ext, hs, hc, hk, -, ha, hnew, rfl⟩ := createInode_ok hg hwf.sound
    (complete_entry _ _) (fun _ _ he => he.listed) hins h
  have hlisted : ∀ a b, Entry vol (view vol s.disk) a b → Listed vol v₂ a b :=
    fun a b he => hk.listed a b he he.listed
  have hkept := hk.trans (ha.kept hs hlisted)
  generalize directoryOf vol (view vol s.disk) parent = d at ha
  generalize hlong : n + (longEntries s.createIdx name).length = k
  -- there are no other entries than before, but for the new one
  have hentries : ∀ a b, (a, b) ≠ (d, k) →
      store vol (view vol s'.disk) (a, b) = store vol (view vol s.disk) (a, b) := by
    intro a b hne
    by_cases hf : IsFile vol (view vol s.disk) a b
    · exact hold a b hf
    · rw [store_of_not_isFile hf, store_of_not_isFile]
      rintro ⟨hentry, hnd⟩
      subst hlong
      have he := ((ha.complete hs hlisted hc).entry hentry).resolve_right hne
      exact hf ⟨he, fun hdir => hnd ((hkept.name a b he).isDirectory.mpr hdir)⟩
  have hself : record vol (view vol s'.disk) d k = r := by rw [← hlong, ha.record_new]
  have hfresh : store vol (view vol s.disk) (d, k) = none := by
    refine store_of_not_isFile fun hf => ?_
    have hlt := ha.dirEnd.lt_of_listed (hlisted d k hf.1)
    omega
  constructor
  · intro hdir
    funext ⟨a, b⟩
    by_cases heq : (a, b) = (d, k)
    · cases heq
      rw [hfresh, store_of_not_isFile]
      rintro ⟨-, hnd⟩
      rw [hself] at hnd
      exact hnd (hnew.isDirectory.mpr hdir)
    · exact hentries a b heq
  · intro hreg
    have hnd : ¬ r.IsDirectory := by
      rw [hnew.isDirectory, hreg]
      exact Bool.false_ne_true
    refine ⟨k, hfresh, ?_⟩
    funext ⟨a, b⟩
    by_cases heq : (a, b) = (d, k)
    · cases heq
      rw [Function.update_self, store_of_isFile ⟨⟨?_, ?_⟩, by rwa [hself]⟩, fileBytes, hself,
        hnew.fileSizeBytes hnd, Mem.read_zero]
      · -- the directory is reached as before
        rcases ha.dirOf with rfl | ⟨p, j, hp, hpdir, rfl⟩
        · exact .root
        · have hp' := hkept.entry hp
          have hrec := ha.record_kept hs hlisted hp
          rw [← hrec] at hpdir ⊢
          exact .sub hp'.reach hp'.listed hpdir
      · obtain ⟨_, _, _, _, _, -, -, hcount, -⟩ := createInode_calls h
        have hend := ha.dirEnd_after (fun e he => longEntries_firstByte (by omega) he) (by
          rw [hnew.firstByte]
          decide)
        refine ⟨?_, fun j hj => hend.before j (by omega), ?_⟩
        · rw [← hlong]
          exact ha.room (by omega)
        · have hattr := hnew.attributes
          rw [createFatMode, if_neg (by simp [hreg])] at hattr
          split at hattr
          · rw [Except.ok.injEq] at hattr
            rw [hself, Names, hnew.firstByte, ← hattr]
            decide
          · cases hattr
    · rw [Function.update_of_ne heq]
      exact hentries a b heq

/-! ### Runs -/

/-- **No write behind the end of a file**, and no truncation to a larger size. -/
def Inside (vol : Fat16Volume) (s : FatState) : FatOp → Prop
  | .createInode _ _ _ => True
  | .writeFile ino offset _ => offset ≤ (direntOf vol (view vol s.disk) ino).fileSizeBytes
  | .ftruncate ino len => len ≤ (direntOf vol (view vol s.disk) ino).fileSizeBytes

/-- The operation of the store that a call performs.  A new file gets an inode number in the
directory that it is created in. -/
inductive Performs (vol : Fat16Volume) (v : View) : FatOp → FileOp (Nat × Nat) UInt8 → Prop
  | createFile {parent newInodeType k : Nat} {name : List UInt8} : sIsdir newInodeType = false →
      Performs vol v (.createInode parent newInodeType name) (.create (directoryOf vol v parent, k))
  | createDirectory {parent newInodeType : Nat} {name : List UInt8} : sIsdir newInodeType = true →
      Performs vol v (.createInode parent newInodeType name) .other
  | write {ino offset : Nat} {input : List UInt8} :
      Performs vol v (.writeFile ino offset input) (.write (fileKey ino) offset input)
  | truncate {ino len : Nat} :
      Performs vol v (.ftruncate ino len) (.truncate (fileKey ino) len)

/-- Calls, each with the operation of the store that it performs. -/
def performing (vol : Fat16Volume) : Lts FatState (FatOp × FileOp (Nat × Nat) UInt8) where
  init _ := True
  step s p s' := (fat vol).step s p.1 s' ∧ Performs vol (view vol s.disk) p.1 p.2

theorem performs_of_run {s s' : FatState} {l : List (FatOp × FileOp (Nat × Nat) UInt8)}
    (h : (performing vol).Run (fun _ _ => True) s l s') :
    ∀ p ∈ l, ∃ v, Performs vol v p.1 p.2 := by
  refine h.invariant (P := fun l _ => ∀ p ∈ l, ∃ v, Performs vol v p.1 p.2) ?_ (by simp)
  intro l s p s' hl _ hstep p' hmem
  rcases List.mem_append.mp hmem with hmem | hmem
  · exact hl p' hmem
  · obtain rfl := List.mem_singleton.mp hmem
    exact ⟨_, hstep.2⟩

theorem le_roomOf {ino len : Nat} (hfit : Fitting vol v) (he : IsNode (Entry vol v) ino)
    (hfile : ¬ (direntOf vol v ino).IsDirectory) (h : len ≤ (direntOf vol v ino).fileSizeBytes) :
    len ≤ roomOf vol v ino :=
  h.trans ((hfit _ _ he hfile).trans (Nat.mul_le_mul_right _ (Nat.le_max_right 1 _)))

/-- **A call is an operation of the store.** -/
theorem exec_store (hg : Geometry vol) {s s' : FatState} {op : FatOp}
    (hwf : WellFormed vol (view vol s.disk)) (hfit : Fitting vol (view vol s.disk))
    (hsafe : Safe vol s op) (hin : Inside vol s op) (h : op.exec vol s = .ok s') :
    WellFormed vol (view vol s'.disk) ∧ Fitting vol (view vol s'.disk) ∧ ∃ sop, Performs vol (view vol s.disk) op sop ∧
      FileStep (store vol (view vol s.disk)) sop (store vol (view vol s'.disk)) := by
  have hwf' := (exec_kept hg hwf hsafe h).1
  cases op with
  | createInode parent newInodeType name =>
    refine ⟨hwf', exec_fitting hg hwf hfit hsafe trivial h, ?_⟩
    obtain ⟨hdirectory, hfile⟩ := createInode_store hg hwf hsafe h
    cases hdir : sIsdir newInodeType with
    | true => exact ⟨.other, .createDirectory hdir, by rw [hdirectory hdir]; exact .other⟩
    | false =>
      obtain ⟨k, hfresh, hstore⟩ := hfile hdir
      exact ⟨_, .createFile hdir, by rw [hstore]; exact .create hfresh⟩
  | writeFile ino offset input =>
    have hw := FatOp.exec_writeFile vol h
    obtain ⟨r, hc, hfile, hname, -⟩ := writeFile_changed hg hwf.sound hsafe.1 hw
    have hsized : Sized vol s (.writeFile ino offset input) :=
      fun _ => (Nat.mod_le _ _).trans (le_roomOf hfit hsafe.1 hfile hin)
    refine ⟨hwf', exec_fitting hg hwf hfit hsafe hsized h, _, .write, ?_⟩
    have hstore := Changed.store_eq hwf hc hsafe.1 hfile hname hsafe.2
    rw [fileBytes_writeFile hg hwf hfit hsafe.1 hin hw] at hstore
    rw [hstore]
    exact .write (store_of_isFile ⟨hsafe.1, hfile⟩) (by rw [length_fileBytes]; exact hin)
  | ftruncate ino len =>
    have hw := FatOp.exec_ftruncate vol h
    obtain ⟨r, hc, hfile, hname, -⟩ := ftruncate_changed hg hwf.sound hsafe.1 hw
    have hsized : Sized vol s (.ftruncate ino len) := le_roomOf hfit hsafe.1 hfile hin
    refine ⟨hwf', exec_fitting hg hwf hfit hsafe hsized h, _, .truncate, ?_⟩
    have hstore := Changed.store_eq hwf hc hsafe.1 hfile hname hsafe.2
    rw [fileBytes_ftruncate hg hwf hfit hsafe.1 hin hw] at hstore
    rw [hstore]
    exact .truncate (store_of_isFile ⟨hsafe.1, hfile⟩) (by rw [length_fileBytes]; exact hin)

/-- **What `stat_file` and `read_file` tell** is in the store. -/
theorem store_reads (hg : Geometry vol) {disk : Mem} (hwf : WellFormed vol (view vol disk))
    (hfit : Fitting vol (view vol disk)) {ino : Nat}
    (he : IsNode (Entry vol (view vol disk)) ino) {stat : Stat}
    (hstat : statFile vol disk ino = .ok stat) (hreg : sIsdir stat.stMode = false) :
    ∃ c, store vol (view vol disk) (fileKey ino) = some c ∧ stat.stSize = c.length ∧
      ∀ offset n, offset ≤ c.length → offset + n < 2 ^ 64 →
        readFile vol disk ino offset n = .ok ((c.drop offset).take n) := by
  obtain ⟨hfile, hsize⟩ := file_of_stat hg (hwf.sound.hasDirent he) hstat hreg
  refine ⟨_, store_of_isFile ⟨he, hfile⟩, ?_, fun offset n hoff hn => ?_⟩
  · rw [length_fileBytes, hsize]
    rfl
  · rw [length_fileBytes] at hoff
    have hoff' : offset ≤ stat.stSize := by rw [hsize]; exact hoff
    rw [readFile_slice hg hwf.sound he hstat hreg (hfit.file hg hwf he hstat hreg) hoff' hn,
      fileBytes, Ipc.drop_read, Ipc.take_read, Nat.zero_add, hsize]
    rfl

/-- **A run of calls** is a run of the store, and leaves the volume well-formed. -/
theorem run_store (hg : Geometry vol) {s s' : FatState} {ops : List FatOp}
    {ok : FatState → FatOp → Prop} (hok : ∀ s op, ok s op → Safe vol s op ∧ Inside vol s op)
    (hwf : WellFormed vol (view vol s.disk)) (hfit : Fitting vol (view vol s.disk))
    (hrun : (fat vol).Run ok s ops s') :
    WellFormed vol (view vol s'.disk) ∧ Fitting vol (view vol s'.disk) ∧
      ∃ l, l.map Prod.fst = ops ∧ (performing vol).Run (fun _ _ => True) s l s' ∧
        (fileStore (Nat × Nat) UInt8).Run (fun _ _ => True) (store vol (view vol s.disk))
          (l.map Prod.snd) (store vol (view vol s'.disk)) := by
  refine hrun.invariant (P := fun ops s' => WellFormed vol (view vol s'.disk) ∧
    Fitting vol (view vol s'.disk) ∧ ∃ l, l.map Prod.fst = ops ∧
      (performing vol).Run (fun _ _ => True) s l s' ∧
      (fileStore (Nat × Nat) UInt8).Run (fun _ _ => True) (store vol (view vol s.disk))
        (l.map Prod.snd) (store vol (view vol s'.disk))) ?_
    ⟨hwf, hfit, [], rfl, .nil _, .nil _⟩
  rintro ops s₁ op s₂ ⟨hwf₁, hfit₁, l, rfl, hcalls, hstore⟩ hop hstep
  obtain ⟨hsafe, hin⟩ := hok _ _ hop
  obtain ⟨hwf₂, hfit₂, sop, hsop, hfile⟩ := exec_store hg hwf₁ hfit₁ hsafe hin hstep
  refine ⟨hwf₂, hfit₂, l ++ [(op, sop)], by simp, hcalls.snoc trivial ⟨hstep, hsop⟩, ?_⟩
  rw [List.map_append]
  exact hstore.snoc trivial hfile

/-- **A volume is a store of files.**  In every run of calls on files and directories, each of them
safe and inside its file, the calls do to the files what operations of a store of files do to its
lists of bytes; and in the end `stat_file` tells how long they are and `read_file`, at any offset
and for any number of bytes, what they are. -/
theorem fat_refines_fileStore (hg : Geometry vol) {s s' : FatState} {ops : List FatOp}
    (hwf : WellFormed vol (view vol s.disk)) (hfit : Fitting vol (view vol s.disk))
    (hrun : (fat vol).Run (fun s op => Safe vol s op ∧ Inside vol s op) s ops s') :
    (∃ l, l.map Prod.fst = ops ∧ (performing vol).Run (fun _ _ => True) s l s' ∧
      (fileStore (Nat × Nat) UInt8).Run (fun _ _ => True) (store vol (view vol s.disk))
        (l.map Prod.snd) (store vol (view vol s'.disk))) ∧
    ∀ ino stat, IsNode (Entry vol (view vol s'.disk)) ino →
      statFile vol s'.disk ino = .ok stat → sIsreg stat.stMode = true →
      ∃ c, store vol (view vol s'.disk) (fileKey ino) = some c ∧ stat.stSize = c.length ∧
        ∀ offset n, offset ≤ c.length → offset + n < 2 ^ 64 →
          readFile vol s'.disk ino offset n = .ok ((c.drop offset).take n) := by
  obtain ⟨hwf', hfit', hstore⟩ := run_store hg (fun _ _ h => h) hwf hfit hrun
  exact ⟨hstore, fun ino stat he hstat hreg =>
    store_reads hg hwf' hfit' he hstat (not_sIsdir_of_sIsreg hreg)⟩

/-- Three bytes across the end of the first cluster of the file `A`. -/
theorem fat_refines_fileStore_across_clusters :
    ∃ s', (fat twoFats).step twoFatsDisk (.writeFile 0 511 [1, 2, 3]) s' ∧
      (fileStore (Nat × Nat) UInt8).Run (fun _ _ => True)
        (store twoFats (view twoFats twoFatsDisk.disk)) [.write (0, 0) 511 [1, 2, 3]]
        (store twoFats (view twoFats s'.disk)) := by
  have hok : (FatOp.exec twoFats twoFatsDisk (.writeFile 0 511 [1, 2, 3])).isOk = true := by
    decide +kernel
  obtain ⟨s', hexec⟩ := exists_of_isOk hok
  have hsafe : Safe twoFats twoFatsDisk (.writeFile 0 511 [1, 2, 3]) :=
    ⟨twoFatsDisk_isNode, .inl (.inl rfl)⟩
  have hin : Inside twoFats twoFatsDisk (.writeFile 0 511 [1, 2, 3]) := by
    show 511 ≤ (direntOf twoFats (view twoFats twoFatsDisk.disk) 0).fileSizeBytes
    decide +kernel
  obtain ⟨⟨l, hops, hcalls, hstore⟩, -⟩ := fat_refines_fileStore twoFats_geometry
    twoFatsDisk_wellFormed twoFatsDisk_fitting (.snoc (.nil _) ⟨hsafe, hin⟩ hexec)
  obtain ⟨⟨op, sop⟩, rfl⟩ : ∃ p, l = [p] := by
    rw [← List.length_eq_one_iff, ← List.length_map Prod.fst, hops]
    rfl
  obtain rfl : op = .writeFile 0 511 [1, 2, 3] := by simpa using hops
  obtain ⟨v, hperforms⟩ := performs_of_run hcalls _ (List.mem_singleton_self _)
  cases hperforms with
  | write => exact ⟨s', hexec, hstore⟩

/-! ### Bytes that stay -/

/-- A call that keeps away from the bytes from `lo` up to `hi` of a file. -/
def FatSpares (ino lo hi : Nat) : FatOp → Prop
  | .createInode _ _ _ => True
  | .writeFile ino' offset input => fileKey ino' = fileKey ino →
      offset + input.length ≤ lo ∨ hi ≤ offset
  | .ftruncate ino' len => fileKey ino' = fileKey ino → hi ≤ len

theorem Performs.spares {op : FatOp} {sop : FileOp (Nat × Nat) UInt8} (hop : Performs vol v op sop)
    {ino lo hi : Nat} (h : FatSpares ino lo hi op) : sop.Spares (fileKey ino) lo hi := by
  cases hop with
  | createFile => trivial
  | createDirectory => trivial
  | write => exact h
  | truncate => exact h

theorem performing_spares {s s' : FatState} {l : List (FatOp × FileOp (Nat × Nat) UInt8)}
    (h : (performing vol).Run (fun _ _ => True) s l s') {ino lo hi : Nat}
    (hops : ∀ op ∈ l.map Prod.fst, FatSpares ino lo hi op) :
    ∀ sop ∈ l.map Prod.snd, sop.Spares (fileKey ino) lo hi := by
  intro sop hsop
  obtain ⟨p, hp, rfl⟩ := List.mem_map.mp hsop
  obtain ⟨v, hperforms⟩ := performs_of_run h p hp
  exact hperforms.spares (hops _ (List.mem_map_of_mem hp))

/-- **What is written stays.**  After a `write_file` on a regular file, through any calls on any
files that keep away from the bytes written, `read_file` returns these bytes. -/
theorem written_bytes_stay (hg : Geometry vol) {s s₁ s' : FatState} {ops : List FatOp}
    (hwf : WellFormed vol (view vol s.disk)) (hfit : Fitting vol (view vol s.disk))
    {ino offset : Nat} {data : List UInt8} {stat : Stat}
    (hstat : statFile vol s.disk ino = .ok stat) (hreg : sIsreg stat.stMode = true)
    (hsafe : Safe vol s (.writeFile ino offset data))
    (hin : Inside vol s (.writeFile ino offset data))
    (hwrite : (fat vol).step s (.writeFile ino offset data) s₁)
    (hrun : (fat vol).Run (fun s op => (Safe vol s op ∧ Inside vol s op) ∧
      FatSpares ino offset (offset + data.length) op) s₁ ops s') :
    readFile vol s'.disk ino offset data.length = .ok data := by
  obtain ⟨hwf₁, hk₁⟩ := exec_kept hg hwf hsafe hwrite
  have he₁ : IsNode (Entry vol (view vol s₁.disk)) ino := hk₁.entry hsafe.1
  obtain ⟨-, hfit₁, sop, hsop, hfile⟩ := exec_store hg hwf hfit hsafe hin hwrite
  -- the bytes are in the store, and the run keeps them there
  have hat : HasAt (store vol (view vol s₁.disk)) (fileKey ino) offset data := by
    cases hsop with
    | write => exact hfile.hasAt_write
  obtain ⟨hwf', hfit', l, rfl, hcalls, hstore⟩ := run_store hg (fun _ _ h => h.1) hwf₁ hfit₁ hrun
  have hspares : ∀ op ∈ l.map Prod.fst, FatSpares ino offset (offset + data.length) op := by
    refine hrun.invariant (P := fun ops _ => ∀ op ∈ ops, FatSpares ino offset
      (offset + data.length) op) ?_ (by simp)
    intro l s op s' hl hop _ op' hmem
    rcases List.mem_append.mp hmem with h | h
    · exact hl op' h
    · rw [List.mem_singleton.mp h]
      exact hop.2
  obtain ⟨c, hc, hlen, hitems⟩ := spared_of_run hstore (performing_spares hcalls hspares) hat
  -- what `read_file` tells is in the store
  obtain ⟨-, hk'⟩ := run_kept hg (fun _ _ h => h.1.1) hwf₁ hrun
  obtain ⟨stat₁, hstat₁, hmode₁⟩ := statFile_kept hg hwf hwf₁ hk₁ hsafe.1 hstat
  obtain ⟨stat', hstat', hmode'⟩ := statFile_kept hg hwf₁ hwf' hk' he₁ hstat₁
  have hreg' : sIsdir stat'.stMode = false := by
    rw [hmode', hmode₁]
    exact not_sIsdir_of_sIsreg hreg
  obtain ⟨c', hc', -, hread⟩ := store_reads hg hwf' hfit' (hk'.entry he₁) hstat' hreg'
  obtain rfl : c' = c := Option.some.inj (hc'.symm.trans hc)
  have hsize := length_of_store hc
  rw [hread _ _ (by omega) (by omega), hitems]

/-- Three bytes across the end of the first cluster of the file `A`, then one in front of them. -/
theorem written_bytes_stay_before_another : ∃ s₁ s', (fat twoFats).step twoFatsDisk
      (.writeFile 0 511 [1, 2, 3]) s₁ ∧ (fat twoFats).step s₁ (.writeFile 0 0 [9]) s' ∧
      readFile twoFats s'.disk 0 511 3 = .ok [1, 2, 3] := by
  have hok : (do
      let s₁ ← FatOp.exec twoFats twoFatsDisk (.writeFile 0 511 [1, 2, 3])
      FatOp.exec twoFats s₁ (.writeFile 0 0 [9])).isOk = true := by
    decide +kernel
  obtain ⟨s', hexec⟩ := exists_of_isOk hok
  rw [bind_eq_ok] at hexec
  obtain ⟨s₁, hwrite, hnext⟩ := hexec
  have hreg : ((statFile twoFats twoFatsDisk.disk 0).map fun stat => sIsreg stat.stMode) =
      .ok true := by
    decide +kernel
  obtain ⟨stat, hstat, hmode⟩ := map_eq_ok.mp hreg
  have hsafe : Safe twoFats twoFatsDisk (.writeFile 0 511 [1, 2, 3]) :=
    ⟨twoFatsDisk_isNode, .inl (.inl rfl)⟩
  have hin : Inside twoFats twoFatsDisk (.writeFile 0 511 [1, 2, 3]) := by
    show 511 ≤ (direntOf twoFats (view twoFats twoFatsDisk.disk) 0).fileSizeBytes
    decide +kernel
  obtain ⟨hwf₁, hk₁⟩ := exec_kept twoFats_geometry twoFatsDisk_wellFormed hsafe hwrite
  have hsafe₁ : Safe twoFats s₁ (.writeFile 0 0 [9]) :=
    ⟨hk₁.entry twoFatsDisk_isNode, .inl (.inl rfl)⟩
  have hin₁ : Inside twoFats s₁ (.writeFile 0 0 [9]) := by
    rw [Inside]
    exact Nat.zero_le _
  have hspares : FatSpares 0 511 (511 + ([1, 2, 3] : List UInt8).length)
      (.writeFile 0 0 [9]) := by
    intro _
    left
    rw [List.length_singleton]
    omega
  have hread := written_bytes_stay twoFats_geometry twoFatsDisk_wellFormed twoFatsDisk_fitting
    hstat hmode hsafe hin hwrite (.snoc (.nil _) ⟨⟨hsafe₁, hin₁⟩, hspares⟩ hnext)
  exact ⟨s₁, s', hwrite, hnext, hread⟩

end Stuos.Os
