import Stuos.Fs.Fat.Creating

/-!
# Runs of calls on a volume

What `create_inode`, `write_file` and `ftruncate` keep in every run: the chains of the
table (`Intact`), and that no file is larger than its clusters (`Fitting`).

Every write along a chain that ends in its last cluster allocates the cluster behind, and
nobody clears it.  For a file that is no harm.  For a directory it is none either, if the
directory has an end in front of the new cluster; `Safe` asks for that where an entry is
rewritten.

* `exec_kept`: a safe call keeps a volume well-formed and all its entries.
* `chain_integrity`: the same for runs.
* `exec_fitting`, `size_le_capacity`: the size of a file stays within its clusters as long
  as no call sets it past them without writing.
-/

namespace Stuos.Fs.Fat

open Stuos.Lib Fat16DirectoryEntry

variable {vol : Fat16Volume} {v v' : View} {d k : Nat}

/-! ### Calls that keep the chains -/

/-- The chains that one reaches from the root directory are lists of the table. -/
structure Intact (vol : Fat16Volume) (v : View) : Prop where
  acyclic : ∀ d k, Entry vol v d k → (chainOf vol v d k).Nodup
  ends : ∀ d k, Entry vol v d k → ∀ c, (chainOf vol v d k).getLast? = some c →
    isEndOfLlNum (v.fat c) = true
  used : ∀ d k, Entry vol v d k → ∀ c ∈ chainOf vol v d k, isFreeClusterNum (v.fat c) = false
  disjoint : ∀ d k d' k', Entry vol v d k → Entry vol v d' k' → (d, k) ≠ (d', k') →
    (chainOf vol v d k).Disjoint (chainOf vol v d' k')

theorem IsChain.ends {l : List Nat} {c : Nat} (h : IsChain vol v l) (hc : l.getLast? = some c) :
    isEndOfLlNum (v.fat c) = true := by
  obtain ⟨hne, rfl⟩ := List.mem_getLast?_eq_getLast hc
  have hnext := h.linked.next_getLast hne
  rw [View.next] at hnext
  by_contra hend
  rw [if_neg hend] at hnext
  cases hnext

theorem WellFormed.intact (h : WellFormed vol v) : Intact vol v where
  acyclic d k he := (h.chain d k he).nodup
  ends d k he _ hc := (h.chain d k he).ends hc
  used d k he := (h.chain d k he).not_free
  disjoint := h.disjoint

/-- **The call is on a node of the volume**, and it rewrites the entry of a node only where that
uncovers nothing. -/
def Safe (vol : Fat16Volume) (s : FatState) : FatOp → Prop
  | .createInode parent _ _ =>
    Insertable vol (view vol s.disk) (Entry vol (view vol s.disk)) parent
  | .writeFile ino _ _ => IsNode (Entry vol (view vol s.disk)) ino ∧
      Closed vol (view vol s.disk) (getParentClusterNum ino) (getDirentIndexInParent ino)
  | .ftruncate ino _ => IsNode (Entry vol (view vol s.disk)) ino ∧
      Closed vol (view vol s.disk) (getParentClusterNum ino) (getDirentIndexInParent ino)

theorem Changed.intact {r : Fat16DirectoryEntry} (hwf : WellFormed vol v)
    (hc : Changed vol v v' (Entry vol v) d k r) (hfile : ¬ (Fat.record vol v d k).IsDirectory)
    (hname : SameName (Fat.record vol v d k) r) (hclosed : Closed vol v d k) :
    WellFormed vol v' ∧ Kept vol v v' (Entry vol v) ∧ Complete vol v' (Entry vol v) := by
  have hk := hc.kept hwf.sound hfile hname
  have hcomplete := (complete_entry vol v).rewrite hk hclosed hc.inner hc.dirs
    (hc.record ▸ hname) hc.siblings
  exact ⟨hc.sound.wellFormed hcomplete, hk, hcomplete⟩

/-- **A safe call keeps the volume well-formed** and the entries in their places. -/
theorem exec_kept (hg : Geometry vol) {s s' : FatState} {op : FatOp}
    (hwf : WellFormed vol (view vol s.disk)) (hsafe : Safe vol s op)
    (h : op.exec vol s = .ok s') :
    WellFormed vol (view vol s'.disk) ∧
      Kept vol (view vol s.disk) (view vol s'.disk) (Entry vol (view vol s.disk)) := by
  cases op with
  | createInode parent newInodeType name =>
    obtain ⟨hwf', hk, -⟩ := createInode_adds hg hwf hsafe h
    exact ⟨hwf', hk⟩
  | writeFile ino offset input =>
    have h := FatOp.exec_writeFile vol h
    obtain ⟨r, hc, hfile, hname, -⟩ := writeFile_changed hg hwf.sound hsafe.1 h
    obtain ⟨hwf', hk, -⟩ := hc.intact hwf hfile hname hsafe.2
    exact ⟨hwf', hk⟩
  | ftruncate ino len =>
    have h := FatOp.exec_ftruncate vol h
    obtain ⟨r, hc, hfile, hname, -⟩ := ftruncate_changed hg hwf.sound hsafe.1 h
    obtain ⟨hwf', hk, -⟩ := hc.intact hwf hfile hname hsafe.2
    exact ⟨hwf', hk⟩

/-- **A run of safe calls** keeps the volume well-formed and the entries in their places. -/
theorem run_kept (hg : Geometry vol) {s s' : FatState} {ops : List FatOp}
    {ok : FatState → FatOp → Prop} (hok : ∀ s op, ok s op → Safe vol s op)
    (hwf : WellFormed vol (view vol s.disk)) (hrun : (fat vol).Run ok s ops s') :
    WellFormed vol (view vol s'.disk) ∧
      Kept vol (view vol s.disk) (view vol s'.disk) (Entry vol (view vol s.disk)) := by
  refine hrun.invariant (P := fun _ s' => WellFormed vol (view vol s'.disk) ∧
    Kept vol (view vol s.disk) (view vol s'.disk) (Entry vol (view vol s.disk))) ?_
    ⟨hwf, .refl _ _ _⟩
  intro _ s₁ op s₂ h hop hstep
  obtain ⟨hwf₁, hk⟩ := h
  obtain ⟨hwf₂, hk'⟩ := exec_kept hg hwf₁ (hok _ _ hop) hstep
  exact ⟨hwf₂, hk.trans (hk'.sub fun a b he => hk.entry he)⟩

/-- The mode of a node does not change. -/
theorem statFile_kept (hg : Geometry vol) {disk disk' : Mem}
    (hwf : WellFormed vol (view vol disk)) (hwf' : WellFormed vol (view vol disk'))
    (hk : Kept vol (view vol disk) (view vol disk') (Entry vol (view vol disk))) {ino : Nat}
    (he : IsNode (Entry vol (view vol disk)) ino) {stat : Stat}
    (hstat : statFile vol disk ino = .ok stat) :
    ∃ stat', statFile vol disk' ino = .ok stat' ∧ stat'.stMode = stat.stMode := by
  have he' : IsNode (Entry vol (view vol disk')) ino := hk.entry he
  have hattr : (direntOf vol (view vol disk') ino).attributes =
      (direntOf vol (view vol disk) ino).attributes := (hk.name _ _ he).attributes
  rw [statFile_eq hg (hwf.sound.hasDirent he), bind_eq_ok] at hstat
  obtain ⟨mode, hmode, h⟩ := hstat
  cases h
  rw [statFile_eq hg (hwf'.sound.hasDirent he'), hattr, hmode]
  exact ⟨_, rfl, rfl⟩

/-- **Chain integrity.**  In every run of safe calls on a well-formed volume, the chains that
one reaches from the root stay acyclic, end in an end marker, share no cluster and have no
free one; and every file and directory keeps all its clusters. -/
theorem chain_integrity (hg : Geometry vol) {s s' : FatState} {ops : List FatOp}
    (hwf : WellFormed vol (view vol s.disk)) (hrun : (fat vol).Run (Safe vol) s ops s') :
    Intact vol (view vol s'.disk) ∧
      ∀ d k, Entry vol (view vol s.disk) d k → Entry vol (view vol s'.disk) d k ∧
        chainOf vol (view vol s.disk) d k <+: chainOf vol (view vol s'.disk) d k := by
  obtain ⟨hwf', hk⟩ := run_kept hg (fun _ _ h => h) hwf hrun
  exact ⟨hwf'.intact, fun d k he => ⟨hk.entry he, hk.chain d k he⟩⟩

/-! ### A full directory -/

theorem twoFatsDisk_write : (FatOp.exec twoFats twoFatsDisk (.writeFile 65536 0 [1])).isOk = true := by
  decide +kernel

/-- Writing to the empty file `B`, which allocates two clusters. -/
theorem chain_integrity_after_write :
    ∃ s', (fat twoFats).Run (Safe twoFats) twoFatsDisk [.writeFile 65536 0 [1]] s' ∧
      Intact twoFats (view twoFats s'.disk) := by
  obtain ⟨s', hexec⟩ := exists_of_isOk twoFatsDisk_write
  have hrun : (fat twoFats).Run (Safe twoFats) twoFatsDisk [.writeFile 65536 0 [1]] s' :=
    .snoc (.nil _) ⟨twoFatsDisk_emptyFile, .inl (.inl rfl)⟩ hexec
  exact ⟨s', hrun, (chain_integrity twoFats_geometry twoFatsDisk_wellFormed hrun).1⟩

/-- The start of the table: the directory in cluster 2. -/
def fullDirTable : List UInt8 := [0xF8, 0xFF, 0xFF, 0xFF, 0xF8, 0xFF]

/-- An entry with a one-letter name. -/
def letterEntry (letter attributes : UInt8) (clusterNumber : Nat) : Fat16DirectoryEntry :=
  ofFields (fun i => if i.val = 0 then letter else 32) attributes clusterNumber 0

/-- A directory whose single cluster is full of empty files, with nothing behind them.  In the
free cluster 4 there is still the entry of a file that once was in cluster 2. -/
def fullDirDisk : FatState where
  disk := Mem.write (Mem.write (Mem.write (Mem.write (fun _ => 0) 512 fullDirTable) 1536
    (letterEntry 68 fileAttributesDirectory 2).toBytes) 2048
    ((List.range 16).flatMap fun k => (letterEntry (UInt8.ofNat (65 + k)) 0 0).toBytes)) 3072
    (letterEntry 88 0 2).toBytes
  createIdx := 0

/-- The directory, the end behind it, and the files in it. -/
theorem fullDirDisk_records :
    ((view twoFats fullDirDisk.disk).next 2 = none ∧
      (record twoFats (view twoFats fullDirDisk.disk) 0 1).firstByte = 0) ∧
    ((record twoFats (view twoFats fullDirDisk.disk) 0 0).firstByte ≠ 0 ∧
      (record twoFats (view twoFats fullDirDisk.disk) 0 0).Names ∧
      (record twoFats (view twoFats fullDirDisk.disk) 0 0).IsDirectory ∧
      (record twoFats (view twoFats fullDirDisk.disk) 0 0).clusterNumber = 2) ∧
    (InDir twoFats (view twoFats fullDirDisk.disk) 2 (15 * 32 + 32) ∧
      (record twoFats (view twoFats fullDirDisk.disk) 2 15).Names) ∧
    ∀ k < 16, (record twoFats (view twoFats fullDirDisk.disk) 2 k).firstByte ≠ 0 ∧
      ¬ (record twoFats (view twoFats fullDirDisk.disk) 2 k).IsDirectory ∧
      (record twoFats (view twoFats fullDirDisk.disk) 2 k).clusterNumber = 0 := by
  unfold InDir
  decide +kernel

theorem fullDirDisk_wellFormed : WellFormed twoFats (view twoFats fullDirDisk.disk) := by
  obtain ⟨⟨hnext, hend⟩, ⟨-, -, -, hcluster⟩, -, hfiles⟩ := fullDirDisk_records
  have hchain : IsChain twoFats (view twoFats fullDirDisk.disk) [2] := ⟨by decide, hnext, trivial⟩
  have hD : chainOf twoFats (view twoFats fullDirDisk.disk) 0 0 = [2] := by
    rw [chainOf, hcluster, hchain.chain_eq]
  have hroot : ∀ k, Listed twoFats (view twoFats fullDirDisk.disk) 0 k → k = 0 := by
    intro k hl
    by_contra hk
    exact hl.before 1 (by omega) hend
  have hsub : ∀ k, Listed twoFats (view twoFats fullDirDisk.disk) 2 k → k < 16 := by
    intro k hl
    have hin := hl.inDir
    have hcap : capacity twoFats ((view twoFats fullDirDisk.disk).chain 2) = 512 := by
      rw [hchain.chain_eq]
      rfl
    rw [InDir, if_neg (by decide), hcap] at hin
    omega
  have hreach : ∀ d, Reach twoFats (view twoFats fullDirDisk.disk) d → d = 0 ∨ d = 2 := by
    intro d h
    induction h with
    | root => exact .inl rfl
    | sub _ hl hdir ih =>
      rcases ih with rfl | rfl
      · obtain rfl := hroot _ hl
        exact .inr hcluster
      · exact absurd hdir (hfiles _ (hsub _ hl)).2.1
  -- every entry but the directory has no clusters
  refine .of_one_chain hchain hD (fun _ => by rw [hcluster]; decide) fun d k he => ?_
  rcases hreach d he.reach with rfl | rfl
  · exact .inl (by rw [hroot k he.listed])
  · obtain ⟨-, hnd, hc⟩ := hfiles k (hsub k he.listed)
    exact .inr ⟨by rw [chainOf, hc, chain_of_invalid _ (by decide)], hnd⟩

theorem fullDirDisk_lastFile :
    IsNode (Entry twoFats (view twoFats fullDirDisk.disk)) (2 + 15 * 65536) := by
  obtain ⟨-, ⟨hfirst, hnames, hdirectory, hcluster⟩, ⟨hin, hlast⟩, hfiles⟩ := fullDirDisk_records
  have hlisted : Listed twoFats (view twoFats fullDirDisk.disk) 0 0 := by
    refine ⟨?_, fun j hj => ?_, hnames⟩
    · unfold InDir
      decide
    · obtain rfl : j = 0 := by omega
      exact hfirst
  have hreach : Reach twoFats (view twoFats fullDirDisk.disk) 2 := by
    rw [← hcluster]
    exact .sub .root hlisted hdirectory
  exact ⟨hreach, hin, fun j hj => (hfiles j (Nat.lt_succ_of_le hj)).1, hlast⟩

/-- Writing to the last file of the full directory gives the directory the uncleared cluster 4,
and with it a file in its own clusters. -/
theorem full_directory_cross_linked :
    ∃ s', Geometry twoFats ∧ WellFormed twoFats (view twoFats fullDirDisk.disk) ∧
      IsNode (Entry twoFats (view twoFats fullDirDisk.disk)) (2 + 15 * 65536) ∧
      (fat twoFats).step fullDirDisk (.writeFile (2 + 15 * 65536) 0 [1]) s' ∧
      ¬ Intact twoFats (view twoFats s'.disk) := by
  have hfacts : ((FatOp.exec twoFats fullDirDisk (.writeFile (2 + 15 * 65536) 0 [1])).map
      fun s' => view twoFats s'.disk).map (fun v =>
      decide ((∀ j : Nat, j < 1 → (record twoFats v 0 j).firstByte ≠ 0) ∧ (record twoFats v 0 0).Names ∧
        (record twoFats v 0 0).IsDirectory ∧ (record twoFats v 0 0).clusterNumber = 2 ∧
        v.chain 2 = [2, 4] ∧ (∀ j : Nat, j < 17 → (record twoFats v 2 j).firstByte ≠ 0) ∧
        (record twoFats v 2 16).Names ∧ (record twoFats v 2 16).clusterNumber = 2)) = .ok true := by
    decide +kernel
  obtain ⟨v, hv, hfacts⟩ := map_eq_ok.mp hfacts
  obtain ⟨s', hstep, rfl⟩ := map_eq_ok.mp hv
  obtain ⟨hD, hDnames, hdir, hDcluster, hchain, hX, hXnames, hXcluster⟩ :=
    of_decide_eq_true hfacts
  refine ⟨s', twoFats_geometry, fullDirDisk_wellFormed, fullDirDisk_lastFile, hstep, fun hi => ?_⟩
  have hentryD : Entry twoFats (view twoFats s'.disk) 0 0 := by
    refine ⟨.root, ?_, fun j hj => hD j (by omega), hDnames⟩
    show 0 * 32 + 32 < rootBytes twoFats
    decide
  have hentryX : Entry twoFats (view twoFats s'.disk) 2 16 := by
    refine ⟨?_, ?_, fun j hj => hX j (by omega), hXnames⟩
    · rw [← hDcluster]
      exact .sub .root hentryD.listed hdir
    · rw [InDir, hchain]
      decide
  have hdisj := hi.disjoint 0 0 2 16 hentryD hentryX (by decide)
  rw [chainOf, chainOf, hDcluster, hXcluster, hchain] at hdisj
  exact hdisj (List.mem_cons_self ..) (List.mem_cons_self ..)

/-! ### Calls that keep files within their clusters -/

/-- No file is larger than its clusters. -/
def Fitting (vol : Fat16Volume) (v : View) : Prop :=
  ∀ d k, Entry vol v d k → ¬ (record vol v d k).IsDirectory →
    (record vol v d k).fileSizeBytes ≤ capacity vol (chainOf vol v d k)

/-- How many bytes a file has room for without a cluster more than it has or gets at first. -/
def roomOf (vol : Fat16Volume) (v : View) (ino : Nat) : Nat :=
  max 1 (nodeChain vol v ino).length * bytesPerCluster vol

/-- **The call sets no size past the clusters** without writing there: a write of no bytes and a
truncation stay within the room of the file. -/
def Sized (vol : Fat16Volume) (s : FatState) : FatOp → Prop
  | .createInode _ _ _ => True
  | .writeFile ino offset input => input = [] → u64 offset ≤ roomOf vol (view vol s.disk) ino
  | .ftruncate ino len => len ≤ roomOf vol (view vol s.disk) ino

theorem capacity_mono {l l' : List Nat} (h : l <+: l') : capacity vol l ≤ capacity vol l' :=
  Nat.mul_le_mul_right _ h.length_le

theorem roomOf_le {ino : Nat} (hpre : nodeChain vol v ino <+: nodeChain vol v' ino)
    (hvalid : isInvalidClusterNum (direntOf vol v' ino).clusterNumber = false) :
    roomOf vol v ino ≤ capacity vol (nodeChain vol v' ino) := by
  have hlen := hpre.length_le
  have hpos : 1 ≤ (nodeChain vol v' ino).length := by
    rw [nodeChain_eq, chain_eq_cons _ hvalid, List.length_cons]
    omega
  exact Nat.mul_le_mul_right _ (max_le hpos hlen)

/-- A call on a file keeps the other files within their clusters. -/
theorem Changed.fitting {r : Fat16DirectoryEntry} (hwf : WellFormed vol v) (hfit : Fitting vol v)
    (hc : Changed vol v v' (Entry vol v) d k r) (hk : Kept vol v v' (Entry vol v))
    (hcomplete : Complete vol v' (Entry vol v))
    (hsize : r.fileSizeBytes ≤ capacity vol (chainOf vol v' d k)) : Fitting vol v' := by
  intro a b he hnd
  have he' := hcomplete.entry he
  by_cases heq : (a, b) = (d, k)
  · cases heq
    rw [hc.record]
    exact hsize
  · have hrec := hc.record_of_ne hwf.sound he' heq
    rw [hrec] at hnd ⊢
    exact (hfit a b he' hnd).trans (capacity_mono (hk.chain a b he'))

/-- **A sized call keeps files within their clusters.** -/
theorem exec_fitting (hg : Geometry vol) {s s' : FatState} {op : FatOp}
    (hwf : WellFormed vol (view vol s.disk)) (hfit : Fitting vol (view vol s.disk))
    (hsafe : Safe vol s op) (hsized : Sized vol s op) (h : op.exec vol s = .ok s') :
    Fitting vol (view vol s'.disk) := by
  cases op with
  | createInode parent newInodeType name =>
    obtain ⟨-, hk, hfiles, v₂, n, hnew, hentry⟩ := createInode_adds hg hwf hsafe h
    intro a b he hnd
    rcases hentry a b he with he' | heq
    · have hold : ¬ (record vol (view vol s.disk) a b).IsDirectory :=
        fun hdir => hnd ((hk.name a b he').isDirectory.mpr hdir)
      rw [hfiles a b he' hold]
      exact (hfit a b he' hold).trans (capacity_mono (hk.chain a b he'))
    · cases heq
      rw [hnew.fileSizeBytes hnd]
      exact Nat.zero_le _
  | writeFile ino offset input =>
    have h := FatOp.exec_writeFile vol h
    obtain ⟨r, hc, hfile, hname, hvalid, hsize, -, hroom⟩ :=
      writeFile_changed hg hwf.sound hsafe.1 h
    obtain ⟨-, hk, hcomplete⟩ := hc.intact hwf hfile hname hsafe.2
    refine hc.fitting hwf hfit hk hcomplete ?_
    rw [hsize, sizeAfter]
    split
    · by_cases hne : input = []
      · have hself : direntOf vol (view vol s'.disk) ino = r := hc.record
        have hle := roomOf_le hc.chain (by rw [hself]; exact hvalid)
        rw [hne, List.length_nil, Nat.add_zero]
        exact (hsized hne).trans hle
      · exact (Nat.mod_le _ _).trans (Nat.le_of_lt (hroom hne))
    · exact (hfit _ _ hsafe.1 hfile).trans (capacity_mono hc.chain)
  | ftruncate ino len =>
    have h := FatOp.exec_ftruncate vol h
    obtain ⟨r, hc, hfile, hname, hvalid, hsize⟩ := ftruncate_changed hg hwf.sound hsafe.1 h
    obtain ⟨-, hk, hcomplete⟩ := hc.intact hwf hfile hname hsafe.2
    refine hc.fitting hwf hfit hk hcomplete ?_
    have hself : direntOf vol (view vol s'.disk) ino = r := hc.record
    rw [hsize]
    exact hsized.trans (roomOf_le hc.chain (by rw [hself]; exact hvalid))

theorem Fitting.file {disk : Mem} (hfit : Fitting vol (view vol disk)) (hg : Geometry vol)
    (hwf : WellFormed vol (view vol disk)) {ino : Nat}
    (he : IsNode (Entry vol (view vol disk)) ino) {stat : Stat}
    (hstat : statFile vol disk ino = .ok stat) (hreg : sIsdir stat.stMode = false) :
    stat.stSize ≤ capacity vol (nodeChain vol (view vol disk) ino) := by
  obtain ⟨hfile, hsize⟩ := file_of_stat hg (hwf.sound.hasDirent he) hstat hreg
  rw [hsize]
  exact hfit _ _ he hfile

theorem readFile_of_fitting (hg : Geometry vol) {disk : Mem}
    (hwf : WellFormed vol (view vol disk)) (hfit : Fitting vol (view vol disk)) {ino : Nat}
    (he : IsNode (Entry vol (view vol disk)) ino) {stat : Stat}
    (hstat : statFile vol disk ino = .ok stat) (hreg : sIsreg stat.stMode = true) {offset n : Nat}
    (hoff : offset < stat.stSize) (hn : offset + n < 2 ^ 64) :
    ∃ bytes, readFile vol disk ino offset n = .ok bytes := by
  have hnd := not_sIsdir_of_sIsreg hreg
  exact ⟨_, readFile_slice hg hwf.sound he hstat hnd (hfit.file hg hwf he hstat hnd) (by omega) hn⟩

/-- The bytes that `read_file` asks for, if it starts behind the end of the file or counts over the
largest offset. -/
theorem readLength_past {size offset n : Nat} (hsize : size < 2 ^ 32) (hoff : offset < 2 ^ 64)
    (hn : n < 2 ^ 64) (h : ¬ (offset ≤ size ∧ offset + n < 2 ^ 64)) :
    readLength size offset n ≠ 0 ∧ 2 ^ 32 ≤ offset + readLength size offset n := by
  rw [readLength, u64, u64]
  split <;> omega

/-- A read that returns starts at most at the end of the file and does not wrap around. -/
theorem readFile_returns (hg : Geometry vol) {disk : Mem} (hwf : WellFormed vol (view vol disk))
    {ino : Nat} (he : IsNode (Entry vol (view vol disk)) ino) {stat : Stat}
    (hstat : statFile vol disk ino = .ok stat) (hreg : sIsreg stat.stMode = true) {offset n : Nat}
    (hoff : offset < 2 ^ 64) (hn : n < 2 ^ 64) {bytes : List UInt8}
    (h : readFile vol disk ino offset n = .ok bytes) :
    offset ≤ stat.stSize ∧ offset + n < 2 ^ 64 := by
  have hnd := not_sIsdir_of_sIsreg hreg
  have hdirent := hwf.sound.hasDirent he
  by_contra hpast
  have hsize := (file_of_stat hg hdirent hstat hnd).2
  have hlt := fileSizeBytes_lt (direntOf vol (view vol disk) ino)
  obtain ⟨hlen, hend⟩ := readLength_past (by omega) hoff hn hpast
  rw [readFile_eq hg hdirent hstat hnd, ← hsize] at h
  have hvalid := readFromClusterChain_valid hlen h
  have hchain : IsChain vol (view vol disk) (nodeChain vol (view vol disk) ino) :=
    hwf.sound.chainOf he
  rw [nodeChain_eq, chain_eq_cons _ hvalid] at hchain
  have hle := readFromClusterChain_capacity hg hchain (Nat.pos_of_ne_zero hlen) h
  have := capacity_lt hg hchain.length_le
  omega

/-- **When `read_file` returns the slice of the file.**  The comparison with the end of the file
wraps around, so the read may start at most at the end, and the end of the read must be an offset. -/
theorem read_file_slice_iff (hg : Geometry vol) {disk : Mem}
    (hwf : WellFormed vol (view vol disk)) (hfit : Fitting vol (view vol disk)) {ino : Nat}
    (he : IsNode (Entry vol (view vol disk)) ino) {stat : Stat}
    (hstat : statFile vol disk ino = .ok stat) (hreg : sIsreg stat.stMode = true) {offset n : Nat}
    (hoff : offset < 2 ^ 64) (hn : n < 2 ^ 64) :
    readFile vol disk ino offset n =
        .ok ((nodeBytes vol (view vol disk) ino).read offset (min n (stat.stSize - offset))) ↔
      offset ≤ stat.stSize ∧ offset + n < 2 ^ 64 := by
  constructor
  · exact readFile_returns hg hwf he hstat hreg hoff hn
  · rintro ⟨hle, hlt⟩
    exact readFile_slice hg hwf.sound he hstat (not_sIsdir_of_sIsreg hreg)
      (hfit.file hg hwf he hstat (not_sIsdir_of_sIsreg hreg)) hle hlt

/-- **Files stay within their clusters** in every run of safe and sized calls, so a read that
starts below the size of a file returns. -/
theorem size_le_capacity (hg : Geometry vol) {s s' : FatState} {ops : List FatOp}
    (hwf : WellFormed vol (view vol s.disk)) (hfit : Fitting vol (view vol s.disk))
    (hrun : (fat vol).Run (fun s op => Safe vol s op ∧ Sized vol s op) s ops s') :
    Fitting vol (view vol s'.disk) ∧
      ∀ ino stat offset n, IsNode (Entry vol (view vol s'.disk)) ino →
        statFile vol s'.disk ino = .ok stat → sIsreg stat.stMode = true → offset < stat.stSize →
        offset + n < 2 ^ 64 → ∃ bytes, readFile vol s'.disk ino offset n = .ok bytes := by
  have hinv : WellFormed vol (view vol s'.disk) ∧ Fitting vol (view vol s'.disk) := by
    refine hrun.invariant (P := fun _ s => WellFormed vol (view vol s.disk) ∧
      Fitting vol (view vol s.disk)) ?_ ⟨hwf, hfit⟩
    intro _ s₁ op s₂ h hop hstep
    exact ⟨(exec_kept hg h.1 hop.1 hstep).1, exec_fitting hg h.1 h.2 hop.1 hop.2 hstep⟩
  refine ⟨hinv.2, fun ino stat offset n he hstat hreg hoff hn => ?_⟩
  exact readFile_of_fitting hg hinv.1 hinv.2 he hstat hreg hoff hn

/-! ### Sizes without clusters -/

theorem twoFatsDisk_fitting : Fitting twoFats (view twoFats twoFatsDisk.disk) := by
  intro d k he _
  obtain ⟨rfl, hk⟩ := twoFatsDisk_entry he
  have hsizes : ∀ k < 2, (record twoFats (view twoFats twoFatsDisk.disk) 0 k).fileSizeBytes ≤
      capacity twoFats (chainOf twoFats (view twoFats twoFatsDisk.disk) 0 k) := by
    decide +kernel
  exact hsizes k hk

/-- The last byte of the file `A`, of two that are asked for. -/
theorem read_file_slice_end : readFile twoFats twoFatsDisk.disk 0 1023 2 =
    .ok ((nodeBytes twoFats (view twoFats twoFatsDisk.disk) 0).read 1023 1) := by
  exact (read_file_slice_iff twoFats_geometry twoFatsDisk_wellFormed twoFatsDisk_fitting
    twoFatsDisk_isNode twoFatsDisk_stat.1 (by decide) (by decide) (by decide)).mpr ⟨by decide, by decide⟩

/-- One byte behind the end of the file `A`, and all bytes from its second one on: the read halts
where nothing, or the rest of the file, is due. -/
theorem read_file_past_end_halts :
    WellFormed twoFats (view twoFats twoFatsDisk.disk) ∧
      Fitting twoFats (view twoFats twoFatsDisk.disk) ∧
      IsNode (Entry twoFats (view twoFats twoFatsDisk.disk)) 0 ∧
      statFile twoFats twoFatsDisk.disk 0 = .ok { stIno := 0, stMode := sIfreg, stSize := 1024 } ∧
      readFile twoFats twoFatsDisk.disk 0 1025 1 = .error .hcf ∧
      readFile twoFats twoFatsDisk.disk 0 1025 1 ≠
        .ok ((nodeBytes twoFats (view twoFats twoFatsDisk.disk) 0).read 1025 (min 1 (1024 - 1025))) ∧
      readFile twoFats twoFatsDisk.disk 0 1 (2 ^ 64 - 1) = .error .hcf := by
  have hhalts : readFile twoFats twoFatsDisk.disk 0 1025 1 = .error .hcf ∧
      readFile twoFats twoFatsDisk.disk 0 1 (2 ^ 64 - 1) = .error .hcf := by
    decide +kernel
  refine ⟨twoFatsDisk_wellFormed, twoFatsDisk_fitting, twoFatsDisk_isNode, twoFatsDisk_stat.1,
    hhalts.1, fun hok => ?_, hhalts.2⟩
  rw [hhalts.1] at hok
  cases hok

/-- Writing one byte to the empty file `B`. -/
theorem size_le_capacity_after_write :
    ∃ s', (fat twoFats).Run (fun s op => Safe twoFats s op ∧ Sized twoFats s op) twoFatsDisk
        [.writeFile 65536 0 [1]] s' ∧ Fitting twoFats (view twoFats s'.disk) := by
  obtain ⟨s', hexec⟩ := exists_of_isOk twoFatsDisk_write
  have hsafe : Safe twoFats twoFatsDisk (.writeFile 65536 0 [1]) :=
    ⟨twoFatsDisk_emptyFile, .inl (.inl rfl)⟩
  have hsized : Sized twoFats twoFatsDisk (.writeFile 65536 0 [1]) := fun h => by cases h
  have hrun : (fat twoFats).Run (fun s op => Safe twoFats s op ∧ Sized twoFats s op) twoFatsDisk
      [.writeFile 65536 0 [1]] s' := .snoc (.nil _) ⟨hsafe, hsized⟩ hexec
  exact ⟨s', hrun,
    (size_le_capacity twoFats_geometry twoFatsDisk_wellFormed twoFatsDisk_fitting hrun).1⟩

/-- The file `A` has two clusters of 512 bytes.  A truncation to 2000 bytes and a write of no
bytes at 2000 set its size to 2000, and a read at 1500 halts. -/
theorem size_past_the_clusters :
    Geometry twoFats ∧ WellFormed twoFats (view twoFats twoFatsDisk.disk) ∧
    Fitting twoFats (view twoFats twoFatsDisk.disk) ∧
    ∀ op ∈ [FatOp.ftruncate 0 2000, FatOp.writeFile 0 2000 []], ∃ s',
      (fat twoFats).step twoFatsDisk op s' ∧ ¬ Fitting twoFats (view twoFats s'.disk) ∧
      readFile twoFats s'.disk 0 1500 1 = .error .hcf := by
  refine ⟨twoFats_geometry, twoFatsDisk_wellFormed, twoFatsDisk_fitting, fun op hop => ?_⟩
  have hfacts : ∀ op ∈ [FatOp.ftruncate 0 2000, FatOp.writeFile 0 2000 []],
      ((op.exec twoFats twoFatsDisk).map fun s' => (s'.disk, view twoFats s'.disk)).map (fun p =>
        decide ((∀ j : Nat, j < 1 → (record twoFats p.2 0 j).firstByte ≠ 0) ∧
          (record twoFats p.2 0 0).Names ∧ ¬ (record twoFats p.2 0 0).IsDirectory ∧
          (record twoFats p.2 0 0).fileSizeBytes = 2000 ∧ chainOf twoFats p.2 0 0 = [2, 3] ∧
          readFile twoFats p.1 0 1500 1 = .error .hcf)) = .ok true := by
    intro op hop
    simp only [List.mem_cons, List.not_mem_nil, or_false] at hop
    rcases hop with rfl | rfl
    · decide +kernel
    · decide +kernel
  obtain ⟨p, hp, hfacts⟩ := map_eq_ok.mp (hfacts op hop)
  obtain ⟨s', hstep, rfl⟩ := map_eq_ok.mp hp
  obtain ⟨hbefore, hnames, hnd, hsize, hchain, hread⟩ := of_decide_eq_true hfacts
  refine ⟨s', hstep, fun hfit => ?_, hread⟩
  have hentry : Entry twoFats (view twoFats s'.disk) 0 0 := by
    refine ⟨.root, ?_, fun j hj => hbefore j (by omega), hnames⟩
    show 0 * 32 + 32 < rootBytes twoFats
    decide
  have hle := hfit 0 0 hentry hnd
  rw [hsize, hchain] at hle
  exact absurd hle (by decide)

end Stuos.Fs.Fat
