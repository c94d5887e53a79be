import Stuos.Fs.Fat.Entries

/-!
# Writing to files

What `write_file` and `ftruncate` do to the view of the disk, as a `Changed` step of the
file's entry, and what can be read afterwards.

* `writeFile_changed`, `ftruncate_changed`: the entry, the chain and the bytes of the file
  after the call.
* `readDirents_mono`: a listing does not depend on first clusters and sizes.
* `write_file_law`: what `write_file` wrote is read back, and nothing else changes.
-/

namespace Stuos.Fs.Fat

open Stuos.Lib

variable {vol : Fat16Volume} {disk disk' disk₁ disk₂ : Mem} {E : Nat → Nat → Prop} {d k : Nat}

/-! ### The entry of a file -/

open Fat16DirectoryEntry

theorem sIsdir_readFatMode {e : Fat16DirectoryEntry} {mode : Nat}
    (h : readFatMode e.attributes = .ok mode) : sIsdir mode = true ↔ e.IsDirectory := by
  rw [readFatMode, bind_eq_ok] at h
  obtain ⟨-, -, h⟩ := h
  rw [pure_eq_ok, Except.ok.injEq] at h
  rw [← h, IsDirectory]
  split
  · rename_i hdir
    simp only [hdir, not_false_eq_true, iff_true, ne_eq]
    decide
  · rename_i hdir
    simp only [hdir, iff_false]
    decide

/-- A node is one of the entries. -/
def IsNode (E : Nat → Nat → Prop) (ino : Nat) : Prop :=
  E (getParentClusterNum ino) (getDirentIndexInParent ino)

/-- The clusters of a node. -/
def nodeChain (vol : Fat16Volume) (v : View) (ino : Nat) : List Nat :=
  chainOf vol v (getParentClusterNum ino) (getDirentIndexInParent ino)

theorem nodeChain_eq (vol : Fat16Volume) (v : View) (ino : Nat) :
    nodeChain vol v ino = v.chain (direntOf vol v ino).clusterNumber := rfl

/-- The bytes of a node. -/
def nodeBytes (vol : Fat16Volume) (v : View) (ino : Nat) : Mem := content vol v (nodeChain vol v ino)

/-- A `Changed` step of a node. -/
abbrev NodeChanged (vol : Fat16Volume) (v v' : View) (E : Nat → Nat → Prop) (ino : Nat)
    (r : Fat16DirectoryEntry) : Prop :=
  Changed vol v v' E (getParentClusterNum ino) (getDirentIndexInParent ino) r

theorem Sound.hasDirent {spare : List Nat} {v : View} (h : Sound vol v E spare) {ino : Nat}
    (he : IsNode E ino) : HasDirent vol v ino :=
  ⟨h.isDir (h.parent _ _ he), h.inDir _ _ he⟩

theorem ensureFirstCluster_cases (hg : Geometry vol) {e e₁ : Fat16DirectoryEntry}
    (h : ensureFirstCluster vol disk e = .ok (e₁, disk₁)) :
    (isInvalidClusterNum e.clusterNumber = false ∧ e₁ = e ∧ disk₁ = disk) ∨
    ∃ fresh, isInvalidClusterNum e.clusterNumber = true ∧
      Allocated vol (view vol disk) (view vol disk₁) fresh ∧ e₁ = e.withClusterNumber fresh := by
  rw [ensureFirstCluster] at h
  split at h
  · rename_i hinv
    rw [bind_eq_ok] at h
    obtain ⟨⟨fresh, disk₂⟩, ha, h⟩ := h
    cases h
    exact .inr ⟨fresh, hinv, allocateCluster_ok hg ha, rfl⟩
  · rename_i hinv
    cases h
    exact .inl ⟨by simpa using hinv, rfl, rfl⟩

/-- What is left to do after the first cluster of a file is there: the entry `e₁` is still to
be written. -/
structure Started (vol : Fat16Volume) (v v₁ : View) (E : Nat → Nat → Prop) (d k : Nat)
    (e₁ : Fat16DirectoryEntry) (spare : List Nat) : Prop extends Prepared vol v v₁ E spare where
  valid : isInvalidClusterNum e₁.clusterNumber = false
  name : SameName (record vol v d k) e₁
  size : e₁.fileSizeBytes = (record vol v d k).fileSizeBytes
  chain : e₁.clusterNumber = (record vol v d k).clusterNumber ∧ spare = [] ∨
    chainOf vol v d k = [] ∧ v₁.chain e₁.clusterNumber = spare

theorem Allocated.chain_eq {v v' : View} {fresh : Nat} (h : Allocated vol v v' fresh) :
    v'.chain fresh = [fresh] := by
  have hchain := h.touched.chain
  rw [List.nil_append] at hchain
  exact hchain.chain_eq

theorem ensureFirstCluster_started (hg : Geometry vol) (hs : Sound vol (view vol disk) E [])
    {e₁ : Fat16DirectoryEntry}
    (h : ensureFirstCluster vol disk (record vol (view vol disk) d k) = .ok (e₁, disk₁)) :
    ∃ spare, Started vol (view vol disk) (view vol disk₁) E d k e₁ spare := by
  rcases ensureFirstCluster_cases hg h with ⟨hvalid, rfl, rfl⟩ | ⟨fresh, hinv, ha, rfl⟩
  · exact ⟨[], .refl hs, hvalid, fun _ _ => rfl, rfl, .inl ⟨rfl, rfl⟩⟩
  · have hlt := ha.inRange.lt
    have hcluster : ((record vol (view vol disk) d k).withClusterNumber fresh).clusterNumber =
        fresh := clusterNumber_withClusterNumber _ (by omega)
    have hp := hs.prepare ha.touched (by rw [ha.eq]; rfl)
    refine ⟨[fresh], hp, ?_, sameName_withClusterNumber _ _, rfl, .inr ⟨?_, ?_⟩⟩
    · rw [hcluster]
      exact ha.inRange.valid
    · rw [chainOf, chain_of_invalid _ hinv]
    · rw [hcluster, ha.chain_eq]

theorem Started.of_rewrite (hg : Geometry vol) (hs : Sound vol (view vol disk) E []) {ino : Nat}
    {e₁ r : Fat16DirectoryEntry} {spare : List Nat}
    (he : IsNode E ino) (hfile : ¬ (direntOf vol (view vol disk) ino).IsDirectory)
    (h : Started vol (view vol disk) (view vol disk₁) E (getParentClusterNum ino)
      (getDirentIndexInParent ino) e₁ spare)
    (hr : SameName e₁ r) (hc : r.clusterNumber = e₁.clusterNumber)
    (hw : writeParentDirent vol disk₁ ino r = .ok disk₂) :
    NodeChanged vol (view vol disk₁) (view vol disk₂) E ino r ∧
      SameFile vol (view vol disk₁) (view vol disk₂) r.clusterNumber := by
  have hrec : record vol (view vol disk₁) (getParentClusterNum ino) (getDirentIndexInParent ino) =
      direntOf vol (view vol disk) ino := hs.sameRecord h.dirs he
  have hnd : ¬ r.IsDirectory := by
    rw [hr.isDirectory, h.name.isDirectory]
    exact hfile
  have hold := (h.files _ _ he).chain
  obtain ⟨ext, hdw⟩ := writeParentDirent_ok hg (h.sound.hasDirent he) hw
  refine Changed.of_rewrite h.sound he (by rw [hrec]; exact hfile) hdw
    (writeParentDirent_inner hg (h.sound.hasDirent he) hw) hnd ?_
  rw [hrec, hc]
  rcases h.chain with ⟨hcl, hsp⟩ | ⟨hnil, hsp⟩
  · exact .inl ⟨hcl, hsp⟩
  · right
    refine ⟨?_, hsp⟩
    rw [chainOf, hrec]
    exact hold.trans hnil

/-- **The entry of the file is written.**  The bytes the file had are still there. -/
theorem Started.rewrite (hg : Geometry vol) (hs : Sound vol (view vol disk) E []) {ino : Nat}
    {e₁ r : Fat16DirectoryEntry} {spare : List Nat}
    (he : IsNode E ino) (hfile : ¬ (direntOf vol (view vol disk) ino).IsDirectory)
    (h : Started vol (view vol disk) (view vol disk₁) E (getParentClusterNum ino)
      (getDirentIndexInParent ino) e₁ spare)
    (hr : SameName e₁ r) (hc : r.clusterNumber = e₁.clusterNumber)
    (hw : writeParentDirent vol disk₁ ino r = .ok disk₂) :
    NodeChanged vol (view vol disk) (view vol disk₂) E ino r ∧
    ∀ i < capacity vol (nodeChain vol (view vol disk) ino),
      nodeBytes vol (view vol disk₂) ino i = nodeBytes vol (view vol disk) ino i := by
  obtain ⟨hch, hsame⟩ := h.of_rewrite hg hs he hfile hr hc hw
  refine ⟨Changed.after hs h.toPrepared he hch, ?_⟩
  intro i hi
  rcases h.chain with ⟨hcl, -⟩ | ⟨hnil, -⟩
  · have hcl' : r.clusterNumber = (direntOf vol (view vol disk) ino).clusterNumber := hc.trans hcl
    have hself : direntOf vol (view vol disk₂) ino = r := hch.record
    have hf : SameFile vol (view vol disk) (view vol disk₁)
        (direntOf vol (view vol disk) ino).clusterNumber := h.files _ _ he
    rw [hcl'] at hsame
    rw [nodeBytes, nodeBytes, nodeChain_eq, nodeChain_eq, hself, hcl', hsame.chain, hsame.content,
      hf.chain, hf.content]
  · rw [nodeChain, hnil] at hi
    simp [capacity] at hi

/-! ### The calls -/

theorem statFile_eq (hg : Geometry vol) {ino : Nat} (hdirent : HasDirent vol (view vol disk) ino) :
    statFile vol disk ino = (do
      let stMode ← readFatMode (direntOf vol (view vol disk) ino).attributes
      .ok { stIno := ino, stMode, stSize := (direntOf vol (view vol disk) ino).fileSizeBytes }) := by
  rw [statFile, if_neg hdirent.isDir.ne_iAmRootDir, readParentDirent_ok hg hdirent, ok_bind]
  rfl

theorem file_of_stat (hg : Geometry vol) {ino : Nat} (hdirent : HasDirent vol (view vol disk) ino)
    {stat : Stat} (hstat : statFile vol disk ino = .ok stat) (hreg : sIsdir stat.stMode = false) :
    ¬ (direntOf vol (view vol disk) ino).IsDirectory ∧
      stat.stSize = (direntOf vol (view vol disk) ino).fileSizeBytes := by
  rw [statFile_eq hg hdirent, bind_eq_ok] at hstat
  obtain ⟨mode, hmode, h⟩ := hstat
  cases h
  refine ⟨?_, rfl⟩
  rw [← sIsdir_readFatMode hmode]
  simpa using hreg

/-- The size of a file after `write_file`. -/
def sizeAfter (size offset len : Nat) : Nat :=
  if u64 (offset + len) > size then u64 (offset + len) else size

/-- The entry of a file after `write_file`: a new size only if the file gets longer. -/
def entryAfter (e : Fat16DirectoryEntry) (offset len : Nat) : Fat16DirectoryEntry :=
  if u64 (offset + len) > e.fileSizeBytes then e.withFileSizeBytes (u64 (offset + len)) else e

theorem entryAfter_spec {e : Fat16DirectoryEntry} {offset len : Nat}
    (h : u64 (offset + len) > e.fileSizeBytes → u64 (offset + len) ≤ uint32Max) :
    SameName e (entryAfter e offset len) ∧
      (entryAfter e offset len).clusterNumber = e.clusterNumber ∧
      (entryAfter e offset len).fileSizeBytes = sizeAfter e.fileSizeBytes offset len := by
  rw [entryAfter, sizeAfter]
  split
  · rename_i hgt
    have hle := h hgt
    rw [uint32Max] at hle
    exact ⟨sameName_withFileSizeBytes _ _, rfl, fileSizeBytes_withFileSizeBytes _ (by omega)⟩
  · exact ⟨fun _ _ => rfl, rfl, rfl⟩

theorem writeFile_eq (hg : Geometry vol) {ino : Nat} (hdirent : HasDirent vol (view vol disk) ino)
    {stat : Stat} (hstat : statFile vol disk ino = .ok stat) (hreg : sIsdir stat.stMode = false)
    (offset : Nat) (input : List UInt8) :
    writeFile vol disk ino offset input = (do
      let p ← ensureFirstCluster vol disk (direntOf vol (view vol disk) ino)
      ensure (u64 (offset + input.length) > p.1.fileSizeBytes →
        u64 (offset + input.length) ≤ uint32Max) .hcf
      let disk ← writeParentDirent vol p.2 ino (entryAfter p.1 offset input.length)
      writeToClusterChain vol disk (entryAfter p.1 offset input.length).clusterNumber offset
        input) := by
  rw [writeFile, hstat, ok_bind, ensure_of hreg, ok_bind, readParentDirent_ok hg hdirent, ok_bind]
  rfl

/-- The entry is written; the chain is there to be written along. -/
theorem Started.isChain (hg : Geometry vol) (hs : Sound vol (view vol disk) E []) {ino : Nat}
    {e₁ r : Fat16DirectoryEntry} {spare : List Nat} (he : IsNode E ino)
    (hfile : ¬ (direntOf vol (view vol disk) ino).IsDirectory)
    (h : Started vol (view vol disk) (view vol disk₁) E (getParentClusterNum ino)
      (getDirentIndexInParent ino) e₁ spare)
    (hr : SameName e₁ r) (hc : r.clusterNumber = e₁.clusterNumber)
    (hw : writeParentDirent vol disk₁ ino r = .ok disk₂) :
    IsChain vol (view vol disk₂) (r.clusterNumber :: ((view vol disk₂).chain r.clusterNumber).tail) ∧
      nodeChain vol (view vol disk₂) ino = (view vol disk₂).chain r.clusterNumber := by
  have hch := (h.rewrite hg hs he hfile hr hc hw).1
  have hself : direntOf vol (view vol disk₂) ino = r := hch.record
  have hchain : nodeChain vol (view vol disk₂) ino = (view vol disk₂).chain r.clusterNumber := by
    rw [nodeChain_eq, hself]
  have hisChain : IsChain vol (view vol disk₂) (nodeChain vol (view vol disk₂) ino) :=
    hch.sound.chainOf he
  rw [hchain, chain_eq_cons _ (hc ▸ h.valid)] at hisChain
  exact ⟨hisChain, hchain⟩

/-- **The steps of `write_file`**: a first cluster is there (`disk₁`), the entry is written
(`disk₂`), and the data is written along the chain. -/
structure WriteSteps (vol : Fat16Volume) (disk disk' : Mem) (E : Nat → Nat → Prop) (ino offset : Nat)
    (input : List UInt8) (e₁ : Fat16DirectoryEntry) (disk₁ disk₂ : Mem) (ext : List Nat) : Prop where
  file : ¬ (direntOf vol (view vol disk) ino).IsDirectory
  first : ensureFirstCluster vol disk (direntOf vol (view vol disk) ino) = .ok (e₁, disk₁)
  max : u64 (offset + input.length) > e₁.fileSizeBytes → u64 (offset + input.length) ≤ uint32Max
  started : ∃ spare, Started vol (view vol disk) (view vol disk₁) E (getParentClusterNum ino)
    (getDirentIndexInParent ino) e₁ spare
  parent : writeParentDirent vol disk₁ ino (entryAfter e₁ offset input.length) = .ok disk₂
  chain : nodeChain vol (view vol disk₂) ino =
    (view vol disk₂).chain (entryAfter e₁ offset input.length).clusterNumber
  data : writeToClusterChain vol disk₂ (entryAfter e₁ offset input.length).clusterNumber offset
    input = .ok disk'
  written : Written vol (view vol disk₂) (view vol disk') (nodeChain vol (view vol disk₂) ino) ext
    offset input
  entry : NodeChanged vol (view vol disk) (view vol disk₂) E ino (entryAfter e₁ offset input.length)
  changed : NodeChanged vol (view vol disk) (view vol disk') E ino
    (entryAfter e₁ offset input.length)

theorem writeFile_steps (hg : Geometry vol) (hs : Sound vol (view vol disk) E []) {ino : Nat}
    (he : IsNode E ino) {offset : Nat} {input : List UInt8}
    (h : writeFile vol disk ino offset input = .ok disk') :
    ∃ e₁ disk₁ disk₂ ext, WriteSteps vol disk disk' E ino offset input e₁ disk₁ disk₂ ext := by
  have hdirent := hs.hasDirent he
  obtain ⟨stat, hstat, hreg⟩ : ∃ stat, statFile vol disk ino = .ok stat ∧
      sIsdir stat.stMode = false := by
    rw [writeFile] at h
    simp only [bind_eq_ok, ensure_eq_ok] at h
    obtain ⟨stat, hstat, -, hreg, -⟩ := h
    exact ⟨stat, hstat, hreg⟩
  have hfile := (file_of_stat hg hdirent hstat hreg).1
  rw [writeFile_eq hg hdirent hstat hreg] at h
  simp only [bind_eq_ok, ensure_eq_ok] at h
  obtain ⟨⟨e₁, disk₁⟩, hens, -, hmax, disk₂, hw, h⟩ := h
  obtain ⟨spare, hst⟩ := ensureFirstCluster_started hg hs hens
  obtain ⟨hname, hcluster, -⟩ := entryAfter_spec hmax
  have hch := (hst.rewrite hg hs he hfile hname hcluster hw).1
  obtain ⟨hisChain, hchain₂⟩ := hst.isChain hg hs he hfile hname hcluster hw
  obtain ⟨ext, hwr⟩ := writeToClusterChain_ok hg hisChain h
  have hvalid : isInvalidClusterNum (entryAfter e₁ offset input.length).clusterNumber = false :=
    hcluster ▸ hst.valid
  rw [← chain_eq_cons _ hvalid, ← hchain₂] at hwr
  have hnd : ¬ (entryAfter e₁ offset input.length).IsDirectory := by
    rw [hname.isDirectory, hst.name.isDirectory]
    exact hfile
  exact ⟨e₁, disk₁, disk₂, ext, hfile, hens, hmax, ⟨spare, hst⟩, hw, hchain₂, h, hwr, hch,
    hch.written hs he hnd hfile hwr⟩

namespace WriteSteps

variable {ino offset : Nat} {input : List UInt8} {e₁ : Fat16DirectoryEntry} {ext : List Nat}
  (hw : WriteSteps vol disk disk' E ino offset input e₁ disk₁ disk₂ ext)
include hw

theorem valid : isInvalidClusterNum (entryAfter e₁ offset input.length).clusterNumber = false := by
  obtain ⟨spare, hst⟩ := hw.started
  rw [(entryAfter_spec hw.max).2.1]
  exact hst.valid

theorem nodeChain_eq : nodeChain vol (view vol disk') ino =
    nodeChain vol (view vol disk₂) ino ++ ext := by
  have hself : direntOf vol (view vol disk') ino = entryAfter e₁ offset input.length :=
    hw.changed.record
  have hgrown := hw.written.toGrown
  rw [hw.chain] at hgrown
  rw [hw.chain, Fat.nodeChain_eq, hself, hgrown.chain_eq_append hw.valid]

end WriteSteps

/-- **`write_file`** on the view of the disk. -/
theorem writeFile_changed (hg : Geometry vol) (hs : Sound vol (view vol disk) E []) {ino : Nat}
    (he : IsNode E ino) {offset : Nat} {input : List UInt8}
    (h : writeFile vol disk ino offset input = .ok disk') :
    ∃ r, NodeChanged vol (view vol disk) (view vol disk') E ino r ∧
      ¬ (direntOf vol (view vol disk) ino).IsDirectory ∧
      SameName (direntOf vol (view vol disk) ino) r ∧
      isInvalidClusterNum r.clusterNumber = false ∧
      r.fileSizeBytes = sizeAfter (direntOf vol (view vol disk) ino).fileSizeBytes offset
        input.length ∧
      (∀ i, i < capacity vol (nodeChain vol (view vol disk) ino) ∨
          offset ≤ i ∧ i < offset + input.length →
        nodeBytes vol (view vol disk') ino i =
          (nodeBytes vol (view vol disk) ino).write offset input i) ∧
      (input ≠ [] → offset + input.length < capacity vol (nodeChain vol (view vol disk') ino)) := by
  obtain ⟨e₁, disk₁, disk₂, ext, hsteps⟩ := writeFile_steps hg hs he h
  obtain ⟨spare, hst⟩ := hsteps.started
  obtain ⟨hname, hcluster, hsize⟩ := entryAfter_spec hsteps.max
  have hbytes := (hst.rewrite hg hs he hsteps.file hname hcluster hsteps.parent).2
  have hchain' := hsteps.nodeChain_eq
  have hcontent := hsteps.written.content_eq
  rw [← hchain'] at hcontent
  refine ⟨_, hsteps.changed, hsteps.file, hst.name.trans hname, hsteps.valid, ?_, ?_, ?_⟩
  · rw [hsize, hst.size]
    rfl
  · intro i hi
    rw [nodeBytes, hcontent, Mem.write, Mem.write]
    split
    · rfl
    · rename_i hout
      have hlt := hi.resolve_right hout
      have hpre : nodeChain vol (view vol disk) ino <+: nodeChain vol (view vol disk₂) ino :=
        hsteps.entry.chain
      have hle : capacity vol (nodeChain vol (view vol disk) ino) ≤
          capacity vol (nodeChain vol (view vol disk₂) ino) :=
        Nat.mul_le_mul_right _ hpre.length_le
      rw [← hbytes i hlt, hchain', nodeBytes]
      exact joined_append (Nat.lt_of_lt_of_le hlt hle)
  · intro hne
    rw [hchain']
    exact hsteps.written.lt_capacity hne

/-- **`write_file` fails only for want of clusters**, if the size can be stored. -/
theorem writeFile_error (hg : Geometry vol) (hs : Sound vol (view vol disk) E []) {ino : Nat}
    (he : IsNode E ino) {stat : Stat} (hstat : statFile vol disk ino = .ok stat)
    (hreg : sIsdir stat.stMode = false) {offset : Nat} {input : List UInt8}
    (hmax : u64 (offset + input.length) ≤ uint32Max) {e : Halt}
    (h : writeFile vol disk ino offset input = .error e) : e = .outOfClusters := by
  have hdirent := hs.hasDirent he
  have hfile := (file_of_stat hg hdirent hstat hreg).1
  rw [writeFile_eq hg hdirent hstat hreg] at h
  cases hens : ensureFirstCluster vol disk (direntOf vol (view vol disk) ino) with
  | error e' =>
    rw [hens, error_bind, Except.error.injEq] at h
    subst h
    rw [ensureFirstCluster] at hens
    split at hens
    · cases halloc : allocateCluster vol disk with
      | error e'' =>
        rw [halloc, error_bind, Except.error.injEq] at hens
        exact hens ▸ allocateCluster_error hg halloc
      | ok p =>
        rw [halloc] at hens
        cases hens
    · cases hens
  | ok p =>
    obtain ⟨e₁, disk₁⟩ := p
    obtain ⟨spare, hst⟩ := ensureFirstCluster_started hg hs hens
    obtain ⟨hname, hcluster, -⟩ := entryAfter_spec (e := e₁) (fun _ => hmax)
    rw [hens, ok_bind, ensure_of (fun _ => hmax), ok_bind] at h
    cases hw : writeParentDirent vol disk₁ ino (entryAfter e₁ offset input.length) with
    | error e' =>
      simp only [hw, error_bind, Except.error.injEq] at h
      exact h ▸ writeParentDirent_error hg (hst.sound.hasDirent he) hw
    | ok disk₂ =>
      simp only [hw, ok_bind] at h
      exact writeToClusterChain_error hg (hst.isChain hg hs he hfile hname hcluster hw).1 h

/-- **The steps of `ftruncate`**: a first cluster is there, nothing is filled up, and the entry is
written. -/
theorem ftruncate_steps (hg : Geometry vol) (hs : Sound vol (view vol disk) E []) {ino : Nat}
    (he : IsNode E ino) {len : Nat} (h : ftruncate vol disk ino len = .ok disk') :
    ¬ (direntOf vol (view vol disk) ino).IsDirectory ∧ len ≤ uint32Max ∧
      ∃ e₁ disk₁, ensureFirstCluster vol disk (direntOf vol (view vol disk) ino) = .ok (e₁, disk₁) ∧
        writeParentDirent vol disk₁ ino (e₁.withFileSizeBytes len) = .ok disk' := by
  have hdirent := hs.hasDirent he
  rw [ftruncate] at h
  simp only [bind_eq_ok, ensure_eq_ok] at h
  obtain ⟨stat, hstat, -, hreg, e, hread, ⟨e₁, disk₁⟩, hens, -, hlen, h⟩ := h
  have hfile := (file_of_stat hg hdirent hstat hreg).1
  rw [readParentDirent_ok hg hdirent, Except.ok.injEq] at hread
  subst hread
  have hsize : (e₁.withFileSizeBytes len).fileSizeBytes = len :=
    fileSizeBytes_withFileSizeBytes _ (by rw [uint32Max] at hlen; omega)
  -- the size is already the new one, so there are no zeroes to write
  simp only [hsize, Nat.sub_self, Nat.zero_mod, List.replicate_zero, le_refl, if_true] at h
  rw [bind_eq_ok] at h
  obtain ⟨disk₂, hzero, h⟩ := h
  have hsame : disk₂ = disk₁ := by
    rw [writeToClusterChain] at hzero
    simp only [bind_eq_ok, writeClusters, Except.ok.injEq] at hzero
    obtain ⟨-, -, -, -, hzero⟩ := hzero
    exact hzero.symm
  subst hsame
  exact ⟨hfile, hlen, e₁, disk₂, hens, h⟩

/-- **`ftruncate`** on the view of the disk: only the entry changes. -/
theorem ftruncate_changed (hg : Geometry vol) (hs : Sound vol (view vol disk) E []) {ino : Nat}
    (he : IsNode E ino) {len : Nat} (h : ftruncate vol disk ino len = .ok disk') :
    ∃ r, NodeChanged vol (view vol disk) (view vol disk') E ino r ∧
      ¬ (direntOf vol (view vol disk) ino).IsDirectory ∧
      SameName (direntOf vol (view vol disk) ino) r ∧
      isInvalidClusterNum r.clusterNumber = false ∧ r.fileSizeBytes = len := by
  obtain ⟨hfile, hlen, e₁, disk₁, hens, hw⟩ := ftruncate_steps hg hs he h
  obtain ⟨spare, hst⟩ := ensureFirstCluster_started hg hs hens
  have hname := sameName_withFileSizeBytes e₁ len
  obtain ⟨hch, -⟩ := hst.rewrite hg hs he hfile hname rfl hw
  rw [uint32Max] at hlen
  exact ⟨_, hch, hfile, hst.name.trans hname, hst.valid,
    fileSizeBytes_withFileSizeBytes _ (by omega)⟩

/-! ### Reading -/

theorem readFromClusterChain_zero (hg : Geometry vol) (disk : Mem) (c offset : Nat) :
    readFromClusterChain vol disk c offset 0 = .ok [] := by
  have hpos := hg.bytesPerCluster_pos
  rw [readFromClusterChain, ensure_of (by omega), ok_bind]
  rfl

theorem readFromClusterChain_valid {c offset n : Nat} {bytes : List UInt8} (hn : n ≠ 0)
    (h : readFromClusterChain vol disk c offset n = .ok bytes) : isInvalidClusterNum c = false := by
  rw [readFromClusterChain] at h
  simp only [hn, if_false, bind_eq_ok, ensure_eq_ok] at h
  obtain ⟨-, -, -, hv, -⟩ := h
  exact hv

/-- **What could be read along a chain** can be read along one that has the same bytes there. -/
theorem readFromClusterChain_mono (hg : Geometry vol) {c c' offset n : Nat} {bytes : List UInt8}
    (hc : IsChain vol (view vol disk) ((view vol disk).chain c))
    (hc' : IsChain vol (view vol disk') ((view vol disk').chain c'))
    (hvalid : isInvalidClusterNum c = false → isInvalidClusterNum c' = false)
    (hcap : capacity vol ((view vol disk).chain c) ≤ capacity vol ((view vol disk').chain c'))
    (hsame : offset + n ≤ capacity vol ((view vol disk).chain c) →
      ∀ i, offset ≤ i → i < offset + n → content vol (view vol disk') ((view vol disk').chain c') i =
        content vol (view vol disk) ((view vol disk).chain c) i)
    (h : readFromClusterChain vol disk c offset n = .ok bytes) :
    readFromClusterChain vol disk' c' offset n = .ok bytes := by
  by_cases hn : n = 0
  · subst hn
    rw [readFromClusterChain_zero hg] at h ⊢
    exact h
  · have hv := readFromClusterChain_valid hn h
    have hv' := hvalid hv
    rw [chain_eq_cons _ hv] at hc hcap hsame
    rw [chain_eq_cons _ hv'] at hc' hcap hsame
    have hin := readFromClusterChain_capacity hg hc (by omega) h
    rw [readFromClusterChain_ok hg hc hin, Except.ok.injEq] at h
    rw [readFromClusterChain_ok hg hc' (by omega), Except.ok.injEq, ← h]
    exact Mem.read_congr (hsame hin)

/-- How many bytes `read_file` reads of a file. -/
def readLength (size offset numBytes : Nat) : Nat :=
  if u64 (offset + numBytes) > size then u64 (size + 2 ^ 64 - offset) else numBytes

theorem readFile_eq (hg : Geometry vol) {ino : Nat} (hdirent : HasDirent vol (view vol disk) ino)
    {stat : Stat} (hstat : statFile vol disk ino = .ok stat) (hreg : sIsdir stat.stMode = false)
    (offset numBytes : Nat) :
    readFile vol disk ino offset numBytes =
      readFromClusterChain vol disk (direntOf vol (view vol disk) ino).clusterNumber offset
        (readLength (direntOf vol (view vol disk) ino).fileSizeBytes offset numBytes) := by
  rw [readFile, hstat, ok_bind, if_neg (by simp [hreg]), readParentDirent_ok hg hdirent, ok_bind]
  rfl

theorem readLength_of_le {size offset n : Nat} (h : offset + n ≤ size) (hs : size < 2 ^ 64) :
    readLength size offset n = n := by
  rw [readLength, u64_of_lt (by omega), if_neg (by omega)]

theorem clusterNumber_lt (e : Fat16DirectoryEntry) : e.clusterNumber < 2 ^ 16 := by
  have h0 := (e 26).toNat_lt
  have h1 := (e 27).toNat_lt
  rw [clusterNumber]
  omega

theorem fileSizeBytes_lt (e : Fat16DirectoryEntry) : e.fileSizeBytes < 2 ^ 32 := by
  have h0 := (e 28).toNat_lt
  have h1 := (e 29).toNat_lt
  have h2 := (e 30).toNat_lt
  have h3 := (e 31).toNat_lt
  rw [fileSizeBytes]
  omega

/-- **A read that starts in a file** returns its bytes up to the end. -/
theorem readFile_slice (hg : Geometry vol) (hs : Sound vol (view vol disk) E []) {ino : Nat}
    (he : IsNode E ino) {stat : Stat} (hstat : statFile vol disk ino = .ok stat)
    (hreg : sIsdir stat.stMode = false)
    (hcap : stat.stSize ≤ capacity vol (nodeChain vol (view vol disk) ino)) {offset n : Nat}
    (hoff : offset ≤ stat.stSize) (hn : offset + n < 2 ^ 64) :
    readFile vol disk ino offset n =
      .ok ((nodeBytes vol (view vol disk) ino).read offset (min n (stat.stSize - offset))) := by
  have hdirent := hs.hasDirent he
  have hsize := (file_of_stat hg hdirent hstat hreg).2
  have hlt := fileSizeBytes_lt (direntOf vol (view vol disk) ino)
  have hlen : readLength stat.stSize offset n = min n (stat.stSize - offset) := by
    rw [readLength, u64_of_lt hn]
    split
    · rw [u64_sub hoff (by omega)]
      omega
    · omega
  rw [readFile_eq hg hdirent hstat hreg, ← hsize, hlen, nodeBytes]
  by_cases hzero : min n (stat.stSize - offset) = 0
  · rw [hzero, readFromClusterChain_zero hg, Mem.read_zero]
  · have hchain : IsChain vol (view vol disk) (nodeChain vol (view vol disk) ino) := hs.chainOf he
    have hvalid : isInvalidClusterNum (direntOf vol (view vol disk) ino).clusterNumber = false := by
      by_contra hinv
      rw [Bool.not_eq_false] at hinv
      rw [nodeChain_eq, chain_of_invalid _ hinv, capacity, List.length_nil] at hcap
      omega
    rw [nodeChain_eq, chain_eq_cons _ hvalid] at hchain hcap ⊢
    exact readFromClusterChain_ok hg hchain (by omega)

/-! ### Listing -/

/-- The entries list the same name: only a file's first cluster and size may differ. -/
structure Alike (e e' : Fat16DirectoryEntry) : Prop where
  name : SameName e e'
  long : e.attributes = fileAttributesLfn → e' = e

theorem Alike.refl (e : Fat16DirectoryEntry) : Alike e e := ⟨fun _ _ => rfl, fun _ => rfl⟩

theorem Alike.trans {e e' e'' : Fat16DirectoryEntry} (h : Alike e e') (h' : Alike e' e'') :
    Alike e e'' := by
  refine ⟨fun i hi => (h'.name i hi).trans (h.name i hi), fun hl => ?_⟩
  obtain rfl := h.long hl
  exact h'.long hl

theorem readLongName_mono {es es' : List Fat16DirectoryEntry} {chars : List UInt8}
    (halike : List.Forall₂ Alike es es') (h : readLongName es = .ok chars) :
    readLongName es' = .ok chars := by
  induction halike generalizing chars with
  | nil => exact h
  | cons hab _ ih =>
    rw [readLongName] at h
    simp only [bind_eq_ok, ensure_eq_ok] at h
    obtain ⟨front, hfront, -, hzero, -, hattr, text, htext, h⟩ := h
    have heq := hab.long hattr
    rw [readLongName, ih hfront, ok_bind, heq, ensure_of hzero, ok_bind, ensure_of hattr, ok_bind,
      htext, ok_bind]
    exact h

theorem shortName_eq {e e' : Fat16DirectoryEntry} (h : SameName e e') :
    shortName e' = shortName e := by
  rw [shortName, shortName, h.filename]

/-- The two directories list the same: whatever can be read of the first one can be read of the
second one, and the entries are alike. -/
def ListsAlike (vol : Fat16Volume) (disk disk' : Mem) (d : Nat) : Prop :=
  ∀ i n bytes, i * 32 + n * 32 < 2 ^ 64 →
    readFromDirectory vol disk d (i * 32) (n * 32) = .ok bytes →
    ∃ bytes', readFromDirectory vol disk' d (i * 32) (n * 32) = .ok bytes' ∧
      ∀ j < n, Alike (.ofBytes (bytes.drop (32 * j))) (.ofBytes (bytes'.drop (32 * j)))

theorem readEntries_mono (h : ListsAlike vol disk disk' d) {i n : Nat}
    (hlt : i * 32 + n * 32 < 2 ^ 64) {es : List Fat16DirectoryEntry}
    (hes : readEntries vol disk d i n = .ok es) :
    ∃ es', readEntries vol disk' d i n = .ok es' ∧ List.Forall₂ Alike es es' := by
  rw [readEntries, bind_eq_ok] at hes
  obtain ⟨bytes, hread, hes⟩ := hes
  obtain ⟨bytes', hread', halike⟩ := h i n bytes hlt hread
  cases hes
  refine ⟨_, by rw [readEntries, hread', ok_bind]; rfl, ?_⟩
  rw [List.forall₂_map_left_iff, List.forall₂_map_right_iff]
  exact List.forall₂_same.mpr fun j hj => halike j (List.mem_range.mp hj)

/-- **The loop of `read_dirents`** on a directory that lists the same. -/
theorem readDirentsLoop_mono (h : ListsAlike vol disk disk' d) (fuel : Nat) :
    ∀ (i skip count : Nat) (fileName : Mem) (dirents : List Dirent), i + 64 * fuel < 2 ^ 50 →
    readDirentsLoop vol disk d fuel i skip count fileName = .ok dirents →
    readDirentsLoop vol disk' d fuel i skip count fileName = .ok dirents := by
  induction fuel with
  | zero => intro i skip count fileName dirents _ hl; simp [readDirentsLoop] at hl
  | succ fuel ih =>
    intro i skip count fileName dirents hlt hl
    rw [readDirentsLoop, bind_eq_ok] at hl
    obtain ⟨bytes, hread, hl⟩ := hl
    obtain ⟨bytes', hread', halike⟩ := h i 1 bytes (by omega) (by rw [Nat.one_mul]; exact hread)
    have hent := halike 0 Nat.one_pos
    rw [Nat.one_mul] at hread'
    rw [Nat.mul_zero, List.drop_zero, List.drop_zero] at hent
    rw [readDirentsLoop, hread', ok_bind]
    -- the entry that is looked at, on both sides
    generalize Fat16DirectoryEntry.ofBytes bytes = ent at hl hent
    generalize Fat16DirectoryEntry.ofBytes bytes' = ent' at hent
    simp only [hent.name.attributes, hent.name.firstByte]
    simp only [bind_eq_ok, ensure_eq_ok] at hl
    obtain ⟨-, hattr, hl⟩ := hl
    rw [ensure_of hattr, ok_bind]
    split at hl
    · rw [if_pos ‹_›]
      exact hl
    rw [if_neg ‹_›]
    split at hl
    · rw [if_pos ‹_›]
      exact ih i skip count fileName dirents (by omega) hl
    rw [if_neg ‹_›]
    split at hl
    · -- a long name
      rename_i hlfn
      rw [if_pos hlfn]
      have heq := hent.long hlfn
      subst heq
      simp only [bind_eq_ok, ensure_eq_ok] at hl
      obtain ⟨-, hempty, -, hcount, es, hes, chars, hchars, -, hlen, hl⟩ := hl
      have hseq : ent'.sequenceNumber < 64 := Nat.mod_lt _ (by decide)
      obtain ⟨es', hes', hal⟩ := readEntries_mono h (by omega) hes
      rw [ensure_of hempty, ok_bind, ensure_of hcount, ok_bind, hes', ok_bind,
        readLongName_mono hal hchars, ok_bind, ensure_of hlen, ok_bind]
      exact ih _ skip count _ dirents (by omega) hl
    · -- a file or a directory
      rename_i hshort
      rw [if_neg hshort]
      have hzero : ent'.zero = ent.zero := by
        rw [Fat16DirectoryEntry.zero, Fat16DirectoryEntry.zero, hent.name 20 (by decide),
          hent.name 21 (by decide)]
      simp only [bind_eq_ok, ensure_eq_ok] at hl
      obtain ⟨-, hz, hl⟩ := hl
      rw [hzero, ensure_of hz, ok_bind, shortName_eq hent.name]
      cases skip with
      | succ skip => exact ih _ skip count _ dirents (by omega) hl
      | zero =>
        cases count with
        | zero => exact hl
        | succ count =>
          simp only [bind_eq_ok] at hl ⊢
          obtain ⟨dIno, hino, dName, hname, rest, hrest, hl⟩ := hl
          exact ⟨dIno, hino, dName, hname, rest, ih _ 0 count _ rest (by omega) hrest, hl⟩

/-- The loop has few enough turns for its offsets. -/
theorem direntFuel_lt (hg : Geometry vol) : 64 * direntFuel vol < 2 ^ 50 := by
  have h1 := hg.bytesPerCluster_le
  have h2 := hg.dataStart_lt
  have h3 : vol.numberOfSectorsRootDirectory * vol.bytesPerSector = rootBytes vol := rfl
  rw [dataStart] at h2
  rw [direntFuel, h3]
  omega

/-- **A listing** of a directory that lists the same. -/
theorem readDirents_mono (hg : Geometry vol) {ino c : Nat} (h : ListsAlike vol disk disk' c)
    (hc : getParentClusterNum ino = iAmRootDir ∧ c = parentIsRootDir ∨
      getParentClusterNum ino ≠ iAmRootDir ∧ ∃ e e', readParentDirent vol disk ino = .ok e ∧
        readParentDirent vol disk' ino = .ok e' ∧ e.clusterNumber = c ∧ e'.clusterNumber = c)
    {direntIndex direntCount : Nat} {dirents : List Dirent}
    (hl : readDirents vol disk ino direntIndex direntCount = .ok dirents) :
    readDirents vol disk' ino direntIndex direntCount = .ok dirents := by
  have hfuel : 0 + 64 * direntFuel vol < 2 ^ 50 := by
    rw [Nat.zero_add]
    exact direntFuel_lt hg
  rw [readDirents] at hl ⊢
  rcases hc with ⟨hroot, rfl⟩ | ⟨hroot, e, e', he, he', rfl, heq⟩
  · rw [if_pos hroot, pure_eq_ok, ok_bind] at hl ⊢
    exact readDirentsLoop_mono h (direntFuel vol) 0 direntIndex direntCount _ dirents hfuel hl
  · rw [if_neg hroot] at hl ⊢
    rw [he] at hl
    rw [he']
    simp only [Except.map, ok_bind, heq] at hl ⊢
    exact readDirentsLoop_mono h (direntFuel vol) 0 direntIndex direntCount _ dirents hfuel hl

theorem ofBytes_drop_read (vol : Fat16Volume) (v : View) (d i n : Nat) {j : Nat} (hj : j < n) :
    Fat16DirectoryEntry.ofBytes (((dirBytes vol v d).read (i * 32) (n * 32)).drop (32 * j)) =
      record vol v d (i + j) := by
  funext x
  have hx := x.isLt
  rw [ofBytes, List.getD_eq_getElem?_getD, List.getElem?_drop, Mem.read_getElem?,
    if_pos (by omega), record, Option.getD_some]
  congr 1
  omega

/-- The directory keeps its entries, apart from first clusters and sizes. -/
structure RecordsAlike (vol : Fat16Volume) (v v' : View) (a : Nat) : Prop where
  inDir : ∀ m, InDir vol v a m → InDir vol v' a m
  record : ∀ j, InDir vol v a (j * 32 + 32) → Alike (record vol v a j) (record vol v' a j)

namespace RecordsAlike

variable {v v' v'' : View} {a : Nat}

theorem trans (h : RecordsAlike vol v v' a) (h' : RecordsAlike vol v' v'' a) :
    RecordsAlike vol v v'' a :=
  ⟨fun m hm => h'.inDir m (h.inDir m hm),
    fun j hj => (h.record j hj).trans (h'.record j (h.inDir _ hj))⟩

theorem of_sameDir (h : SameDir vol v v' a) : RecordsAlike vol v v' a :=
  ⟨fun m => (h.inDir m).mpr, fun j _ => by rw [h.record]; exact .refl _⟩

theorem of_siblings (hin : ∀ m, InDir vol v a m → InDir vol v' a m)
    (hrest : ∀ j, j ≠ k → InDir vol v a (j * 32 + 32) →
      Fat.record vol v' a j = Fat.record vol v a j)
    (hname : SameName (Fat.record vol v a k) (Fat.record vol v' a k))
    (hshort : (Fat.record vol v a k).attributes ≠ fileAttributesLfn) :
    RecordsAlike vol v v' a := by
  refine ⟨hin, fun j hj => ?_⟩
  by_cases hk : j = k
  · rw [hk]
    exact ⟨hname, fun hl => absurd hl hshort⟩
  · rw [hrest j hk hj]
    exact .refl _

theorem listsAlike (hg : Geometry vol) (h : RecordsAlike vol (view vol disk) (view vol disk') a)
    (hd : IsDir vol (view vol disk) a) (hd' : IsDir vol (view vol disk') a) :
    ListsAlike vol disk disk' a := by
  intro i n bytes hlt hread
  by_cases hn : n = 0
  · subst hn
    refine ⟨bytes, ?_, fun j hj => absurd hj (Nat.not_lt_zero j)⟩
    rw [Nat.zero_mul, readFromDirectory] at hread ⊢
    split at hread
    · rw [if_pos ‹_›]
      exact hread
    · rw [if_neg ‹_›]
      rw [readFromClusterChain_zero hg] at hread ⊢
      exact hread
  · have hin := readFromDirectory_inDir hg hd (by omega) hlt hread
    refine ⟨_, readFromDirectory_ok hg hd' (h.inDir _ hin), fun j hj => ?_⟩
    rw [readFromDirectory_ok hg hd hin, Except.ok.injEq] at hread
    rw [← hread, ofBytes_drop_read _ _ _ _ _ hj, ofBytes_drop_read _ _ _ _ _ hj]
    exact h.record _ (hin.mono (by omega))

end RecordsAlike

/-- **A changed file does not show in the listings.** -/
theorem Changed.listsAlike (hg : Geometry vol) {r : Fat16DirectoryEntry} {a : Nat}
    (hs : Sound vol (view vol disk) E [])
    (hc : Changed vol (view vol disk) (view vol disk') E d k r)
    (hfile : ¬ (Fat.record vol (view vol disk) d k).IsDirectory)
    (hname : SameName (Fat.record vol (view vol disk) d k) r)
    (hshort : (Fat.record vol (view vol disk) d k).attributes ≠ fileAttributesLfn)
    (ha : DirOf vol (view vol disk) E a) : ListsAlike vol disk disk' a := by
  have ha' : DirOf vol (view vol disk') E a := by
    refine ha.mono (fun _ _ h => h) fun p j hp hdir => ?_
    rw [hc.record_of_ne hs hp fun heq => by cases heq; exact hfile hdir]
    exact ⟨hdir, rfl⟩
  refine RecordsAlike.listsAlike hg ?_ (hs.isDir ha) (hc.sound.isDir ha')
  by_cases had : a = d
  · subst had
    exact .of_siblings hc.inDir hc.siblings (by rwa [hc.record]) hshort
  · exact .of_sameDir (hc.dirs a ha had)

/-! ### The law -/

theorem not_sIsdir_of_sIsreg {mode : Nat} (h : sIsreg mode = true) : sIsdir mode = false := by
  rw [sIsreg, beq_iff_eq] at h
  rw [sIsdir, h]
  decide

theorem Changed.statFile_self (hg : Geometry vol) (hs : Sound vol (view vol disk) E []) {ino : Nat}
    (he : IsNode E ino) {r : Fat16DirectoryEntry}
    (hc : NodeChanged vol (view vol disk) (view vol disk') E ino r)
    (hname : SameName (direntOf vol (view vol disk) ino) r) {stat : Stat}
    (hstat : statFile vol disk ino = .ok stat) :
    statFile vol disk' ino = .ok { stat with stSize := r.fileSizeBytes } := by
  have hself : direntOf vol (view vol disk') ino = r := hc.record
  rw [Fat.statFile_eq hg (hs.hasDirent he), bind_eq_ok] at hstat
  obtain ⟨mode, hmode, hstat⟩ := hstat
  cases hstat
  rw [Fat.statFile_eq hg (hc.sound.hasDirent he), hself, hname.attributes, hmode, ok_bind]

/-- **The file itself after `write_file`.** -/
theorem writeFile_reads (hg : Geometry vol) (hs : Sound vol (view vol disk) E []) {ino : Nat}
    (he : IsNode E ino) {stat : Stat} (hstat : statFile vol disk ino = .ok stat)
    (hreg : sIsdir stat.stMode = false) {offset : Nat} {data : List UInt8} (hne : data ≠ [])
    (hlen : offset + data.length ≤ uint32Max)
    (hw : writeFile vol disk ino offset data = .ok disk') :
    readFile vol disk' ino offset data.length = .ok data ∧
    (∀ o n bytes, o + n ≤ stat.stSize → o + n ≤ offset ∨ offset + data.length ≤ o →
      readFile vol disk ino o n = .ok bytes → readFile vol disk' ino o n = .ok bytes) ∧
    statFile vol disk' ino =
      .ok { stat with stSize := max stat.stSize (offset + data.length) } := by
  obtain ⟨r, hc, hfile, hname, hvalid, hsize, hbytes, hcap⟩ := writeFile_changed hg hs he hw
  have hdirent := hs.hasDirent he
  have hdirent' := hc.sound.hasDirent he
  have hself : direntOf vol (view vol disk') ino = r := hc.record
  have hchain' : nodeChain vol (view vol disk') ino = (view vol disk').chain r.clusterNumber := by
    rw [nodeChain_eq, hself]
  have hisChain' : IsChain vol (view vol disk') ((view vol disk').chain r.clusterNumber) := by
    rw [← hchain']
    exact hc.sound.chainOf he
  have hmax : sizeAfter (direntOf vol (view vol disk) ino).fileSizeBytes offset data.length =
      max (direntOf vol (view vol disk) ino).fileSizeBytes (offset + data.length) := by
    rw [uint32Max] at hlen
    rw [sizeAfter, u64_of_lt (by omega)]
    split <;> omega
  rw [hmax] at hsize
  have hlt := fileSizeBytes_lt r
  have hsz := (file_of_stat hg hdirent hstat hreg).2
  have hstat' : statFile vol disk' ino =
      .ok { stat with stSize := max stat.stSize (offset + data.length) } := by
    rw [hc.statFile_self hg hs he hname hstat, hsize, hsz]
  refine ⟨?_, ?_, hstat'⟩
  · rw [readFile_eq hg hdirent' hstat' hreg, hself, readLength_of_le (by omega) (by omega)]
    have hroom := hcap hne
    rw [hchain', chain_eq_cons _ hvalid] at hroom
    rw [chain_eq_cons _ hvalid] at hisChain'
    rw [readFromClusterChain_ok hg hisChain' (by omega), ← chain_eq_cons _ hvalid, ← hchain',
      Except.ok.injEq]
    have hread : (nodeBytes vol (view vol disk') ino).read offset data.length =
        ((nodeBytes vol (view vol disk) ino).write offset data).read offset data.length :=
      Mem.read_congr fun i h1 h2 => hbytes i (.inr ⟨h1, h2⟩)
    exact hread.trans (Mem.read_write_self _ _ _)
  · intro o n bytes hon hout hread
    rw [hsz] at hon
    rw [readFile_eq hg hdirent hstat hreg, readLength_of_le hon (by omega)] at hread
    rw [readFile_eq hg hdirent' hstat' hreg, hself, readLength_of_le (by omega) (by omega)]
    have hold : IsChain vol (view vol disk)
        ((view vol disk).chain (direntOf vol (view vol disk) ino).clusterNumber) := hs.chainOf he
    have hpre : nodeChain vol (view vol disk) ino <+: nodeChain vol (view vol disk') ino := hc.chain
    refine readFromClusterChain_mono hg hold hisChain' (fun _ => hvalid) ?_ ?_ hread
    · rw [← hchain']
      exact Nat.mul_le_mul_right _ hpre.length_le
    · intro hin i h1 h2
      have hb := hbytes i (.inl (Nat.lt_of_lt_of_le h2 hin))
      rw [Mem.write, if_neg (by omega)] at hb
      rw [← hchain']
      exact hb

section

variable (hg : Geometry vol) (hs : Sound vol (view vol disk) E []) {ino ino' : Nat}
  {r : Fat16DirectoryEntry} (hc : NodeChanged vol (view vol disk) (view vol disk') E ino r)
include hg hs hc

theorem Changed.statFile_eq (he' : IsNode E ino')
    (hne : (getParentClusterNum ino', getDirentIndexInParent ino') ≠
      (getParentClusterNum ino, getDirentIndexInParent ino)) :
    statFile vol disk' ino' = statFile vol disk ino' := by
  have hrec : direntOf vol (view vol disk') ino' = direntOf vol (view vol disk) ino' :=
    hc.record_of_ne hs he' hne
  rw [Fat.statFile_eq hg (hc.sound.hasDirent he'), Fat.statFile_eq hg (hs.hasDirent he'), hrec]

theorem Changed.readFile_eq (he' : IsNode E ino')
    (hne : (getParentClusterNum ino', getDirentIndexInParent ino') ≠
      (getParentClusterNum ino, getDirentIndexInParent ino)) {stat' : Stat}
    (hstat : statFile vol disk ino' = .ok stat') (hreg : sIsdir stat'.stMode = false)
    {o n : Nat} {bytes : List UInt8} (hread : readFile vol disk ino' o n = .ok bytes) :
    readFile vol disk' ino' o n = .ok bytes := by
  have hrec : direntOf vol (view vol disk') ino' = direntOf vol (view vol disk) ino' :=
    hc.record_of_ne hs he' hne
  have hfile := (file_of_stat hg (hs.hasDirent he') hstat hreg).1
  have hf : SameFile vol (view vol disk) (view vol disk')
      (direntOf vol (view vol disk) ino').clusterNumber := hc.files _ _ he' hne hfile
  have hold : IsChain vol (view vol disk)
      ((view vol disk).chain (direntOf vol (view vol disk) ino').clusterNumber) := hs.chainOf he'
  have hstat' := hc.statFile_eq hg hs he' hne
  rw [hstat] at hstat'
  rw [Fat.readFile_eq hg (hs.hasDirent he') hstat hreg] at hread
  rw [Fat.readFile_eq hg (hc.sound.hasDirent he') hstat' hreg, hrec]
  refine readFromClusterChain_mono hg hold ?_ (fun h => h) ?_ ?_ hread
  · have := hc.sound.chainOf he'
    rw [chainOf, hc.record_of_ne hs he' hne] at this
    exact this
  · rw [hf.chain]
  · intro _ i _ _
    rw [hf.chain, hf.content]

theorem Changed.readDirents_eq
    (hfile : ¬ (direntOf vol (view vol disk) ino).IsDirectory)
    (hname : SameName (direntOf vol (view vol disk) ino) r)
    (hshort : (direntOf vol (view vol disk) ino).attributes ≠ fileAttributesLfn)
    (hdir : getParentClusterNum ino' = iAmRootDir ∨
      IsNode E ino' ∧ (direntOf vol (view vol disk) ino').IsDirectory)
    {index count : Nat} {dirents : List Dirent}
    (hl : readDirents vol disk ino' index count = .ok dirents) :
    readDirents vol disk' ino' index count = .ok dirents := by
  have halike := fun {a : Nat} => hc.listsAlike hg hs hfile hname hshort (a := a)
  rcases hdir with hroot | ⟨he', hdir⟩
  · exact readDirents_mono hg (halike (.inl rfl)) (.inl ⟨hroot, rfl⟩) hl
  · have hne : (getParentClusterNum ino', getDirentIndexInParent ino') ≠
        (getParentClusterNum ino, getDirentIndexInParent ino) := by
      intro heq
      rw [Prod.mk.injEq] at heq
      rw [direntOf, heq.1, heq.2] at hdir
      exact hfile hdir
    have hrec : direntOf vol (view vol disk') ino' = direntOf vol (view vol disk) ino' :=
      hc.record_of_ne hs he' hne
    refine readDirents_mono hg (halike (.inr ⟨_, _, he', hdir, rfl⟩)) (.inr ⟨?_, ?_⟩) hl
    · exact (hs.hasDirent he').isDir.ne_iAmRootDir
    · exact ⟨_, _, readParentDirent_ok hg (hs.hasDirent he'),
        readParentDirent_ok hg (hc.sound.hasDirent he'), rfl, congrArg _ hrec⟩

end

/-- A directory that can be listed: the root, or a node. -/
def IsListable (vol : Fat16Volume) (v : View) (ino : Nat) : Prop :=
  getParentClusterNum ino = iAmRootDir ∨
    IsNode (Entry vol v) ino ∧ (direntOf vol v ino).IsDirectory

/-- **`write_file`, then `read_file`.**  Writing non-empty data inside a file or at its end runs
out of clusters, or it returns and then: the data is read back; what could be read of the file
up to its old size, apart from the data, is read as before; the size is the larger one of the
old size and the end of the data; other nodes have the same size, mode and bytes; and every
directory is listed as before. -/
theorem write_file_law (hg : Geometry vol) (hwf : WellFormed vol (view vol disk)) {ino : Nat}
    (he : IsNode (Entry vol (view vol disk)) ino) {stat : Stat}
    (hstat : statFile vol disk ino = .ok stat) (hreg : sIsreg stat.stMode = true) {offset : Nat}
    {data : List UInt8} (hne : data ≠ []) (hlen : offset + data.length ≤ uint32Max) :
    writeFile vol disk ino offset data = .error .outOfClusters ∨
    ∃ disk', writeFile vol disk ino offset data = .ok disk' ∧
      readFile vol disk' ino offset data.length = .ok data ∧
      (∀ o n bytes, o + n ≤ stat.stSize → o + n ≤ offset ∨ offset + data.length ≤ o →
        readFile vol disk ino o n = .ok bytes → readFile vol disk' ino o n = .ok bytes) ∧
      statFile vol disk' ino =
        .ok { stat with stSize := max stat.stSize (offset + data.length) } ∧
      (∀ ino' stat', IsNode (Entry vol (view vol disk)) ino' →
        (getParentClusterNum ino', getDirentIndexInParent ino') ≠
          (getParentClusterNum ino, getDirentIndexInParent ino) →
        statFile vol disk ino' = .ok stat' → statFile vol disk' ino' = .ok stat' ∧
          (sIsreg stat'.stMode = true → ∀ o n bytes,
            readFile vol disk ino' o n = .ok bytes → readFile vol disk' ino' o n = .ok bytes)) ∧
      ∀ ino' index count dirents, IsListable vol (view vol disk) ino' →
        readDirents vol disk ino' index count = .ok dirents →
        readDirents vol disk' ino' index count = .ok dirents := by
  have hs := hwf.sound
  have hnd := not_sIsdir_of_sIsreg hreg
  have hu : u64 (offset + data.length) = offset + data.length := by
    rw [uint32Max] at hlen
    exact u64_of_lt (by omega)
  cases hw : writeFile vol disk ino offset data with
  | error e => exact .inl (congrArg _ (writeFile_error hg hs he hstat hnd (by rw [hu]; exact hlen) hw))
  | ok disk' =>
    obtain ⟨r, hc, hfile, hname, -⟩ := writeFile_changed hg hs he hw
    have hshort : (direntOf vol (view vol disk) ino).attributes ≠ fileAttributesLfn :=
      he.listed.names.1
    obtain ⟨hread, hrest, hstat'⟩ := writeFile_reads hg hs he hstat hnd hne hlen hw
    refine .inr ⟨disk', rfl, hread, hrest, hstat', ?_, ?_⟩
    · intro ino' stat' he' hne' hst
      refine ⟨(hc.statFile_eq hg hs he' hne').trans hst, fun hreg' o n bytes hrd => ?_⟩
      exact hc.readFile_eq hg hs he' hne' hst (not_sIsdir_of_sIsreg hreg') hrd
    · intro ino' index count dirents hdir hl
      exact hc.readDirents_eq hg hs hfile hname hshort hdir hl

/-! ### The volume with two files -/

/-- The two entries, and the end behind them. -/
theorem twoFatsDisk_records :
    (record twoFats (view twoFats twoFatsDisk.disk) 0 2).firstByte = 0 ∧
      (record twoFats (view twoFats twoFatsDisk.disk) 0 0).clusterNumber = 2 ∧
      ∀ k < 2, (record twoFats (view twoFats twoFatsDisk.disk) 0 k).firstByte ≠ 0 ∧
        (record twoFats (view twoFats twoFatsDisk.disk) 0 k).Names ∧
        ¬ (record twoFats (view twoFats twoFatsDisk.disk) 0 k).IsDirectory := by
  decide +kernel

theorem twoFatsDisk_listed {k : Nat} (hl : Listed twoFats (view twoFats twoFatsDisk.disk) 0 k) :
    k < 2 := by
  by_contra hk
  exact hl.before 2 (by omega) twoFatsDisk_records.1

theorem twoFatsDisk_file : ∀ k < 2,
    ¬ (record twoFats (view twoFats twoFatsDisk.disk) 0 k).IsDirectory :=
  fun k hk => (twoFatsDisk_records.2.2 k hk).2.2

theorem twoFatsDisk_stat :
    statFile twoFats twoFatsDisk.disk 0 = .ok { stIno := 0, stMode := sIfreg, stSize := 1024 } ∧
      statFile twoFats twoFatsDisk.disk 65536 =
        .ok { stIno := 65536, stMode := sIfreg, stSize := 0 } := by
  decide +kernel

theorem twoFatsDisk_reach {d : Nat} (h : Reach twoFats (view twoFats twoFatsDisk.disk) d) :
    d = parentIsRootDir := by
  induction h with
  | root => rfl
  | sub _ hl hdir ih =>
    subst ih
    exact absurd hdir (twoFatsDisk_file _ (twoFatsDisk_listed hl))

theorem twoFatsDisk_entry {d k : Nat} (he : Entry twoFats (view twoFats twoFatsDisk.disk) d k) :
    d = 0 ∧ k < 2 := by
  obtain rfl : d = 0 := twoFatsDisk_reach he.reach
  exact ⟨rfl, twoFatsDisk_listed he.listed⟩

theorem twoFatsDisk_wellFormed : WellFormed twoFats (view twoFats twoFatsDisk.disk) := by
  have hchain : IsChain twoFats (view twoFats twoFatsDisk.disk) [2, 3] := by
    refine ⟨by decide, ?_, ?_, trivial⟩ <;> decide +kernel
  have hA : chainOf twoFats (view twoFats twoFatsDisk.disk) 0 0 = [2, 3] := by
    rw [chainOf, twoFatsDisk_records.2.1, hchain.chain_eq]
  have hB : chainOf twoFats (view twoFats twoFatsDisk.disk) 0 1 = [] := by
    decide +kernel
  refine .of_one_chain hchain hA (fun hdir => absurd hdir (twoFatsDisk_file 0 (by decide))) ?_
  intro d k he
  obtain ⟨rfl, hk⟩ := twoFatsDisk_entry he
  rcases Nat.lt_or_ge k 1 with h1 | h1
  · obtain rfl : k = 0 := by omega
    exact .inl rfl
  · obtain rfl : k = 1 := by omega
    exact .inr ⟨hB, twoFatsDisk_file 1 hk⟩

theorem twoFatsDisk_entry_of_lt {k : Nat} (hk : k < 2) :
    Entry twoFats (view twoFats twoFatsDisk.disk) 0 k := by
  refine ⟨.root, ?_, fun j hj => (twoFatsDisk_records.2.2 j (by omega)).1,
    (twoFatsDisk_records.2.2 k hk).2.1⟩
  show k * 32 + 32 < rootBytes twoFats
  exact Nat.lt_of_le_of_lt (show k * 32 + 32 ≤ 64 by omega) (by decide)

theorem twoFatsDisk_isNode : IsNode (Entry twoFats (view twoFats twoFatsDisk.disk)) 0 :=
  twoFatsDisk_entry_of_lt (k := 0) (by decide)

theorem twoFatsDisk_emptyFile : IsNode (Entry twoFats (view twoFats twoFatsDisk.disk)) 65536 :=
  twoFatsDisk_entry_of_lt (k := 1) (by decide)

/-- Three bytes across the end of the first cluster of `A` are read back. -/
theorem write_file_law_across_clusters :
    ∃ disk', writeFile twoFats twoFatsDisk.disk 0 511 [1, 2, 3] = .ok disk' ∧
      readFile twoFats disk' 0 511 3 = .ok [1, 2, 3] := by
  have hok : (writeFile twoFats twoFatsDisk.disk 0 511 [1, 2, 3]).isOk = true := by
    decide +kernel
  have hne : ([1, 2, 3] : List UInt8) ≠ [] := by decide
  have hlen : 511 + ([1, 2, 3] : List UInt8).length ≤ uint32Max := by decide
  rcases write_file_law twoFats_geometry twoFatsDisk_wellFormed twoFatsDisk_isNode
    twoFatsDisk_stat.1 (by decide) hne hlen with h | ⟨disk', h, hread, -⟩
  · rw [h] at hok
    cases hok
  · exact ⟨disk', h, hread⟩

end Stuos.Fs.Fat
