import Stuos.Fs.Fat.Allocation
import Stuos.Fs.Fat.Writing

/-!
# Which clusters a file gets

`write_file` takes free clusters three times: a first cluster for a file that has none
(`firstNeed`), one for the parent directory if the entry of the file lies in its last cluster
(`direntNeed`), and the clusters that the data comes past (`dataNeed`).  The free clusters are
taken in their order, and their old bytes are left in them.

* `entry_takes`: the first cluster is there and the entry is written.
* `writeFile_takes`, `writeFile_enough`: the clusters and the bytes of the file after
  `write_file`, which returns exactly if enough clusters are free.
* `write_file_allocates_iff`, `holes_zero_iff`, `ftruncate_content_iff`: when the number of
  clusters, the bytes of a gap and the bytes after `ftruncate` are what they should be.
-/

namespace Stuos.Fs.Fat

open Stuos.Lib
open Fat16DirectoryEntry

variable {vol : Fat16Volume} {disk disk' disk₁ disk₂ : Mem} {v : View} {E : Nat → Nat → Prop}
  {ino : Nat}

section

variable (vol : Fat16Volume) (v : View) (ino : Nat)

/-- The clusters that a file gets to have a first one. -/
def firstNeed : Nat := if isInvalidClusterNum (direntOf vol v ino).clusterNumber then 1 else 0

/-- The clusters that the parent directory gets when the entry of the file is written. -/
def direntNeed : Nat :=
  if getParentClusterNum ino = parentIsRootDir then 0
  else turns vol (getDirentIndexInParent ino * 32) 32 -
    ((v.chain (getParentClusterNum ino)).length - 1)

/-- The clusters that the file gets for its data. -/
def dataNeed (offset len : Nat) : Nat :=
  turns vol offset len - ((nodeChain vol v ino).length + firstNeed vol v ino - 1)

/-- The clusters of the file when it has a first one. -/
def startChain : List Nat :=
  nodeChain vol v ino ++ (freeClusters vol v).take (firstNeed vol v ino)

end

theorem length_startChain (h : firstNeed vol v ino ≤ (freeClusters vol v).length) :
    (startChain vol v ino).length = (nodeChain vol v ino).length + firstNeed vol v ino := by
  rw [startChain, List.length_append, List.length_take, Nat.min_eq_left h]

theorem Allocates.of_ok {l : List Nat} {m : Nat} {r : Except Halt Mem} (h : Allocates vol v l m r)
    (hr : r = .ok disk') : m ≤ (freeClusters vol v).length ∧
      Grown vol v (view vol disk') l ((freeClusters vol v).take m) := by
  rcases Nat.lt_or_ge (freeClusters vol v).length m with hlt | hle
  · rw [h.short hlt] at hr
    cases hr
  · obtain ⟨disk₁, hok, hgrown⟩ := h.enough hle
    cases hok.symm.trans hr
    exact ⟨hle, hgrown⟩

/-! ### The first cluster -/

/-- **The first cluster of a file** is the first free one. -/
theorem ensureFirstCluster_free (disk : Mem) (hg : Geometry vol) (ino : Nat) :
    (firstNeed vol (view vol disk) ino ≤ (freeClusters vol (view vol disk)).length →
      ∃ p, ensureFirstCluster vol disk (direntOf vol (view vol disk) ino) = .ok p) ∧
    ∀ e₁ disk₁, ensureFirstCluster vol disk (direntOf vol (view vol disk) ino) = .ok (e₁, disk₁) →
      firstNeed vol (view vol disk) ino ≤ (freeClusters vol (view vol disk)).length ∧
      freeClusters vol (view vol disk₁) =
        (freeClusters vol (view vol disk)).drop (firstNeed vol (view vol disk) ino) ∧
      (view vol disk₁).chain e₁.clusterNumber = startChain vol (view vol disk) ino ∧
      (view vol disk₁).data = (view vol disk).data := by
  rw [ensureFirstCluster, startChain, firstNeed, nodeChain_eq]
  split
  · rename_i hinv
    rw [chain_of_invalid _ hinv, List.nil_append]
    obtain ⟨hnone, hsome⟩ := allocateCluster_free disk hg
    cases hfree : freeClusters vol (view vol disk) with
    | nil =>
      rw [hnone hfree]
      refine ⟨fun h => ?_, fun _ _ h => by cases h⟩
      simp at h
    | cons fresh rest =>
      obtain ⟨disk', halloc⟩ := hsome fresh rest hfree
      rw [halloc]
      refine ⟨fun _ => ⟨_, rfl⟩, fun e₁ disk₁ h => ?_⟩
      cases h
      have ha := allocateCluster_ok hg halloc
      have hlt := ha.inRange.lt
      have hgrown : Grown vol (view vol disk) (view vol disk') []
          ((freeClusters vol (view vol disk)).take 1) := by
        rw [hfree]
        exact ha.touched.toGrown
      have hdrop := hgrown.freeClusters_drop (.nil _ _)
      rw [hfree] at hdrop
      rw [clusterNumber_withClusterNumber _ (by omega), ha.chain_eq]
      refine ⟨by simp, hdrop, rfl, ?_⟩
      rw [ha.eq]
      rfl
  · refine ⟨fun _ => ⟨_, rfl⟩, fun e₁ disk₁ h => ?_⟩
    cases h
    simp

/-! ### The entry -/

theorem writeParentDirent_allocates (hg : Geometry vol) (h : HasDirent vol (view vol disk) ino)
    (value : Fat16DirectoryEntry) :
    Allocates vol (view vol disk) ((view vol disk).chain (getParentClusterNum ino))
      (direntNeed vol (view vol disk) ino) (writeParentDirent vol disk ino value) := by
  have hlen := value.length_toBytes
  rw [writeParentDirent, ensure_of h.isDir.ne_iAmRootDir, ok_bind, writeToDirectory, direntNeed]
  split
  · rename_i hroot
    have hin := h.inDir
    rw [InDir, if_pos hroot] at hin
    have hok := checkRootDir_eq hg (k := getDirentIndexInParent ino) (n := 1) (by
      have := h.inDir.lt hg h.isDir
      omega)
    rw [Nat.one_mul, ensure_of hin] at hok
    rw [hroot, chain_root, writeToRootDir, hlen, hok, ok_bind, u64_rootStart hg (by omega),
      pure_eq_ok]
    have hfat : (view vol (disk.write (rootStart vol + getDirentIndexInParent ino * 32)
        value.toBytes)).fat = (view vol disk).fat := by
      rw [view_writeRoot hg (by omega)]
      rfl
    exact Allocates.congr hfat (.refl (.nil _ _) rfl)
  · rename_i hroot
    obtain ⟨hvalid, hc⟩ := h.isDir.resolve_left hroot
    rw [chain_eq_cons _ hvalid] at hc ⊢
    have hall := writeToClusterChain_allocates hg hc (getDirentIndexInParent ino * 32) value.toBytes
    rw [hlen] at hall
    rw [List.length_cons, Nat.add_sub_cancel]
    exact hall

theorem writeParentDirent_data (hg : Geometry vol) (h : HasDirent vol (view vol disk) ino)
    {value : Fat16DirectoryEntry} (hw : writeParentDirent vol disk ino value = .ok disk') {c : Nat}
    (hc : c ∉ (view vol disk').chain (getParentClusterNum ino)) :
    (view vol disk').data c = (view vol disk).data c := by
  obtain ⟨ext, hdw⟩ := writeParentDirent_ok hg h hw
  rcases h.isDir with hroot | ⟨hvalid, -⟩
  · have hin := h.inDir
    rw [InDir, if_pos hroot] at hin
    rw [writeParentDirent, ensure_of h.isDir.ne_iAmRootDir, ok_bind, writeToDirectory, if_pos hroot,
      writeToRootDir, bind_eq_ok] at hw
    obtain ⟨-, -, hw⟩ := hw
    rw [u64_rootStart hg (by omega), pure_eq_ok, Except.ok.injEq] at hw
    rw [← hw, view_writeRoot hg (by have := value.length_toBytes; omega)]
    rfl
  · rw [hdw.grown.chain_eq_append hvalid, List.mem_append, not_or] at hc
    exact hdw.data c hc.1 hc.2

section

variable (hg : Geometry vol) (hs : Sound vol (view vol disk) E []) (he : IsNode E ino)
  (hfile : ¬ (direntOf vol (view vol disk) ino).IsDirectory) {e₁ r : Fat16DirectoryEntry}
  (hens : ensureFirstCluster vol disk (direntOf vol (view vol disk) ino) = .ok (e₁, disk₁))
include hg hs he hens

theorem direntNeed_started : HasDirent vol (view vol disk₁) ino ∧
    direntNeed vol (view vol disk₁) ino = direntNeed vol (view vol disk) ino := by
  obtain ⟨spare, hst⟩ := ensureFirstCluster_started hg hs hens
  refine ⟨hst.sound.hasDirent he, ?_⟩
  rw [direntNeed, direntNeed, (hst.dirs _ (hs.parent _ _ he)).chain]

include hfile

/-- **The first cluster is there and the entry is written.** -/
theorem entry_takes (hr : SameName e₁ r) (hc : r.clusterNumber = e₁.clusterNumber)
    (hw : writeParentDirent vol disk₁ ino r = .ok disk₂) :
    firstNeed vol (view vol disk) ino + direntNeed vol (view vol disk) ino ≤
        (freeClusters vol (view vol disk)).length ∧
      freeClusters vol (view vol disk₂) = (freeClusters vol (view vol disk)).drop
        (firstNeed vol (view vol disk) ino + direntNeed vol (view vol disk) ino) ∧
      nodeChain vol (view vol disk₂) ino = startChain vol (view vol disk) ino ∧
      ∀ ext, (∀ c ∈ ext, isFreeClusterNum ((view vol disk₂).fat c) = true) →
        content vol (view vol disk₂) (startChain vol (view vol disk) ino ++ ext) =
          content vol (view vol disk) (startChain vol (view vol disk) ino ++ ext) := by
  obtain ⟨hle, hfree, hchain, hdata⟩ := (ensureFirstCluster_free disk hg ino).2 e₁ disk₁ hens
  obtain ⟨hdirent, hneed⟩ := direntNeed_started hg hs he hens
  obtain ⟨spare, hst⟩ := ensureFirstCluster_started hg hs hens
  obtain ⟨hle', hgrown⟩ := (writeParentDirent_allocates hg hdirent r).of_ok hw
  have hfree' := hgrown.freeClusters_drop hdirent.isDir.isChain
  rw [hneed, hfree, List.length_drop] at hle'
  rw [hneed, hfree, List.drop_drop] at hfree'
  obtain ⟨hch, hsame⟩ := hst.of_rewrite hg hs he hfile hr hc hw
  have hself : direntOf vol (view vol disk₂) ino = r := hch.record
  have hchain₂ : nodeChain vol (view vol disk₂) ino = startChain vol (view vol disk) ino := by
    rw [nodeChain_eq, hself, hsame.chain, hc, hchain]
  refine ⟨by omega, hfree', hchain₂, fun ext hext => ?_⟩
  -- the file and the free clusters are apart from the directory
  have hdir := hch.sound.parent _ _ he
  have hnd : ¬ r.IsDirectory := by
    rw [hr.isDirectory, hst.name.isDirectory]
    exact hfile
  have hdisj : ((view vol disk₂).chain (getParentClusterNum ino)).Disjoint
      (nodeChain vol (view vol disk₂) ino) := by
    refine hch.sound.dir_disjoint hdir (o := some (_, _)) he fun p j heq hdir' => ?_
    cases heq
    rw [hch.record] at hdir'
    exact absurd hdir' hnd
  apply joined_congr
  intro c hmem j _
  rw [writeParentDirent_data hg hdirent hw, hdata]
  intro hcd
  rcases List.mem_append.mp hmem with hmem | hmem
  · rw [hchain₂] at hdisj
    exact hdisj hcd hmem
  · have hnot := (hch.sound.isDir hdir).isChain.not_free c hcd
    rw [hext c hmem] at hnot
    exact absurd hnot (by decide)

end

/-! ### The data -/

section

variable (hg : Geometry vol) (hs : Sound vol (view vol disk) E []) (he : IsNode E ino)
  {offset : Nat} {input : List UInt8}
include hg hs he

/-- **What `write_file` has taken** when it returns, and what the file holds then. -/
theorem writeFile_takes (h : writeFile vol disk ino offset input = .ok disk') :
    firstNeed vol (view vol disk) ino + direntNeed vol (view vol disk) ino +
        dataNeed vol (view vol disk) ino offset input.length ≤
      (freeClusters vol (view vol disk)).length ∧
    nodeChain vol (view vol disk') ino = startChain vol (view vol disk) ino ++
      ((freeClusters vol (view vol disk)).drop
        (firstNeed vol (view vol disk) ino + direntNeed vol (view vol disk) ino)).take
        (dataNeed vol (view vol disk) ino offset input.length) ∧
    nodeBytes vol (view vol disk') ino =
      (content vol (view vol disk) (nodeChain vol (view vol disk') ino)).write offset input := by
  obtain ⟨e₁, disk₁, disk₂, ext, hsteps⟩ := writeFile_steps hg hs he h
  obtain ⟨hname, hcluster, -⟩ := entryAfter_spec hsteps.max
  obtain ⟨hle, hfree, hchain, hcontent⟩ :=
    entry_takes hg hs he hsteps.file hsteps.first hname hcluster hsteps.parent
  have hisChain : IsChain vol (view vol disk₂) (nodeChain vol (view vol disk₂) ino) :=
    hsteps.entry.sound.chainOf he
  have hcons := hsteps.chain
  rw [chain_eq_cons _ hsteps.valid] at hcons
  have hall := writeToClusterChain_allocates hg (hcons ▸ hisChain) offset input
  obtain ⟨hle', hgrown⟩ := hall.of_ok hsteps.data
  have hlen := congrArg List.length hcons
  rw [hchain, length_startChain (by omega), List.length_cons] at hlen
  rw [hfree, List.length_drop] at hle'
  have hneed : dataNeed vol (view vol disk) ino offset input.length = turns vol offset input.length -
      ((view vol disk₂).chain (entryAfter e₁ offset input.length).clusterNumber).tail.length := by
    rw [dataNeed, hlen, Nat.add_sub_cancel]
  rw [← hneed] at hle' hgrown
  rw [hfree] at hgrown
  have hself : direntOf vol (view vol disk') ino = entryAfter e₁ offset input.length :=
    hsteps.changed.record
  have hchain' : nodeChain vol (view vol disk') ino = startChain vol (view vol disk) ino ++
      ((freeClusters vol (view vol disk)).drop
        (firstNeed vol (view vol disk) ino + direntNeed vol (view vol disk) ino)).take
        (dataNeed vol (view vol disk) ino offset input.length) := by
    rw [nodeChain_eq, hself, ← hchain, hcons]
    exact hgrown.chain.chain_eq
  refine ⟨by omega, hchain', ?_⟩
  have hext : ext = ((freeClusters vol (view vol disk)).drop
      (firstNeed vol (view vol disk) ino + direntNeed vol (view vol disk) ino)).take
      (dataNeed vol (view vol disk) ino offset input.length) := by
    have heq := hsteps.nodeChain_eq
    rw [hchain', hchain] at heq
    exact (List.append_cancel_left heq).symm
  have hwritten := hsteps.written.content_eq
  rw [hchain, hcontent ext hsteps.written.fresh, hext, ← hchain'] at hwritten
  exact hwritten

/-- **Enough free clusters are enough.** -/
theorem writeFile_enough {stat : Stat} (hstat : statFile vol disk ino = .ok stat)
    (hreg : sIsdir stat.stMode = false) (hmax : u64 (offset + input.length) ≤ uint32Max)
    (h : firstNeed vol (view vol disk) ino + direntNeed vol (view vol disk) ino +
        dataNeed vol (view vol disk) ino offset input.length ≤
      (freeClusters vol (view vol disk)).length) :
    ∃ disk', writeFile vol disk ino offset input = .ok disk' := by
  have hdirent := hs.hasDirent he
  have hfile := (file_of_stat hg hdirent hstat hreg).1
  obtain ⟨⟨e₁, disk₁⟩, hens⟩ := (ensureFirstCluster_free disk hg ino).1 (by omega)
  obtain ⟨hle, hfree, -, -⟩ := (ensureFirstCluster_free disk hg ino).2 e₁ disk₁ hens
  obtain ⟨hdirent₁, hneed⟩ := direntNeed_started hg hs he hens
  obtain ⟨hname, hcluster, -⟩ := entryAfter_spec (e := e₁) (fun _ => hmax)
  obtain ⟨disk₂, hw, -⟩ := (writeParentDirent_allocates hg hdirent₁
    (entryAfter e₁ offset input.length)).enough (by rw [hneed, hfree, List.length_drop]; omega)
  obtain ⟨spare, hst⟩ := ensureFirstCluster_started hg hs hens
  obtain ⟨-, hfree₂, hchain, -⟩ := entry_takes hg hs he hfile hens hname hcluster hw
  obtain ⟨hisChain, hchain₂⟩ := hst.isChain hg hs he hfile hname hcluster hw
  have hlen := congrArg List.length (hchain.symm.trans hchain₂)
  rw [length_startChain (by omega), chain_eq_cons _ (hcluster ▸ hst.valid),
    List.length_cons] at hlen
  obtain ⟨disk', hdata, -⟩ := (writeToClusterChain_allocates hg hisChain offset input).enough (by
    rw [hfree₂, List.length_drop]
    rw [dataNeed, hlen, Nat.add_sub_cancel] at h
    omega)
  refine ⟨disk', ?_⟩
  rw [writeFile_eq hg hdirent hstat hreg, hens, ok_bind, ensure_of (fun _ => hmax), ok_bind]
  simp only [hw, ok_bind]
  exact hdata

end

/-- **What `ftruncate` has taken** when it returns, and what the file holds then. -/
theorem ftruncate_takes (hg : Geometry vol) (hs : Sound vol (view vol disk) E []) (he : IsNode E ino)
    {len : Nat} (h : ftruncate vol disk ino len = .ok disk') :
    nodeChain vol (view vol disk') ino = startChain vol (view vol disk) ino ∧
      nodeBytes vol (view vol disk') ino =
        content vol (view vol disk) (startChain vol (view vol disk) ino) := by
  obtain ⟨hfile, -, e₁, disk₁, hens, hw⟩ := ftruncate_steps hg hs he h
  obtain ⟨-, -, hchain, hcontent⟩ :=
    entry_takes hg hs he hfile hens (sameName_withFileSizeBytes e₁ len) rfl hw
  have hnil := hcontent [] (by simp)
  rw [List.append_nil] at hnil
  exact ⟨hchain, by rw [nodeBytes, hchain, hnil]⟩

/-! ### How many clusters there are -/

theorem length_add_freeClusters_le (hg : Geometry vol) {l : List Nat} (hl : IsChain vol v l) :
    l.length + (freeClusters vol v).length ≤ 0xFFF7 := by
  have hnodup : (l ++ freeClusters vol v).Nodup := by
    rw [List.nodup_append']
    refine ⟨hl.nodup, nodup_freeClusters vol v, fun c hc hfree => ?_⟩
    have h1 := hl.not_free c hc
    have h2 := (List.mem_filter.mp hfree).2
    rw [h1] at h2
    cases h2
  have hsub : l ++ freeClusters vol v ⊆ List.range 0xFFF7 := by
    intro c hc
    rw [List.mem_range]
    rcases List.mem_append.mp hc with hc | hc
    · exact (hl.inRange c hc).lt
    · obtain ⟨h1, h2⟩ := List.mem_range'_1.mp (List.mem_filter.mp hc).1
      have hle : numClusters vol ≤ 0xFFF7 := (numClusters_le hg).trans (min_le_left _ _)
      omega
  have hle := (List.subperm_of_subset hnodup hsub).length_le
  rwa [List.length_append, List.length_range] at hle

/-- The clusters that `n` bytes need. -/
def clustersFor (vol : Fat16Volume) (n : Nat) : Nat :=
  (n + bytesPerCluster vol - 1) / bytesPerCluster vol

theorem turns_eq (hg : Geometry vol) (offset : Nat) {len : Nat} (h : len ≠ 0) :
    turns vol offset len = clustersFor vol (offset + len) := by
  have hpos := hg.bytesPerCluster_pos
  rw [turns, if_neg h, clustersFor, show offset + len + bytesPerCluster vol - 1 =
    offset + len - 1 + bytesPerCluster vol by omega, Nat.add_div_right _ hpos]

theorem le_clustersFor_mul (hg : Geometry vol) (n : Nat) :
    n ≤ clustersFor vol n * bytesPerCluster vol := by
  have hpos := hg.bytesPerCluster_pos
  have hdiv := Nat.div_add_mod (n + bytesPerCluster vol - 1) (bytesPerCluster vol)
  have hlt := Nat.mod_lt (n + bytesPerCluster vol - 1) hpos
  rw [clustersFor, Nat.mul_comm]
  omega

/-- An entry outside the last cluster of its directory can be written without a new one. -/
theorem direntNeed_le (hg : Geometry vol) (h : HasDirent vol v ino) :
    direntNeed vol v ino ≤ 1 ∧ (direntNeed vol v ino = 0 ↔
      Inner vol v (getParentClusterNum ino) (getDirentIndexInParent ino)) := by
  have hpos := hg.bytesPerCluster_pos
  rw [direntNeed, Inner]
  split
  · rename_i hroot
    simp [hroot]
  · rename_i hroot
    have hin := h.inDir
    rw [InDir, if_neg hroot, capacity] at hin
    have hlt : getDirentIndexInParent ino * 32 / bytesPerCluster vol <
        (v.chain (getParentClusterNum ino)).length := by
      rw [Nat.div_lt_iff_lt_mul hpos]
      omega
    rw [turns_entry hg]
    generalize getDirentIndexInParent ino * 32 / bytesPerCluster vol = n at hlt ⊢
    refine ⟨by omega, fun h => .inr (by omega), fun h => ?_⟩
    have := h.resolve_left hroot
    omega

theorem firstNeed_eq (vol : Fat16Volume) (v : View) (ino : Nat) :
    (nodeChain vol v ino).length + firstNeed vol v ino = max 1 (nodeChain vol v ino).length := by
  rw [firstNeed, nodeChain_eq]
  split
  · rename_i hinv
    rw [chain_of_invalid _ hinv]
    rfl
  · rename_i hvalid
    rw [chain_eq_cons _ (by simpa using hvalid), List.length_cons]
    omega

/-- **A write takes what it needs**: in the end the file has its clusters up to the last byte, and
the write returns if the table has so many more free entries. -/
structure TakesNeeded (vol : Fat16Volume) (disk : Mem) (ino offset : Nat) (data : List UInt8) :
    Prop where
  clusters : ∀ disk', writeFile vol disk ino offset data = .ok disk' →
    (nodeChain vol (view vol disk') ino).length =
      max (max 1 (nodeChain vol (view vol disk) ino).length)
        (clustersFor vol (offset + data.length))
  returns : max (max 1 (nodeChain vol (view vol disk) ino).length)
        (clustersFor vol (offset + data.length)) - (nodeChain vol (view vol disk) ino).length ≤
      (freeEntries vol (view vol disk)).length →
    ∃ disk', writeFile vol disk ino offset data = .ok disk'

section

variable (hg : Geometry vol) (hwf : WellFormed vol (view vol disk))
  (he : IsNode (Entry vol (view vol disk)) ino) {stat : Stat}
  (hstat : statFile vol disk ino = .ok stat) (hreg : sIsreg stat.stMode = true) {offset : Nat}
  {data : List UInt8}
include hg hwf he

/-- A write that returns stays below the largest size. -/
theorem writeFile_lt (hne : data ≠ []) (hw : writeFile vol disk ino offset data = .ok disk') :
    offset + data.length ≤ uint32Max := by
  obtain ⟨r, hc, -, -, -, -, -, hcap⟩ := writeFile_changed hg hwf.sound he hw
  have hchain : IsChain vol (view vol disk') (nodeChain vol (view vol disk') ino) :=
    hc.sound.chainOf he
  have hlt := capacity_lt hg hchain.length_le
  have := hcap hne
  rw [uint32Max]
  omega

include hstat hreg

/-- **When `write_file` returns.** -/
theorem writeFile_ok_iff (hne : data ≠ []) :
    (∃ disk', writeFile vol disk ino offset data = .ok disk') ↔
      firstNeed vol (view vol disk) ino + direntNeed vol (view vol disk) ino +
          dataNeed vol (view vol disk) ino offset data.length ≤
        (freeClusters vol (view vol disk)).length := by
  constructor
  · rintro ⟨disk', hw⟩
    exact (writeFile_takes hg hwf.sound he hw).1
  · intro h
    refine writeFile_enough hg hwf.sound he hstat (not_sIsdir_of_sIsreg hreg) ?_ h
    -- so many clusters have no more bytes than a size can say
    have hchain : IsChain vol (view vol disk) (nodeChain vol (view vol disk) ino) :=
      hwf.sound.chainOf he
    have hle := length_add_freeClusters_le hg hchain
    have hlen : data.length ≠ 0 := fun h0 => hne (List.length_eq_zero_iff.mp h0)
    rw [dataNeed, turns_eq hg _ hlen] at h
    have hbytes := le_clustersFor_mul hg (offset + data.length)
    have hmul : clustersFor vol (offset + data.length) * bytesPerCluster vol ≤ 0xFFF7 * 65536 :=
      Nat.mul_le_mul (by omega) hg.bytesPerCluster_le
    rw [u64_of_lt (by omega), uint32Max]
    omega

/-- **When a write takes what it needs.**  It still looks for the cluster behind its last byte, and
so does the write of the entry: both must be there already, or the search must find one for the
directory beside the first one of the file.  With too few free entries nothing is promised. -/
theorem write_file_allocates_iff (hne : data ≠ []) :
    TakesNeeded vol disk ino offset data ↔
      clustersFor vol (offset + data.length) < max 1 (nodeChain vol (view vol disk) ino).length ∧
        (firstNeed vol (view vol disk) ino ≤ (freeClusters vol (view vol disk)).length ∧
            (Inner vol (view vol disk) (getParentClusterNum ino) (getDirentIndexInParent ino) ∨
              firstNeed vol (view vol disk) ino ≠ (freeClusters vol (view vol disk)).length) ∨
          (freeEntries vol (view vol disk)).length < firstNeed vol (view vol disk) ino) ∨
      max 1 (nodeChain vol (view vol disk) ino).length ≤ clustersFor vol (offset + data.length) ∧
        (freeEntries vol (view vol disk)).length < clustersFor vol (offset + data.length) -
          (nodeChain vol (view vol disk) ino).length := by
  have hfound := length_freeClusters_le hg (view vol disk)
  have hiff : (∃ disk', writeFile vol disk ino offset data = .ok disk') ↔ _ :=
    writeFile_ok_iff hg hwf he hstat hreg hne
  have hlen : data.length ≠ 0 := fun h0 => hne (List.length_eq_zero_iff.mp h0)
  have hfirst := firstNeed_eq vol (view vol disk) ino
  obtain ⟨hone, hinner⟩ := direntNeed_le hg (hwf.sound.hasDirent he)
  have hneed := turns_eq hg offset hlen
  -- the clusters in the end
  have hclusters : ∀ disk', writeFile vol disk ino offset data = .ok disk' →
      (nodeChain vol (view vol disk') ino).length = max 1 (nodeChain vol (view vol disk) ino).length +
        dataNeed vol (view vol disk) ino offset data.length := by
    intro disk' hw
    obtain ⟨hle, hchain, -⟩ := writeFile_takes hg hwf.sound he hw
    rw [hchain, List.length_append, length_startChain (by omega), hfirst, List.length_take,
      List.length_drop, Nat.min_eq_left (by omega)]
  rw [dataNeed, hneed, hfirst] at hiff hclusters
  rw [← hinner]
  constructor
  · rintro ⟨hc, hr⟩
    rw [hiff] at hr
    by_cases hok : ∃ disk', writeFile vol disk ino offset data = .ok disk'
    · obtain ⟨disk', hw⟩ := hok
      have h1 := hc disk' hw
      rw [hclusters disk' hw] at h1
      have h2 := hiff.mp ⟨disk', hw⟩
      omega
    · rw [hiff] at hok
      omega
  · intro hcond
    refine ⟨fun disk' hw => ?_, fun h => hiff.mpr (by omega)⟩
    rw [hclusters disk' hw]
    have h2 := hiff.mp ⟨disk', hw⟩
    omega

/-! ### Gaps -/

/-- **When a gap reads as zero.**  Nobody clears the clusters that are taken: the gap must be zero
already, in the last clusters of the file and in the free clusters that it gets. -/
theorem holes_zero_iff (hgap : stat.stSize < offset) (hne : data ≠ [])
    (hw : writeFile vol disk ino offset data = .ok disk') :
    (∀ i, stat.stSize ≤ i → i < offset → readFile vol disk' ino i 1 = .ok [0]) ↔
      ∀ i, stat.stSize ≤ i → i < offset → content vol (view vol disk)
        (startChain vol (view vol disk) ino ++ (freeClusters vol (view vol disk)).drop
          (firstNeed vol (view vol disk) ino + direntNeed vol (view vol disk) ino)) i = 0 := by
  have hs := hwf.sound
  have hnd := not_sIsdir_of_sIsreg hreg
  have hmax := writeFile_lt hg hwf he hne hw
  obtain ⟨r, hc, -, -, -, -, -, hroom⟩ := writeFile_changed hg hs he hw
  obtain ⟨-, -, hstat'⟩ := writeFile_reads hg hs he hstat hnd hne hmax hw
  obtain ⟨-, hchain, hbytes⟩ := writeFile_takes hg hs he hw
  have hcap := hroom hne
  rw [uint32Max] at hmax
  -- a byte in front of the data is the one that was there
  have hread : ∀ i, i < offset → readFile vol disk' ino i 1 =
      .ok [content vol (view vol disk) (startChain vol (view vol disk) ino ++
        (freeClusters vol (view vol disk)).drop
          (firstNeed vol (view vol disk) ino + direntNeed vol (view vol disk) ino)) i] := by
    intro i hi
    have hpre : nodeChain vol (view vol disk') ino <+: startChain vol (view vol disk) ino ++
        (freeClusters vol (view vol disk)).drop
          (firstNeed vol (view vol disk) ino + direntNeed vol (view vol disk) ino) := by
      rw [hchain, List.prefix_append_right_inj]
      exact List.take_prefix _ _
    obtain ⟨more, hmore⟩ := hpre
    have hone : min 1 (max stat.stSize (offset + data.length) - i) = 1 := by omega
    rw [readFile_slice hg hc.sound he hstat' hnd (by simp only; omega) (by simp only; omega)
      (by omega), hbytes, ← hmore]
    simp only [hone]
    rw [Mem.read, List.range_one, List.map_singleton, Nat.add_zero, Mem.write_of_lt _ _ hi]
    exact congrArg (fun b => Except.ok [b]) (joined_append (by rw [capacity] at hcap; omega)).symm
  constructor
  · intro h i h1 h2
    have hzero := h i h1 h2
    rw [hread i h2, Except.ok.injEq, List.cons.injEq] at hzero
    exact hzero.1
  · intro h i h1 h2
    rw [hread i h2, h i h1 h2]

/-- **When a file reads as cut off or filled up** after `ftruncate`.  The size is set before it is
compared, so no zeros are written and no cluster is taken for them: a longer file must lie in the
clusters it has, and these must hold zeros behind the old end. -/
theorem ftruncate_content_iff
    (hcap : stat.stSize ≤ capacity vol (nodeChain vol (view vol disk) ino)) {len : Nat}
    (h : ftruncate vol disk ino len = .ok disk') :
    (∀ n, len ≤ n → n < 2 ^ 64 → readFile vol disk' ino 0 n =
        .ok (((nodeBytes vol (view vol disk) ino).read 0 stat.stSize).take len ++
          List.replicate (len - stat.stSize) 0)) ↔
      ∀ i, stat.stSize ≤ i → i < len → i < capacity vol (startChain vol (view vol disk) ino) ∧
        content vol (view vol disk) (startChain vol (view vol disk) ino) i = 0 := by
  have hs := hwf.sound
  have hnd := not_sIsdir_of_sIsreg hreg
  obtain ⟨-, hmax, -⟩ := ftruncate_steps hg hs he h
  obtain ⟨r, hc, -, hname, hvalid, hsize⟩ := ftruncate_changed hg hs he h
  obtain ⟨hchain, hbytes⟩ := ftruncate_takes hg hs he h
  have hstat' := hc.statFile_self hg hs he hname hstat
  rw [hsize] at hstat'
  rw [uint32Max] at hmax
  have hold : ∀ i < stat.stSize, content vol (view vol disk) (startChain vol (view vol disk) ino) i =
      nodeBytes vol (view vol disk) ino i :=
    fun i hi => joined_append (Nat.lt_of_lt_of_le hi hcap)
  have hstart : capacity vol (nodeChain vol (view vol disk) ino) ≤
      capacity vol (startChain vol (view vol disk) ino) := by
    rw [startChain, capacity_append]
    omega
  -- what is read if the file lies within its clusters
  have hread : len ≤ capacity vol (startChain vol (view vol disk) ino) → ∀ n, len ≤ n → n < 2 ^ 64 →
      readFile vol disk' ino 0 n = .ok ((content vol (view vol disk)
        (startChain vol (view vol disk) ino)).read 0 len) := by
    intro hlen n hn hlt
    rw [readFile_slice hg hc.sound he hstat' hnd (by rw [hchain]; exact hlen) (Nat.zero_le _)
      (by omega), hbytes, Nat.sub_zero, Nat.min_eq_right hn]
  have hzeros := Mem.read_eq_take_append_replicate len hold
  constructor
  · intro hall
    have hlen : len ≤ capacity vol (startChain vol (view vol disk) ino) := by
      rcases Nat.eq_zero_or_pos len with rfl | hpos
      · exact Nat.zero_le _
      have hok := hall len (le_refl len) (by omega)
      rw [readFile_eq hg (hc.sound.hasDirent he) hstat' hnd] at hok
      have hself : direntOf vol (view vol disk') ino = r := hc.record
      rw [hself, hsize, readLength_of_le (by omega) (by omega)] at hok
      have hisChain : IsChain vol (view vol disk') (nodeChain vol (view vol disk') ino) :=
        hc.sound.chainOf he
      rw [nodeChain_eq, hself, chain_eq_cons _ hvalid] at hisChain hchain
      have hle := readFromClusterChain_capacity hg hisChain hpos hok
      rwa [hchain, Nat.zero_add] at hle
    have hok := hall len (le_refl len) (by omega)
    rw [hread hlen len (le_refl len) (by omega), Except.ok.injEq, hzeros] at hok
    exact fun i h1 h2 => ⟨by omega, hok i h1 h2⟩
  · intro hzero n hn hlt
    have hlen : len ≤ capacity vol (startChain vol (view vol disk) ino) := by
      by_cases hle : len ≤ stat.stSize
      · omega
      · have := (hzero (len - 1) (by omega) (by omega)).1
        omega
    rw [hread hlen n hn hlt, Except.ok.injEq, hzeros]
    exact fun i h1 h2 => (hzero i h1 h2).2

end

/-! ### A volume with old bytes in a free cluster -/

/-- The byte that another system has left in cluster 4. -/
def staleDisk : Mem := twoFatsDisk.disk.write (clusterAddress twoFats 4 0) [0xAA]

theorem view_staleDisk : ∃ m, view twoFats staleDisk =
    (view twoFats twoFatsDisk.disk).setData 4 m :=
  ⟨_, view_writeCluster _ twoFats_geometry (by decide) (by decide)⟩

theorem staleDisk_wellFormed : WellFormed twoFats (view twoFats staleDisk) := by
  obtain ⟨m, hview⟩ := view_staleDisk
  rw [hview]
  refine twoFatsDisk_wellFormed.congr (View.setData_fat _ _ _) fun d hr => ?_
  rw [twoFatsDisk_reach hr]
  refine ⟨(chain_root _).trans (chain_root _).symm, ?_⟩
  rw [dirBytes, if_pos rfl, dirBytes, if_pos rfl, View.setData_root]

theorem staleDisk_emptyFile :
    IsNode (Entry twoFats (view twoFats staleDisk)) 65536 ∧
      statFile twoFats staleDisk 65536 = .ok { stIno := 65536, stMode := sIfreg, stSize := 0 } := by
  have hrecords : (∀ j ≤ 1, (record twoFats (view twoFats staleDisk) 0 j).firstByte ≠ 0) ∧
      (record twoFats (view twoFats staleDisk) 0 1).Names ∧
      statFile twoFats staleDisk 65536 =
        .ok { stIno := 65536, stMode := sIfreg, stSize := 0 } := by
    decide +kernel
  refine ⟨⟨.root, ?_, hrecords.1, hrecords.2.1⟩, hrecords.2.2⟩
  unfold InDir
  decide

/-- What is read in `B` after a call that gives it cluster 4, and how long `A` becomes. -/
theorem staleDisk_calls :
    ((writeFile twoFats staleDisk 65536 1 [7] >>= fun disk' => readFile twoFats disk' 65536 0 1) =
        .ok [0xAA] ∧
      (ftruncate twoFats staleDisk 65536 1 >>= fun disk' => readFile twoFats disk' 65536 0 1) =
        .ok [0xAA] ∧
      (ftruncate twoFats staleDisk 65536 513).map
        (fun disk' => readFile twoFats disk' 65536 0 513) = .ok (.error .hcf)) ∧
    (writeFile twoFats twoFatsDisk.disk 0 1023 [7]).map
        (fun disk' => (nodeChain twoFats (view twoFats disk') 0).length) = .ok 3 ∧
      (writeFile twoFats twoFatsDisk.disk 65536 1 [7]).isOk = true ∧
      (ftruncate twoFats twoFatsDisk.disk 65536 1).isOk = true := by
  decide +kernel

/-- The clusters of `A`, and those that `B` gets. -/
theorem twoFatsDisk_clusters :
    (nodeChain twoFats (view twoFats twoFatsDisk.disk) 0).length = 2 ∧
      firstNeed twoFats (view twoFats twoFatsDisk.disk) 0 ≤
        (freeClusters twoFats (view twoFats twoFatsDisk.disk)).length ∧
      0 < capacity twoFats (startChain twoFats (view twoFats twoFatsDisk.disk) 65536) ∧
      content twoFats (view twoFats twoFatsDisk.disk)
        (startChain twoFats (view twoFats twoFatsDisk.disk) 65536) 0 = 0 ∧
      content twoFats (view twoFats twoFatsDisk.disk)
        (startChain twoFats (view twoFats twoFatsDisk.disk) 65536 ++
          (freeClusters twoFats (view twoFats twoFatsDisk.disk)).drop
            (firstNeed twoFats (view twoFats twoFatsDisk.disk) 65536 +
              direntNeed twoFats (view twoFats twoFatsDisk.disk) 65536)) 0 = 0 := by
  decide +kernel

/-- One byte at the start of `A`, which has two clusters. -/
theorem write_file_allocates_inside : TakesNeeded twoFats twoFatsDisk.disk 0 0 [1] := by
  refine (write_file_allocates_iff twoFats_geometry twoFatsDisk_wellFormed twoFatsDisk_isNode
    twoFatsDisk_stat.1 (by decide) (by decide)).mpr (.inl ⟨?_, .inl ⟨?_, .inl (.inl rfl)⟩⟩)
  · rw [twoFatsDisk_clusters.1]
    decide
  · exact twoFatsDisk_clusters.2.1

/-- The last byte of `A` is written, and `A` gets a third cluster. -/
theorem write_file_takes_one_more :
    WellFormed twoFats (view twoFats twoFatsDisk.disk) ∧
      IsNode (Entry twoFats (view twoFats twoFatsDisk.disk)) 0 ∧
      statFile twoFats twoFatsDisk.disk 0 = .ok { stIno := 0, stMode := sIfreg, stSize := 1024 } ∧
      ¬ TakesNeeded twoFats twoFatsDisk.disk 0 1023 [7] := by
  refine ⟨twoFatsDisk_wellFormed, twoFatsDisk_isNode, twoFatsDisk_stat.1, fun h => ?_⟩
  obtain ⟨disk', hw, hlen⟩ := map_eq_ok.mp staleDisk_calls.2.1
  have hclusters := h.clusters disk' hw
  rw [hlen, twoFatsDisk_clusters.1] at hclusters
  exact absurd hclusters (by decide)

/-- The first byte of `B` is a gap, and cluster 4 holds a zero there. -/
theorem holes_zero_on_clear_disk :
    ∃ disk', writeFile twoFats twoFatsDisk.disk 65536 1 [7] = .ok disk' ∧
      ∀ i, 0 ≤ i → i < 1 → readFile twoFats disk' 65536 i 1 = .ok [0] := by
  obtain ⟨disk', hw⟩ := exists_of_isOk staleDisk_calls.2.2.1
  refine ⟨disk', hw, (holes_zero_iff twoFats_geometry twoFatsDisk_wellFormed twoFatsDisk_emptyFile
    twoFatsDisk_stat.2 (by decide) (by decide) (by decide) hw).mpr ?_⟩
  intro i _ hi
  obtain rfl : i = 0 := by omega
  exact twoFatsDisk_clusters.2.2.2.2

/-- With the old byte in cluster 4, it is read in the gap. -/
theorem hole_shows_old_byte :
    WellFormed twoFats (view twoFats staleDisk) ∧
      IsNode (Entry twoFats (view twoFats staleDisk)) 65536 ∧
      statFile twoFats staleDisk 65536 = .ok { stIno := 65536, stMode := sIfreg, stSize := 0 } ∧
      ∃ disk', writeFile twoFats staleDisk 65536 1 [7] = .ok disk' ∧
        readFile twoFats disk' 65536 0 1 = .ok [0xAA] ∧
        ¬ ∀ i, 0 ≤ i → i < 1 → readFile twoFats disk' 65536 i 1 = .ok [0] := by
  refine ⟨staleDisk_wellFormed, staleDisk_emptyFile.1, staleDisk_emptyFile.2, ?_⟩
  obtain ⟨disk', hw, hread⟩ := bind_eq_ok.mp staleDisk_calls.1.1
  refine ⟨disk', hw, hread, fun h => ?_⟩
  have hzero := h 0 (le_refl 0) (by decide)
  rw [hread] at hzero
  exact absurd hzero (by decide)

/-- The empty file `B` gets a length of one byte. -/
theorem ftruncate_content_clear_disk :
    ∃ disk', ftruncate twoFats twoFatsDisk.disk 65536 1 = .ok disk' ∧
      ∀ n, 1 ≤ n → n < 2 ^ 64 → readFile twoFats disk' 65536 0 n = .ok [0] := by
  obtain ⟨disk', hw⟩ := exists_of_isOk staleDisk_calls.2.2.2
  refine ⟨disk', hw, (ftruncate_content_iff twoFats_geometry twoFatsDisk_wellFormed
    twoFatsDisk_emptyFile twoFatsDisk_stat.2 (by decide) (Nat.zero_le _) hw).mpr ?_⟩
  intro i _ hi
  obtain rfl : i = 0 := by omega
  exact ⟨twoFatsDisk_clusters.2.2.1, twoFatsDisk_clusters.2.2.2.1⟩

/-- With the old byte in cluster 4, that is the content; and a length of 513 bytes is more than the
one cluster that the file gets. -/
theorem ftruncate_shows_old_byte :
    WellFormed twoFats (view twoFats staleDisk) ∧
      IsNode (Entry twoFats (view twoFats staleDisk)) 65536 ∧
      statFile twoFats staleDisk 65536 = .ok { stIno := 65536, stMode := sIfreg, stSize := 0 } ∧
      (∃ disk', ftruncate twoFats staleDisk 65536 1 = .ok disk' ∧
        readFile twoFats disk' 65536 0 1 = .ok [0xAA] ∧
        readFile twoFats disk' 65536 0 1 ≠ .ok [0]) ∧
      ∃ disk', ftruncate twoFats staleDisk 65536 513 = .ok disk' ∧
        readFile twoFats disk' 65536 0 513 = .error .hcf := by
  refine ⟨staleDisk_wellFormed, staleDisk_emptyFile.1, staleDisk_emptyFile.2, ?_,
    map_eq_ok.mp staleDisk_calls.1.2.2⟩
  obtain ⟨disk', hw, hread⟩ := bind_eq_ok.mp staleDisk_calls.1.2.1
  refine ⟨disk', hw, hread, ?_⟩
  rw [hread]
  decide

end Stuos.Fs.Fat
