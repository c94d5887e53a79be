import Stuos.Fs.Fat.Writing

/-!
# Creating files and directories

`create_inode` makes the entries of the new node, allocates the first cluster of a new
directory, and puts the entries over the end of the parent.  A parent that is not the root
directory gets its new size first, through its own parent.

* `newNodeChain_ok`: the clusters of the new node.
* `insertEntries_root`, `insertEntries_node`: where the entries go.
* `createInode_ok`: the whole call, as an `Appended` step.
-/

namespace Stuos.Fs.Fat

open Stuos.Lib Fat16DirectoryEntry

variable {vol : Fat16Volume} {disk disk' : Mem} {E : Nat → Nat → Prop} {spare : List Nat}
  {n : Nat}

/-! ### The entries of a long name -/

theorem length_writeChars (m : Nat) (name : List UInt8) : (writeChars m name).length = m := by
  induction m generalizing name with
  | zero => rfl
  | succ m ih =>
    cases name with
    | nil => rw [writeChars, List.length_cons, List.length_replicate]
    | cons c name => rw [writeChars, List.length_cons, ih]

theorem lfnEntry_fields (q : Nat) (last : Bool) (sum : UInt8) {chars : List Nat}
    (h : chars.length = charsPerLfn) :
    (lfnEntry q last sum chars).attributes = fileAttributesLfn ∧
    (lfnEntry q last sum chars).zeroA = 0 ∧ (lfnEntry q last sum chars).zeroB = 0 ∧
    (lfnEntry q last sum chars).firstByte =
      UInt8.ofNat (q % 64 + if last then 64 else 0) :=
  match chars, h with
  | [_, _, _, _, _, _, _, _, _, _, _, _, _], _ => ⟨rfl, rfl, rfl, rfl⟩

def lowByte (c : Nat) : UInt8 := UInt8.ofNat c

def highByte (c : Nat) : UInt8 := UInt8.ofNat (c / 256)

theorem lowByte_add_highByte {c : Nat} (h : c < 2 ^ 16) :
    (lowByte c).toNat + 256 * (highByte c).toNat = c := by
  have hb : ∀ k, (UInt8.ofNat k).toNat = k % 256 := fun k => UInt8.toNat_ofNat
  rw [lowByte, highByte, hb, hb]
  omega

theorem lfnEntry_eq (q : Nat) (last : Bool) (sum : UInt8) (a b c d e f g h i j k l m : Nat) :
    lfnEntry q last sum [a, b, c, d, e, f, g, h, i, j, k, l, m] =
      .ofBytes [UInt8.ofNat (q % 64 + if last then 64 else 0), lowByte a, highByte a, lowByte b,
        highByte b, lowByte c, highByte c, lowByte d, highByte d, lowByte e, highByte e,
        fileAttributesLfn, 0, sum, lowByte f, highByte f, lowByte g, highByte g, lowByte h,
        highByte h, lowByte i, highByte i, lowByte j, highByte j, lowByte k, highByte k, 0, 0,
        lowByte l, highByte l, lowByte m, highByte m] := rfl

theorem lfnEntry_unicodeName (q : Nat) (last : Bool) (sum : UInt8) {chars : List Nat}
    (h : chars.length = charsPerLfn) (hlt : ∀ c ∈ chars, c < 2 ^ 16) :
    (lfnEntry q last sum chars).unicodeName = chars := by
  have hwords : (lfnEntry q last sum chars).unicodeName =
      chars.map fun c => (lowByte c).toNat + 256 * (highByte c).toNat :=
    match chars, h with
    | [a, b, c, d, e, f, g, h, i, j, k, l, m], _ => by
      rw [lfnEntry_eq]
      rfl
  rw [hwords]
  conv => rhs; rw [← List.map_id chars]
  exact List.map_congr_left fun c hc => lowByte_add_highByte (hlt c hc)

theorem mem_lfnLoop {count seq : Nat} {sum : UInt8} {name : List UInt8}
    {made : List Fat16DirectoryEntry} (hseq : seq ≤ count) {e : Fat16DirectoryEntry}
    (he : e ∈ lfnLoop count sum seq name made) :
    e ∈ made ∨ ∃ q last chars, 0 < q ∧ q ≤ count ∧ chars.length = charsPerLfn ∧
      e = lfnEntry q last sum chars := by
  induction seq generalizing name made with
  | zero => exact .inl he
  | succ seq ih =>
    rw [lfnLoop] at he
    rcases ih (by omega) he with hmem | hnew
    · rcases List.mem_cons.mp hmem with rfl | hmem
      · exact .inr ⟨_, _, _, by omega, by omega, length_writeChars _ _, rfl⟩
      · exact .inl hmem
    · exact .inr hnew

/-! ### The clusters of the new node -/

/-- The clusters of a new node: those of an empty directory, or none. -/
structure NewChain (vol : Fat16Volume) (v : View) (newInodeType c size : Nat) : Prop where
  lt : c < 2 ^ 16
  directory : sIsdir newInodeType = true →
    isInvalidClusterNum c = false ∧ EmptyDir vol v c ∧ size = 32
  file : sIsdir newInodeType = false → c = 0 ∧ size = 0

theorem newNodeChain_ok (hg : Geometry vol) (hs : Sound vol (view vol disk) E [])
    {newInodeType c size : Nat} (h : newNodeChain vol disk newInodeType = .ok (c, size, disk')) :
    Prepared vol (view vol disk) (view vol disk') E ((view vol disk').chain c) ∧
      NewChain vol (view vol disk') newInodeType c size := by
  rw [newNodeChain] at h
  split at h
  · rename_i hdir
    simp only [bind_eq_ok] at h
    obtain ⟨⟨fresh, disk₁⟩, halloc, disk₂, hw, h⟩ := h
    simp only [pure_eq_ok, Except.ok.injEq, Prod.mk.injEq] at h
    obtain ⟨rfl, rfl, rfl⟩ := h
    have ha := allocateCluster_ok hg halloc
    have hp₁ := hs.prepare ha.touched (by rw [ha.eq]; rfl)
    rw [List.nil_append] at hp₁
    obtain ⟨ext, hwr⟩ := writeToClusterChain_ok hg hp₁.sound.spare_chain hw
    have hvalid := ha.inRange.valid
    have hchain : (view vol disk₂).chain fresh = [fresh] ++ ext := by
      have := hwr.chain
      rw [List.cons_append] at this
      exact this.chain_eq
    have hroot : fresh ≠ parentIsRootDir := by
      intro heq
      rw [heq] at hvalid
      exact absurd hvalid (by decide)
    have hlt := ha.inRange.lt
    refine ⟨?_, by omega, fun _ => ⟨hvalid, ⟨?_, ?_⟩, rfl⟩, fun hf => ?_⟩
    · rw [hchain]
      exact hp₁.trans hs (hp₁.sound.prepare hwr.touched hwr.root)
    · -- the end sentinel fits
      have hroom := hwr.lt_capacity (by simp [toBytes])
      rw [length_toBytes] at hroom
      rw [InDir, if_neg hroot, hchain]
      omega
    · funext i
      have hi := i.isLt
      rw [record, dirBytes, if_neg hroot, hchain, hwr.content_eq, Nat.zero_mul, Nat.zero_add,
        Mem.write_of_mem _ _ (Nat.zero_le _) (by rw [length_toBytes]; omega)]
      exact endSentinel.getD_toBytes hi
    · rw [hdir] at hf
      cases hf
  · rename_i hfile
    cases h
    refine ⟨?_, by decide, fun hdir => absurd hdir hfile, fun _ => ⟨rfl, rfl⟩⟩
    rw [chain_of_invalid _ (by decide)]
    exact .refl hs

/-! ### The parent directory -/

theorem findRootEnd_ok (hg : Geometry vol) {fuel k off : Nat} (hlt : (k + fuel) * 32 < 2 ^ 64)
    (hbefore : ∀ j < k, (record vol (view vol disk) parentIsRootDir j).firstByte ≠ 0)
    (h : findRootEnd vol disk (k * 32) fuel = .ok off) :
    ∃ n, off = n * 32 ∧ DirEnd vol (view vol disk) parentIsRootDir n := by
  induction fuel generalizing k with
  | zero => simp [findRootEnd] at h
  | succ fuel ih =>
    rw [findRootEnd, bind_eq_ok] at h
    obtain ⟨bytes, hread, h⟩ := h
    have hd : IsDir vol (view vol disk) parentIsRootDir := .inl rfl
    have hread' : readFromDirectory vol disk parentIsRootDir (k * 32) (1 * 32) = .ok bytes := by
      rw [readFromDirectory, if_pos rfl]
      exact hread
    have hin := readFromDirectory_inDir hg hd Nat.one_pos (by omega) hread'
    rw [readFromDirectory_ok hg hd hin, Except.ok.injEq, Nat.one_mul] at hread'
    rw [← hread', ofBytes_read] at h
    split at h
    · rename_i hzero
      cases h
      exact ⟨k, rfl, by simpa using hin, hzero, hbefore⟩
    · rename_i hzero
      rw [show k * 32 + 32 = (k + 1) * 32 by omega] at h
      refine ih (by omega) (fun j hj => ?_) h
      rcases Nat.lt_succ_iff_lt_or_eq.mp hj with hj | rfl
      · exact hbefore j hj
      · exact hzero

/-- **Entries are put at the end of the root directory.** -/
theorem insertEntries_root (hg : Geometry vol) {entries : List Fat16DirectoryEntry}
    (hlen : entries.length ≤ 65) (h : insertEntries vol disk iAmRootDir entries = .ok disk') :
    ∃ n ext, DirEnd vol (view vol disk) parentIsRootDir n ∧
      DirWritten vol (view vol disk) (view vol disk') parentIsRootDir ext (n * 32)
        (entries.flatMap toBytes) := by
  rw [insertEntries] at h
  simp only [if_true, bind_eq_ok] at h
  obtain ⟨off, hoff, h⟩ := h
  have hroot := hg.dataStart_lt
  have hdef : vol.numberOfSectorsRootDirectory * vol.bytesPerSector = rootBytes vol := rfl
  rw [dataStart] at hroot
  rw [hdef] at hoff
  have hoff' : findRootEnd vol disk (0 * 32) (rootBytes vol / 32 + 1) = .ok off := by
    rw [Nat.zero_mul]
    exact hoff
  have hnone : ∀ j < 0, (record vol (view vol disk) parentIsRootDir j).firstByte ≠ 0 :=
    fun j hj => absurd hj (Nat.not_lt_zero j)
  obtain ⟨n, rfl, hend⟩ := findRootEnd_ok hg (by omega) hnone hoff'
  have hbytes := length_flatMap_toBytes entries
  have hin := hend.inDir.lt hg (.inl rfl)
  obtain ⟨ext, hw⟩ := writeToDirectory_ok hg (k := n) (n := entries.length) (.inl rfl)
    (by rw [hbytes, Nat.mul_comm]) (by omega) (by rw [writeToDirectory, if_pos rfl]; exact h)
  exact ⟨n, ext, hend, hw⟩

theorem IsNode.ne_iAmRootDir {ino : Nat} (hs : Sound vol (view vol disk) E spare)
    (he : IsNode E ino) : ino ≠ iAmRootDir := by
  rintro rfl
  exact (hs.hasDirent he).isDir.ne_iAmRootDir rfl

/-- The entry `k` of `d` has got the size `m`. -/
structure Resized (vol : Fat16Volume) (v v' : View) (d k m : Nat) (ext : List Nat) : Prop where
  written : DirWritten vol v v' d ext (k * 32) ((record vol v d k).withFileSizeBytes m).toBytes
  inner : Inner vol v d k → v'.chain d = v.chain d

namespace Resized

variable {v v' : View} {d k m : Nat} {ext : List Nat} (hr : Resized vol v v' d k m ext)
  (hs : Sound vol v E spare) (he : E d k)
include hr

theorem record_self : record vol v' d k = (record vol v d k).withFileSizeBytes m :=
  hr.written.record_self

theorem name : SameName (record vol v d k) (record vol v' d k) := by
  rw [hr.record_self]
  exact sameName_withFileSizeBytes _ _

include hs he

theorem sound : Sound vol v' E spare :=
  hs.rewrite he hr.written (sameName_withFileSizeBytes _ _).isDirectory (.inl ⟨rfl, rfl⟩)

theorem kept : Kept vol v v' E :=
  hs.kept_of_rewrite he hr.written (sameName_withFileSizeBytes _ _) rfl

theorem complete (hc : Complete vol v E) (hclosed : Closed vol v d k) : Complete vol v' E :=
  hc.rewrite (hr.kept hs he) hclosed hr.inner (hs.frame_dir (hs.parent d k he) hr.written).1 hr.name
    fun _ hj hin => hr.written.record_of_ne hin hj

theorem dirEnd (hl : Listed vol v d k) {a : Nat} (ha : DirOf vol v E a)
    (hend : DirEnd vol v a n) : DirEnd vol v' a n := by
  by_cases had : a = d
  · subst had
    have hlt := hend.lt_of_listed hl
    refine ⟨hr.written.inDir _ hend.inDir, ?_, ?_⟩
    · rw [hr.written.record_of_ne hend.inDir (by omega)]
      exact hend.zero
    · intro j hj
      by_cases hjk : j = k
      · subst hjk
        rw [hr.name.firstByte]
        exact hend.before j hj
      · rw [hr.written.record_of_ne (hend.inDir.mono (by omega)) hjk]
        exact hend.before j hj
  · exact hend.congr ((hs.frame_dir (hs.parent d k he) hr.written).1 a ha had)

end Resized

section

variable (hg : Geometry vol) (hs : Sound vol (view vol disk) E spare) {parent : Nat}
  (he : IsNode E parent) (hdir : (direntOf vol (view vol disk) parent).IsDirectory)
  {entries : List Fat16DirectoryEntry}
include hg hs he hdir

omit hdir in
theorem insertEntries_eq (entries : List Fat16DirectoryEntry) :
    insertEntries vol disk parent entries = (do
      let disk₂ ← writeParentDirent vol disk parent
        ((direntOf vol (view vol disk) parent).withFileSizeBytes
          ((direntOf vol (view vol disk) parent).fileSizeBytes + 32 * (entries.length - 1)))
      writeToClusterChain vol disk₂ (direntOf vol (view vol disk) parent).clusterNumber
        (((direntOf vol (view vol disk) parent).fileSizeBytes + 2 ^ 32 - 32) % 2 ^ 32)
        (entries.flatMap toBytes)) := by
  have hdirent := hs.hasDirent he
  have hroot := he.ne_iAmRootDir hs
  rw [insertEntries]
  simp only [hroot, if_false, readParentDirent_ok hg hdirent, ok_bind]
  rfl

theorem resized_of_write {disk₂ : Mem} {m : Nat} (hw : writeParentDirent vol disk parent
      ((direntOf vol (view vol disk) parent).withFileSizeBytes m) = .ok disk₂) :
    ∃ ext₁, Resized vol (view vol disk) (view vol disk₂) (getParentClusterNum parent)
        (getDirentIndexInParent parent) m ext₁ ∧
      IsChain vol (view vol disk₂) ((direntOf vol (view vol disk) parent).clusterNumber ::
        ((view vol disk₂).chain (direntOf vol (view vol disk) parent).clusterNumber).tail) := by
  have hdirent := hs.hasDirent he
  obtain ⟨ext₁, hdw⟩ := writeParentDirent_ok hg hdirent hw
  have hr : Resized vol (view vol disk) (view vol disk₂) (getParentClusterNum parent)
      (getDirentIndexInParent parent) m ext₁ := ⟨hdw, writeParentDirent_inner hg hdirent hw⟩
  have hchain := (hr.sound hs he).chainOf he
  rw [chainOf, hr.record_self, clusterNumber_withFileSizeBytes,
    chain_eq_cons _ (hs.directory _ _ he hdir)] at hchain
  exact ⟨ext₁, hr, hchain⟩

theorem insertEntries_written (h : insertEntries vol disk parent entries = .ok disk') :
    ∃ v₂ ext₁ ext, Resized vol (view vol disk) v₂ (getParentClusterNum parent)
        (getDirentIndexInParent parent)
        ((direntOf vol (view vol disk) parent).fileSizeBytes + 32 * (entries.length - 1)) ext₁ ∧
      Written vol v₂ (view vol disk')
        (v₂.chain (direntOf vol (view vol disk) parent).clusterNumber) ext
        (((direntOf vol (view vol disk) parent).fileSizeBytes + 2 ^ 32 - 32) % 2 ^ 32)
        (entries.flatMap toBytes) := by
  rw [insertEntries_eq hg hs he, bind_eq_ok] at h
  obtain ⟨disk₂, hw, h⟩ := h
  obtain ⟨ext₁, hr, hchain⟩ := resized_of_write hg hs he hdir hw
  obtain ⟨ext, hwr⟩ := writeToClusterChain_ok hg hchain h
  have hvalid : isInvalidClusterNum (direntOf vol (view vol disk) parent).clusterNumber = false :=
    hs.directory _ _ he hdir
  rw [← chain_eq_cons _ hvalid] at hwr
  exact ⟨_, ext₁, ext, hr, hwr⟩

/-- **Entries are put at the end of a directory** whose size is right. -/
theorem insertEntries_node
    (hsize : (direntOf vol (view vol disk) parent).fileSizeBytes = 32 * (n + 1))
    (h : insertEntries vol disk parent entries = .ok disk') :
    ∃ v₂ ext₁ ext, Resized vol (view vol disk) v₂ (getParentClusterNum parent)
        (getDirentIndexInParent parent) (32 * (n + 1) + 32 * (entries.length - 1)) ext₁ ∧
      DirWritten vol v₂ (view vol disk') (direntOf vol (view vol disk) parent).clusterNumber ext
        (n * 32) (entries.flatMap toBytes) := by
  obtain ⟨v₂, ext₁, ext, hr, hw⟩ := insertEntries_written hg hs he hdir h
  have hlt := fileSizeBytes_lt (direntOf vol (view vol disk) parent)
  have hoff : ((direntOf vol (view vol disk) parent).fileSizeBytes + 2 ^ 32 - 32) % 2 ^ 32 =
      n * 32 := by omega
  rw [hsize] at hr
  rw [hoff] at hw
  exact ⟨v₂, ext₁, ext, hr, hw.dirWritten (hs.directory _ _ he hdir)⟩

/-- A size below 32 stands for an offset that no chain is long enough for. -/
theorem insertEntries_small
    (hsize : (direntOf vol (view vol disk) parent).fileSizeBytes < 32) (hne : entries ≠ []) :
    insertEntries vol disk parent entries ≠ .ok disk' := by
  intro h
  obtain ⟨v₂, ext₁, ext, -, hw⟩ := insertEntries_written hg hs he hdir h
  have hlen := length_flatMap_toBytes entries
  have hpos : 0 < entries.length := List.length_pos_iff.mpr hne
  have hcap := hw.lt_capacity fun hnil => by
    rw [hnil, List.length_nil] at hlen
    omega
  have hmax := Nat.mul_le_mul hw.chain.length_le hg.bytesPerCluster_le
  rw [capacity] at hcap
  omega

end

/-! ### The whole call -/

/-- The entries of the long name. -/
def longEntries (createIdx : Nat) (name : List UInt8) : List Fat16DirectoryEntry :=
  lfnLoop (lfnEntryCount name) (checksum (shortFileName createIdx)) (lfnEntryCount name) name []

theorem createInode_calls {s s' : FatState} {parent newInodeType : Nat} {name : List UInt8}
    (h : createInode vol s parent newInodeType name = .ok s') :
    ∃ stat c size disk₁ attributes, statFile vol s.disk parent = .ok stat ∧
      sIsdir stat.stMode = true ∧ lfnEntryCount name + 2 ≤ 65 ∧
      newNodeChain vol s.disk newInodeType = .ok (c, size, disk₁) ∧
      createFatMode newInodeType = .ok attributes ∧
      insertEntries vol disk₁ parent (longEntries s.createIdx name ++
        [ofFields (shortFileName s.createIdx) attributes c size, endSentinel]) = .ok s'.disk := by
  rw [createInode] at h
  simp only [bind_eq_ok, ensure_eq_ok] at h
  obtain ⟨stat, hstat, -, hdir, -, -, -, hroom, ⟨c, size, disk₁⟩, hnew, attributes, hattr, disk₂,
    hins, h⟩ := h
  cases h
  exact ⟨stat, c, size, disk₁, attributes, hstat, hdir, hroom, hnew, hattr, hins⟩

theorem longEntries_parts {createIdx : Nat} {name : List UInt8} {e : Fat16DirectoryEntry}
    (he : e ∈ longEntries createIdx name) : e.attributes = fileAttributesLfn := by
  rcases mem_lfnLoop (le_refl _) he with hnil | ⟨q, last, chars, -, -, hlen, rfl⟩
  · cases hnil
  · exact (lfnEntry_fields q last _ hlen).1

theorem longEntries_firstByte {createIdx : Nat} {name : List UInt8} (hcount : lfnEntryCount name < 64)
    {e : Fat16DirectoryEntry} (he : e ∈ longEntries createIdx name) : e.firstByte ≠ 0 := by
  rcases mem_lfnLoop (le_refl _) he with hnil | ⟨q, last, chars, hpos, hle, hlen, rfl⟩
  · cases hnil
  · intro hzero
    have hnat := congrArg UInt8.toNat hzero
    rw [(lfnEntry_fields q last _ hlen).2.2.2, UInt8.toNat_ofNat'] at hnat
    have : (0 : UInt8).toNat = 0 := rfl
    split at hnat <;> omega

theorem length_longEntries (createIdx : Nat) (name : List UInt8) :
    (longEntries createIdx name).length = lfnEntryCount name := by
  rw [longEntries, length_lfnLoop, List.length_nil, Nat.add_zero]

theorem NewChain.congr {v v' : View} {newInodeType c size : Nat}
    (hn : NewChain vol v newInodeType c size) (hsame : SameFile vol v v' c) :
    NewChain vol v' newInodeType c size := by
  refine ⟨hn.lt, fun hdir => ?_, hn.file⟩
  obtain ⟨hvalid, hempty, hsize⟩ := hn.directory hdir
  exact ⟨hvalid, hempty.congr (hsame.sameDir hvalid), hsize⟩

/-- `r` is the entry of the new node, with clusters that are there in the view `v`. -/
def NewEntry (vol : Fat16Volume) (v : View) (createIdx newInodeType : Nat)
    (r : Fat16DirectoryEntry) : Prop :=
  ∃ attributes c size, createFatMode newInodeType = .ok attributes ∧
    NewChain vol v newInodeType c size ∧
    r = ofFields (shortFileName createIdx) attributes c size

namespace NewEntry

variable {v : View} {createIdx newInodeType : Nat} {r : Fat16DirectoryEntry}
  (h : NewEntry vol v createIdx newInodeType r)
include h

theorem clusterNumber : NewChain vol v newInodeType r.clusterNumber r.fileSizeBytes := by
  obtain ⟨attributes, c, size, -, hn, rfl⟩ := h
  have hsize : size < 2 ^ 32 := by
    cases hdir : sIsdir newInodeType with
    | true => rw [(hn.directory hdir).2.2]; decide
    | false => rw [(hn.file hdir).2]; decide
  have hstored : (ofFields (shortFileName createIdx) attributes c size).fileSizeBytes = size :=
    fileSizeBytes_withFileSizeBytes _ hsize
  rw [clusterNumber_ofFields _ _ _ hn.lt, hstored]
  exact hn

theorem attributes : createFatMode newInodeType = .ok r.attributes := by
  obtain ⟨attributes, c, size, hattr, -, rfl⟩ := h
  exact hattr

theorem isDirectory : r.IsDirectory ↔ sIsdir newInodeType = true := by
  have hattr := h.attributes
  rw [IsDirectory]
  rw [createFatMode] at hattr
  cases hdir : sIsdir newInodeType with
  | true =>
    rw [if_pos hdir, Except.ok.injEq] at hattr
    rw [← hattr]
    decide
  | false =>
    rw [if_neg (by simp [hdir])] at hattr
    split at hattr
    · rw [Except.ok.injEq] at hattr
      rw [← hattr]
      decide
    · cases hattr

theorem fileSizeBytes (hfile : ¬ r.IsDirectory) : r.fileSizeBytes = 0 := by
  rw [h.isDirectory, Bool.not_eq_true] at hfile
  exact (h.clusterNumber.file hfile).2

theorem firstByte : r.firstByte = 82 := by
  obtain ⟨attributes, c, size, -, -, rfl⟩ := h
  rfl

theorem zero : r.zero = 0 := by
  obtain ⟨attributes, c, size, -, -, rfl⟩ := h
  rfl

end NewEntry

theorem NewEntry.appended {v v' : View} {d newInodeType createIdx : Nat} {r : Fat16DirectoryEntry}
    {name : List UInt8} {ext : List Nat} (h : NewEntry vol v createIdx newInodeType r)
    (hd : DirOf vol v E d) (hend : DirEnd vol v d n)
    (hw : DirWritten vol v v' d ext (n * 32)
      ((longEntries createIdx name ++ [r, endSentinel]).flatMap toBytes)) :
    Appended vol v v' E (v.chain r.clusterNumber) d n (longEntries createIdx name) r ext := by
  refine ⟨hd, hend, hw, fun e he => longEntries_parts he, rfl, fun hr => ?_⟩
  obtain ⟨hvalid, hempty, -⟩ := h.clusterNumber.directory (h.isDirectory.mp hr)
  exact ⟨hvalid, hempty⟩

/-- A directory gets entries: it is the root, or its own entry can be rewritten and its size is
right.  With a size below 32 the call halts. -/
def Insertable (vol : Fat16Volume) (v : View) (E : Nat → Nat → Prop) (parent : Nat) : Prop :=
  parent = iAmRootDir ∨ IsNode E parent ∧
    Closed vol v (getParentClusterNum parent) (getDirentIndexInParent parent) ∧
    ((direntOf vol v parent).fileSizeBytes < 32 ∨
      ∃ n, DirEnd vol v (direntOf vol v parent).clusterNumber n ∧
        (direntOf vol v parent).fileSizeBytes = 32 * (n + 1))

theorem Closed.congr {v v' : View} {d k : Nat} (h : Closed vol v d k) (hsame : SameDir vol v v' d) :
    Closed vol v' d k := by
  rcases h with h | ⟨n, h⟩
  · exact .inl (h.congr hsame.chain)
  · exact .inr ⟨n, h.congr hsame⟩

theorem isDirectory_of_stat (hg : Geometry vol) {ino : Nat}
    (hdirent : HasDirent vol (view vol disk) ino) {stat : Stat}
    (hstat : statFile vol disk ino = .ok stat) (hdir : sIsdir stat.stMode = true) :
    (direntOf vol (view vol disk) ino).IsDirectory := by
  rw [statFile_eq hg hdirent, bind_eq_ok] at hstat
  obtain ⟨mode, hmode, h⟩ := hstat
  cases h
  exact (sIsdir_readFatMode hmode).mp hdir

/-- **`create_inode` in a directory** whose size is right. -/
theorem createInode_node (hg : Geometry vol) {s s' : FatState}
    (hs : Sound vol (view vol s.disk) E []) {parent newInodeType : Nat} {name : List UInt8}
    (he : IsNode E parent)
    (hl : Listed vol (view vol s.disk) (getParentClusterNum parent) (getDirentIndexInParent parent))
    (hend : DirEnd vol (view vol s.disk) (direntOf vol (view vol s.disk) parent).clusterNumber n)
    (hsize : (direntOf vol (view vol s.disk) parent).fileSizeBytes = 32 * (n + 1))
    (h : createInode vol s parent newInodeType name = .ok s') :
    ∃ v₁ v₂ r ext₁ ext, Prepared vol (view vol s.disk) v₁ E (v₁.chain r.clusterNumber) ∧
      Resized vol v₁ v₂ (getParentClusterNum parent) (getDirentIndexInParent parent)
        (32 * (n + 1) + 32 * (lfnEntryCount name + 1)) ext₁ ∧
      Appended vol v₂ (view vol s'.disk) E (v₁.chain r.clusterNumber)
        (direntOf vol (view vol s.disk) parent).clusterNumber n (longEntries s.createIdx name) r
        ext ∧
      NewEntry vol v₂ s.createIdx newInodeType r ∧
      (direntOf vol (view vol s.disk) parent).IsDirectory := by
  obtain ⟨stat, c, size, disk₁, attributes, hstat, hdir, hroom, hnew, hattr, hins⟩ :=
    createInode_calls h
  have hdir := isDirectory_of_stat hg (hs.hasDirent he) hstat hdir
  obtain ⟨hp, hn⟩ := newNodeChain_ok hg hs hnew
  have hdirs := hp.dirs _ (hs.parent _ _ he)
  have hrec : direntOf vol (view vol disk₁) parent = direntOf vol (view vol s.disk) parent :=
    hdirs.record _
  obtain ⟨v₂, ext₁, ext, hr, hw⟩ := insertEntries_node hg hp.sound he (by rw [hrec]; exact hdir)
    (by rw [hrec]; exact hsize) hins
  have hd : DirOf vol (view vol s.disk) E (direntOf vol (view vol s.disk) parent).clusterNumber :=
    .inr ⟨_, _, he, hdir, rfl⟩
  have hd₁ : DirOf vol (view vol disk₁) E (direntOf vol (view vol s.disk) parent).clusterNumber := by
    rw [← hrec]
    exact .inr ⟨_, _, he, by rw [← direntOf, hrec]; exact hdir, rfl⟩
  have hd₂ : DirOf vol v₂ E (direntOf vol (view vol s.disk) parent).clusterNumber := by
    rw [← hrec]
    refine .inr ⟨_, _, he, hr.name.isDirectory.mpr (by rw [← direntOf, hrec]; exact hdir), ?_⟩
    rw [hr.record_self]
    rfl
  have hend₂ := hr.dirEnd hp.sound he ((hdirs.listed _).mpr hl) hd₁ (hend.congr (hp.dirs _ hd))
  have hsame : SameFile vol (view vol disk₁) v₂ c :=
    (hp.sound.frame_dir (hp.sound.parent _ _ he) hr.written).2.2 c rfl
  rw [hrec] at hw
  rw [List.length_append, length_longEntries] at hr
  have hentry : NewEntry vol v₂ s.createIdx newInodeType
      (ofFields (shortFileName s.createIdx) attributes c size) :=
    ⟨attributes, c, size, hattr, hn.congr hsame, rfl⟩
  have hcluster := clusterNumber_ofFields (shortFileName s.createIdx) attributes size hn.lt
  have ha := hentry.appended hd₂ hend₂ hw
  rw [hcluster, hsame.chain] at ha
  refine ⟨_, v₂, _, ext₁, ext, ?_, hr, ?_, hentry, hdir⟩
  · rw [hcluster]
    exact hp
  · rw [hcluster]
    exact ha

/-- **`create_inode` in the root directory.** -/
theorem createInode_root (hg : Geometry vol) {s s' : FatState}
    (hs : Sound vol (view vol s.disk) E []) {newInodeType : Nat} {name : List UInt8}
    (h : createInode vol s iAmRootDir newInodeType name = .ok s') :
    ∃ v₁ r n ext, Prepared vol (view vol s.disk) v₁ E (v₁.chain r.clusterNumber) ∧
      Appended vol v₁ (view vol s'.disk) E (v₁.chain r.clusterNumber) parentIsRootDir n
        (longEntries s.createIdx name) r ext ∧
      NewEntry vol v₁ s.createIdx newInodeType r := by
  obtain ⟨stat, c, size, disk₁, attributes, -, -, hroom, hnew, hattr, hins⟩ := createInode_calls h
  obtain ⟨hp, hn⟩ := newNodeChain_ok hg hs hnew
  have hlen : (longEntries s.createIdx name ++ [ofFields (shortFileName s.createIdx) attributes
      c size, endSentinel]).length ≤ 65 := by
    rw [List.length_append, length_longEntries]
    exact hroom
  obtain ⟨n, ext, hend, hw⟩ := insertEntries_root hg hlen hins
  have hentry : NewEntry vol (view vol disk₁) s.createIdx newInodeType
      (ofFields (shortFileName s.createIdx) attributes c size) :=
    ⟨attributes, c, size, hattr, hn, rfl⟩
  refine ⟨_, _, n, ext, ?_, hentry.appended (.inl rfl) hend hw, hentry⟩
  rw [clusterNumber_ofFields _ _ _ hn.lt]
  exact hp

/-- **In a directory with a size below 32** it halts. -/
theorem createInode_small (hg : Geometry vol) {s s' : FatState}
    (hs : Sound vol (view vol s.disk) E []) {parent newInodeType : Nat} {name : List UInt8}
    (he : IsNode E parent)
    (hsmall : (direntOf vol (view vol s.disk) parent).fileSizeBytes < 32) :
    createInode vol s parent newInodeType name ≠ .ok s' := by
  intro h
  obtain ⟨stat, c, size, disk₁, attributes, hstat, hdir, -, hnew, -, hins⟩ := createInode_calls h
  obtain ⟨hp, -⟩ := newNodeChain_ok hg hs hnew
  have hrec : direntOf vol (view vol disk₁) parent = direntOf vol (view vol s.disk) parent :=
    hs.sameRecord hp.dirs he
  have hdir := isDirectory_of_stat hg (hs.hasDirent he) hstat hdir
  rw [← hrec] at hsmall hdir
  exact insertEntries_small hg hp.sound he hdir hsmall (by simp) hins

/-- The directory that a node is. -/
def directoryOf (vol : Fat16Volume) (v : View) (ino : Nat) : Nat :=
  if ino = iAmRootDir then parentIsRootDir else (direntOf vol v ino).clusterNumber

/-- **`create_inode`** keeps the entries and puts one more at the end of the parent. -/
theorem createInode_ok (hg : Geometry vol) {s s' : FatState}
    (hs : Sound vol (view vol s.disk) E []) (hc : Complete vol (view vol s.disk) E)
    (hlisted : ∀ a b, E a b → Listed vol (view vol s.disk) a b) {parent newInodeType : Nat}
    {name : List UInt8} (hins : Insertable vol (view vol s.disk) E parent)
    (h : createInode vol s parent newInodeType name = .ok s') :
    ∃ v₂ spare d n r ext, Sound vol v₂ E spare ∧ Complete vol v₂ E ∧
      Kept vol (view vol s.disk) v₂ E ∧
      (∀ a b, E a b → ¬ (record vol (view vol s.disk) a b).IsDirectory →
        record vol v₂ a b = record vol (view vol s.disk) a b) ∧
      Appended vol v₂ (view vol s'.disk) E spare d n (longEntries s.createIdx name) r ext ∧
      NewEntry vol v₂ s.createIdx newInodeType r ∧ d = directoryOf vol (view vol s.disk) parent := by
  rcases hins with rfl | ⟨he, hclosed, hsmall | ⟨n, hend, hsize⟩⟩
  · obtain ⟨v₁, r, n, ext, hp, ha, hentry⟩ := createInode_root hg hs h
    exact ⟨v₁, _, _, n, r, ext, hp.sound, hp.complete hs hc, hp.kept hs,
      fun a b he _ => hs.sameRecord hp.dirs he, ha, hentry, (if_pos rfl).symm⟩
  · exact absurd h (createInode_small hg hs he hsmall)
  · obtain ⟨v₁, v₂, r, ext₁, ext, hp, hr, ha, hentry, hdir⟩ :=
      createInode_node hg hs he (hlisted _ _ he) hend hsize h
    have hclosed₁ := hclosed.congr (hp.dirs _ (hs.parent _ _ he))
    refine ⟨v₂, _, _, n, r, ext, hr.sound hp.sound he,
      hr.complete hp.sound he (hp.complete hs hc) hclosed₁,
      (hp.kept hs).trans (hr.kept hp.sound he), ?_, ha, hentry,
      (if_neg (he.ne_iAmRootDir hs)).symm⟩
    intro a b hab hnd
    rw [hp.sound.record_rewrite (hp.sound.parent _ _ he) hr.written hab
      fun heq => by cases heq; exact hnd hdir]
    exact hs.sameRecord hp.dirs hab

/-- **On a well-formed volume** it adds one entry, and leaves those of files as they are. -/
theorem createInode_adds (hg : Geometry vol) {s s' : FatState}
    (hwf : WellFormed vol (view vol s.disk)) {parent newInodeType : Nat} {name : List UInt8}
    (hins : Insertable vol (view vol s.disk) (Entry vol (view vol s.disk)) parent)
    (h : createInode vol s parent newInodeType name = .ok s') :
    WellFormed vol (view vol s'.disk) ∧
      Kept vol (view vol s.disk) (view vol s'.disk) (Entry vol (view vol s.disk)) ∧
      (∀ a b, Entry vol (view vol s.disk) a b → ¬ (record vol (view vol s.disk) a b).IsDirectory →
        record vol (view vol s'.disk) a b = record vol (view vol s.disk) a b) ∧
      ∃ v₂ k, NewEntry vol v₂ s.createIdx newInodeType
          (record vol (view vol s'.disk) (directoryOf vol (view vol s.disk) parent) k) ∧
        ∀ a b, Entry vol (view vol s'.disk) a b → Entry vol (view vol s.disk) a b ∨
          (a, b) = (directoryOf vol (view vol s.disk) parent, k) := by
  obtain ⟨v₂, spare, d, n, r, ext, hs, hc, hk, hfiles, ha, hnew, rfl⟩ := createInode_ok hg hwf.sound
    (complete_entry _ _) (fun _ _ he => he.listed) hins h
  have hlisted : ∀ a b, Entry vol (view vol s.disk) a b → Listed vol v₂ a b :=
    fun a b he => hk.listed a b he he.listed
  have hcomplete := ha.complete hs hlisted hc
  refine ⟨(ha.sound hs hlisted).wellFormed hcomplete, hk.trans (ha.kept hs hlisted), ?_, v₂,
    n + (longEntries s.createIdx name).length, ?_, fun a b he => hcomplete.entry he⟩
  · intro a b he hfile
    rw [ha.record_kept hs hlisted he, hfiles a b he hfile]
  · rw [ha.record_new]
    exact hnew

end Stuos.Fs.Fat
