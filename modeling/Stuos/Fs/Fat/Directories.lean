import Stuos.Fs.Fat.Chains
import Stuos.Fs.Fat.Files

/-!
# The bytes of a directory

A directory is named by its first cluster, and the root directory, which has none, by
`PARENT_IS_ROOT_DIR`.  `dirBytes` are its bytes, `InDir` says how far they can be
accessed, and `record` is the entry at an index.

* `readFromDirectory_ok`, `readFromDirectory_inDir`: a read returns the bytes of the
  directory, and it returns only inside the directory.
* `DirWritten`, `writeToDirectory_ok`: what a write to a directory does.
* `readParentDirent_ok`, `writeParentDirent_ok`: the same for the entry of a node.
-/

namespace Stuos.Fs.Fat

open Stuos.Lib

section

variable (vol : Fat16Volume) (v : View)

/-- The bytes of the directory `d`. -/
def dirBytes (d : Nat) : Mem :=
  if d = parentIsRootDir then v.root else content vol v (v.chain d)

/-- The first `m` bytes of the directory can be accessed.  The last entry of the root
directory is out of reach. -/
def InDir (d m : Nat) : Prop :=
  if d = parentIsRootDir then m < rootBytes vol else m ≤ capacity vol (v.chain d)

/-- The entry at index `k`. -/
def record (d k : Nat) : Fat16DirectoryEntry := fun i => dirBytes vol v d (k * 32 + i.val)

/-- The root directory, or the start of a chain. -/
def IsDir (d : Nat) : Prop :=
  d = parentIsRootDir ∨ isInvalidClusterNum d = false ∧ IsChain vol v (v.chain d)

end

variable {vol : Fat16Volume} {v v' : View} {disk disk' : Mem} {d k m : Nat}

theorem InDir.mono {n : Nat} (h : InDir vol v d m) (hn : n ≤ m) : InDir vol v d n := by
  unfold InDir at h ⊢
  split at h <;> rename_i hd
  · rw [if_pos hd]
    omega
  · rw [if_neg hd]
    omega

theorem isInvalidClusterNum_root : isInvalidClusterNum parentIsRootDir = true := by decide

@[simp] theorem chain_root (v : View) : v.chain parentIsRootDir = [] :=
  chain_of_invalid v isInvalidClusterNum_root

theorem IsDir.isChain (h : IsDir vol v d) : IsChain vol v (v.chain d) := by
  rcases h with rfl | ⟨_, h⟩
  · rw [chain_root]
    exact .nil vol v
  · exact h

theorem InDir.lt (hg : Geometry vol) (hd : IsDir vol v d) (h : InDir vol v d m) : m < 2 ^ 32 := by
  unfold InDir at h
  split at h
  · have h1 := hg.dataStart_lt
    rw [dataStart] at h1
    omega
  · have h1 : capacity vol (v.chain d) ≤ 0xFFF7 * 65536 :=
      Nat.mul_le_mul hd.isChain.length_le hg.bytesPerCluster_le
    omega

/-! ### Reading -/

theorem checkRootDir_eq (hg : Geometry vol) {n : Nat} (hm : k * 32 + n * 32 < 2 ^ 64) :
    checkRootDir vol (k * 32) (n * 32) = ensure (k * 32 + n * 32 < rootBytes vol) .hcf := by
  rw [checkRootDir, ensure_of (by omega), ok_bind, ensure_of (by omega), ok_bind, u64_of_lt hm]
  exact congrArg (fun b => ensure (k * 32 + n * 32 < b) Halt.hcf) hg.intU64_rootBytes

theorem u64_rootStart (hg : Geometry vol) {off : Nat} (h : off ≤ rootBytes vol) :
    u64 (rootDirStartByte vol + off) = rootStart vol + off := by
  have h1 := hg.dataStart_lt
  rw [dataStart] at h1
  rw [hg.rootDirStartByte_eq, u64_of_lt (by omega)]

/-- **A read inside a directory returns its bytes.** -/
theorem readFromDirectory_ok (hg : Geometry vol) (hd : IsDir vol (view vol disk) d) {n : Nat}
    (hin : InDir vol (view vol disk) d (k * 32 + n * 32)) :
    readFromDirectory vol disk d (k * 32) (n * 32) =
      .ok ((dirBytes vol (view vol disk) d).read (k * 32) (n * 32)) := by
  have hlt := hin.lt hg hd
  rw [readFromDirectory, dirBytes]
  unfold InDir at hin
  split at hin <;> rename_i hroot
  · rw [if_pos hroot, if_pos hroot, readFromRootDir, checkRootDir_eq hg (by omega),
      ensure_of hin, ok_bind, u64_rootStart hg (by omega), view_readRoot (by omega)]
    rfl
  · obtain ⟨hvalid, hc⟩ := hd.resolve_left hroot
    rw [if_neg hroot, if_neg hroot]
    rw [chain_eq_cons _ hvalid] at hc hin ⊢
    exact readFromClusterChain_ok hg hc hin

/-- **A read that returns was inside the directory.** -/
theorem readFromDirectory_inDir (hg : Geometry vol) (hd : IsDir vol (view vol disk) d) {n : Nat}
    {bytes : List UInt8} (hn : 0 < n) (hm : k * 32 + n * 32 < 2 ^ 64)
    (h : readFromDirectory vol disk d (k * 32) (n * 32) = .ok bytes) :
    InDir vol (view vol disk) d (k * 32 + n * 32) := by
  rw [readFromDirectory] at h
  unfold InDir
  split at h <;> rename_i hroot
  · rw [if_pos hroot]
    rw [readFromRootDir, checkRootDir_eq hg hm, bind_eq_ok] at h
    obtain ⟨_, h, _⟩ := h
    exact ensure_eq_ok.mp h
  · rw [if_neg hroot]
    obtain ⟨hvalid, hc⟩ := hd.resolve_left hroot
    rw [chain_eq_cons _ hvalid] at hc ⊢
    exact readFromClusterChain_capacity hg hc (by omega) h

theorem toBytes_record (vol : Fat16Volume) (v : View) (d k : Nat) :
    (record vol v d k).toBytes = (dirBytes vol v d).read (k * 32) 32 := by
  apply List.ext_getElem?
  intro i
  rw [Mem.read_getElem?, Fat16DirectoryEntry.toBytes, List.getElem?_ofFn]
  split <;> rfl

theorem ofBytes_read (vol : Fat16Volume) (v : View) (d k : Nat) :
    Fat16DirectoryEntry.ofBytes ((dirBytes vol v d).read (k * 32) 32) = record vol v d k := by
  rw [← toBytes_record, Fat16DirectoryEntry.ofBytes_toBytes]

/-! ### Writing -/

/-- What writing `input` at `off` to the directory `d` does. -/
structure DirWritten (vol : Fat16Volume) (v v' : View) (d : Nat) (ext : List Nat) (off : Nat)
    (input : List UInt8) : Prop where
  grown : Grown vol v v' (v.chain d) ext
  data : ∀ c, c ∉ v.chain d → c ∉ ext → v'.data c = v.data c
  root : d ≠ parentIsRootDir → v'.root = v.root
  bytes : ∀ i, InDir vol v d (i + 1) ∨ off ≤ i ∧ i < off + input.length →
    dirBytes vol v' d i = (dirBytes vol v d).write off input i
  inDir : ∀ m, InDir vol v d m → InDir vol v' d m
  room : input ≠ [] → InDir vol v' d (off + input.length)

theorem Written.dirWritten {ext : List Nat} {off : Nat} {input : List UInt8}
    (hvalid : isInvalidClusterNum d = false)
    (h : Written vol v v' (v.chain d) ext off input) : DirWritten vol v v' d ext off input := by
  have hroot : d ≠ parentIsRootDir := by
    rintro rfl
    exact absurd hvalid (by decide)
  have hchain : v'.chain d = v.chain d ++ ext := by
    have := h.chain
    rw [chain_eq_cons v hvalid, List.cons_append] at this ⊢
    exact this.chain_eq
  refine ⟨h.toGrown, h.data, fun _ => h.root, ?_, ?_, ?_⟩
  · intro i hi
    rw [dirBytes, if_neg hroot, dirBytes, if_neg hroot, hchain, h.content_eq, Mem.write, Mem.write]
    split
    · rfl
    · rename_i hout
      refine joined_append ?_
      rw [InDir, if_neg hroot] at hi
      exact Nat.lt_of_succ_le (hi.resolve_right hout)
  · intro m hm
    rw [InDir, if_neg hroot] at hm ⊢
    rw [hchain, capacity_append]
    omega
  · intro hin
    have := h.lt_capacity hin
    rw [InDir, if_neg hroot, hchain]
    omega

theorem dirWritten_root {off : Nat} {input : List UInt8}
    (hoff : off + input.length < rootBytes vol) :
    DirWritten vol v (v.setRoot (v.root.write off input)) parentIsRootDir [] off input := by
  refine ⟨?_, fun _ _ _ => rfl, fun h => absurd rfl h, ?_, ?_, ?_⟩
  · rw [chain_root]
    exact ⟨.nil vol _, by simp, fun _ _ _ => rfl⟩
  · intro i _
    rw [dirBytes, if_pos rfl, dirBytes, if_pos rfl, View.setRoot_root]
  · intro m hm
    rwa [InDir, if_pos rfl] at hm ⊢
  · intro _
    rwa [InDir, if_pos rfl]

/-- **A write to a directory.** -/
theorem writeToDirectory_ok (hg : Geometry vol) (hd : IsDir vol (view vol disk) d) {n : Nat}
    {input : List UInt8} (hlen : input.length = n * 32) (hm : k * 32 + n * 32 < 2 ^ 64)
    (h : writeToDirectory vol disk d (k * 32) input = .ok disk') :
    ∃ ext, DirWritten vol (view vol disk) (view vol disk') d ext (k * 32) input := by
  rw [writeToDirectory] at h
  split at h <;> rename_i hroot
  · subst hroot
    rw [writeToRootDir, hlen, checkRootDir_eq hg hm, bind_eq_ok] at h
    obtain ⟨_, hin, h⟩ := h
    rw [ensure_eq_ok, ← hlen] at hin
    rw [u64_rootStart hg (by omega), pure_eq_ok, Except.ok.injEq] at h
    rw [← h, view_writeRoot hg (by omega)]
    exact ⟨[], dirWritten_root hin⟩
  · obtain ⟨hvalid, hc⟩ := hd.resolve_left hroot
    have hc' := hc
    rw [chain_eq_cons _ hvalid] at hc'
    obtain ⟨ext, hw⟩ := writeToClusterChain_ok hg hc' h
    rw [← chain_eq_cons _ hvalid] at hw
    exact ⟨ext, hw.dirWritten hvalid⟩

/-- **A write inside a directory fails only for want of clusters.** -/
theorem writeToDirectory_error (hg : Geometry vol) (hd : IsDir vol (view vol disk) d) {n : Nat}
    {input : List UInt8} {e : Halt} (hlen : input.length = n * 32)
    (hin : InDir vol (view vol disk) d (k * 32 + n * 32))
    (h : writeToDirectory vol disk d (k * 32) input = .error e) : e = .outOfClusters := by
  have hlt := hin.lt hg hd
  rw [writeToDirectory] at h
  unfold InDir at hin
  split at h <;> rename_i hroot
  · rw [if_pos hroot] at hin
    rw [writeToRootDir, hlen, checkRootDir_eq hg (by omega), ensure_of hin] at h
    simp at h
  · obtain ⟨hvalid, hc⟩ := hd.resolve_left hroot
    rw [chain_eq_cons _ hvalid] at hc
    exact writeToClusterChain_error hg hc h

/-! ### The entry of a node -/

/-- The entry of `inode` lies in a directory that can be read. -/
structure HasDirent (vol : Fat16Volume) (v : View) (inode : Nat) : Prop where
  isDir : IsDir vol v (getParentClusterNum inode)
  inDir : InDir vol v (getParentClusterNum inode) (getDirentIndexInParent inode * 32 + 32)

/-- The entry of a node in its parent directory. -/
def direntOf (vol : Fat16Volume) (v : View) (inode : Nat) : Fat16DirectoryEntry :=
  record vol v (getParentClusterNum inode) (getDirentIndexInParent inode)

theorem IsDir.lt (h : IsDir vol v d) : d < 2 ^ 16 := by
  rcases h with rfl | ⟨hvalid, -⟩
  · decide
  · simp only [isInvalidClusterNum, Bool.or_eq_false_iff, decide_eq_false_iff_not] at hvalid
    omega

theorem IsDir.ne_iAmRootDir (h : IsDir vol v d) : d ≠ iAmRootDir := by
  rcases h with rfl | ⟨h, _⟩
  · decide
  · rintro rfl
    exact absurd h (by decide)

theorem readParentDirent_ok (hg : Geometry vol) {inode : Nat}
    (h : HasDirent vol (view vol disk) inode) :
    readParentDirent vol disk inode = .ok (direntOf vol (view vol disk) inode) := by
  have hread := readFromDirectory_ok hg h.isDir (n := 1) (by simpa using h.inDir)
  rw [Nat.one_mul] at hread
  rw [readParentDirent, ensure_of h.isDir.ne_iAmRootDir, ok_bind, hread, ok_bind, ofBytes_read]
  rfl

theorem writeParentDirent_ok (hg : Geometry vol) {inode : Nat} {value : Fat16DirectoryEntry}
    (h : HasDirent vol (view vol disk) inode)
    (hw : writeParentDirent vol disk inode value = .ok disk') :
    ∃ ext, DirWritten vol (view vol disk) (view vol disk') (getParentClusterNum inode) ext
      (getDirentIndexInParent inode * 32) value.toBytes := by
  have hlt := h.inDir.lt hg h.isDir
  rw [writeParentDirent, ensure_of h.isDir.ne_iAmRootDir, ok_bind] at hw
  exact writeToDirectory_ok hg h.isDir (n := 1) (by simp) (by omega) hw

theorem writeParentDirent_error (hg : Geometry vol) {inode : Nat} {value : Fat16DirectoryEntry}
    {e : Halt} (h : HasDirent vol (view vol disk) inode)
    (hw : writeParentDirent vol disk inode value = .error e) : e = .outOfClusters := by
  rw [writeParentDirent, ensure_of h.isDir.ne_iAmRootDir, ok_bind] at hw
  exact writeToDirectory_error hg h.isDir (n := 1) (by simp) (by simpa using h.inDir) hw

end Stuos.Fs.Fat
