import Stuos.Fs.Fat.Copies
import Stuos.Fs.Fat.Steps

/-!
# The entries after a step

`Sound` is about a fixed set of entries.  This module says what such a set has to do with
the entries of the volume: it is `Complete` if the directories list nothing else.  A step
keeps its entries (`Kept`) if it leaves them where they are, under their names, and takes
no cluster from them.

* `Sound.wellFormed`: a complete set of entries with chains of their own makes a volume
  well-formed.
* `Kept.entry`: the entries that were reached from the root still are.
* `Complete.step`: a set stays complete if no directory comes to list more.
* `Appended.sound`: entries are put over the end of a directory.
-/

namespace Stuos.Fs.Fat

open Stuos.Lib

/-! ### Names -/

namespace Fat16DirectoryEntry

variable {e e' : Fat16DirectoryEntry}

theorem SameName.refl (e : Fat16DirectoryEntry) : SameName e e := fun _ _ => rfl

theorem SameName.symm (h : SameName e e') : SameName e' e := fun i hi => (h i hi).symm

theorem SameName.attributes (h : SameName e e') : e'.attributes = e.attributes := h 11 (by decide)

theorem SameName.isDirectory (h : SameName e e') : e'.IsDirectory ↔ e.IsDirectory := by
  rw [IsDirectory, IsDirectory, h.attributes]

theorem SameName.firstByte (h : SameName e e') : e'.firstByte = e.firstByte :=
  h (Fin.castLE (by decide) 0) (by decide)

theorem SameName.filename (h : SameName e e') : e'.filename = e.filename := by
  funext i
  exact h _ (by have := i.isLt; simp only [Fin.val_castLE]; omega)

theorem filename_ofFields (filename : Fin 11 → UInt8) (attributes : UInt8) (c size : Nat) :
    (ofFields filename attributes c size).filename = filename := by
  rw [ofFields, (sameName_withFileSizeBytes _ _).filename, (sameName_withClusterNumber _ _).filename]
  funext i
  exact dif_pos i.isLt

theorem SameName.names (h : SameName e e') : e'.Names ↔ e.Names := by
  rw [Names, Names, h.attributes, h.firstByte]

end Fat16DirectoryEntry

open Fat16DirectoryEntry

variable {vol : Fat16Volume} {v v' v'' : View} {E E' : Nat → Nat → Prop} {spare ext : List Nat}
  {d k n : Nat} {r : Fat16DirectoryEntry}

theorem Listed.mono (h : Listed vol v d k) (hin : InDir vol v' d (k * 32 + 32))
    (hname : ∀ j ≤ k, SameName (record vol v d j) (record vol v' d j)) : Listed vol v' d k := by
  refine ⟨hin, ?_, ?_⟩
  · intro j hj
    rw [(hname j hj).firstByte]
    exact h.before j hj
  · rw [(hname k (le_refl k)).names]
    exact h.names

/-! ### Complete sets of entries -/

/-- The directories list nothing but the entries `E`. -/
def Complete (vol : Fat16Volume) (v : View) (E : Nat → Nat → Prop) : Prop :=
  ∀ a b, DirOf vol v E a → Listed vol v a b → E a b

theorem complete_entry (vol : Fat16Volume) (v : View) : Complete vol v (Entry vol v) := by
  intro a b ha hl
  rcases ha with rfl | ⟨p, j, hp, hdir, rfl⟩
  · exact ⟨.root, hl⟩
  · exact ⟨.sub hp.reach hp.listed hdir, hl⟩

/-- **The entries of the volume** are in every complete set. -/
theorem Complete.entry (h : Complete vol v E) (he : Entry vol v d k) : E d k := by
  have hreach : DirOf vol v E d := by
    have hr := he.reach
    clear he
    induction hr with
    | root => exact .inl rfl
    | sub _ hl hdir ih => exact .inr ⟨_, _, h _ _ ih hl, hdir, rfl⟩
  exact h d k hreach he.listed

/-- **Chains of their own make a volume well-formed.** -/
theorem Sound.wellFormed (h : Sound vol v E spare) (hc : Complete vol v E) : WellFormed vol v where
  chain _ _ he := h.chainOf (hc.entry he)
  disjoint d k d' k' he he' hne :=
    h.disjoint (some (d, k)) (some (d', k')) (hc.entry he) (hc.entry he')
      (fun heq => hne (Option.some.inj heq))
  directory d k he := h.directory d k (hc.entry he)

/-! ### Entries that stay -/

/-- **The entries `E` stay**: they keep their places and names, the directories among them
their first cluster, and nobody loses a cluster. -/
structure Kept (vol : Fat16Volume) (v v' : View) (E : Nat → Nat → Prop) : Prop where
  name : ∀ a b, E a b → SameName (record vol v a b) (record vol v' a b)
  cluster : ∀ a b, E a b → (record vol v a b).IsDirectory →
    (record vol v' a b).clusterNumber = (record vol v a b).clusterNumber
  chain : ∀ a b, E a b → chainOf vol v a b <+: chainOf vol v' a b
  listed : ∀ a b, E a b → Listed vol v a b → Listed vol v' a b

namespace Kept

theorem refl (vol : Fat16Volume) (v : View) (E : Nat → Nat → Prop) : Kept vol v v E :=
  ⟨fun _ _ _ => .refl _, fun _ _ _ _ => rfl, fun _ _ _ => List.prefix_refl _, fun _ _ _ h => h⟩

theorem trans (h : Kept vol v v' E) (h' : Kept vol v' v'' E) : Kept vol v v'' E := by
  refine ⟨?_, ?_, ?_, ?_⟩
  · exact fun a b he => (h.name a b he).trans (h'.name a b he)
  · intro a b he hdir
    rw [h'.cluster a b he ((h.name a b he).isDirectory.mpr hdir), h.cluster a b he hdir]
  · exact fun a b he => (h.chain a b he).trans (h'.chain a b he)
  · exact fun a b he hl => h'.listed a b he (h.listed a b he hl)

theorem sub (h : Kept vol v v' E) (hE : ∀ a b, E' a b → E a b) : Kept vol v v' E' :=
  ⟨fun a b he => h.name a b (hE a b he), fun a b he => h.cluster a b (hE a b he),
    fun a b he => h.chain a b (hE a b he), fun a b he => h.listed a b (hE a b he)⟩

/-- **The entries of the volume** are still reached from the root. -/
theorem entry (h : Kept vol v v' (Entry vol v)) (he : Entry vol v d k) : Entry vol v' d k := by
  have hreach : Reach vol v' d := by
    have hr := he.reach
    clear he
    induction hr with
    | root => exact .root
    | sub hd hl hdir ih =>
      have he : Entry vol v _ _ := ⟨hd, hl⟩
      rw [← h.cluster _ _ he hdir]
      exact .sub ih (h.listed _ _ he hl) ((h.name _ _ he).isDirectory.mpr hdir)
  exact ⟨hreach, h.listed d k he he.listed⟩

theorem dirOf (h : Kept vol v v' E) (hd : DirOf vol v' E d) : DirOf vol v E d := by
  rcases hd with hd | ⟨p, j, hp, hdir, rfl⟩
  · exact .inl hd
  · have hdir' := (h.name p j hp).isDirectory.mp hdir
    rw [h.cluster p j hp hdir']
    exact .inr ⟨p, j, hp, hdir', rfl⟩

theorem dirOf_kept (h : Kept vol v v' E) (hd : DirOf vol v E d) : DirOf vol v' E d :=
  hd.mono (fun _ _ h => h) fun p j hp hdir =>
    ⟨(h.name p j hp).isDirectory.mpr hdir, h.cluster p j hp hdir⟩

end Kept

/-- **A set of entries stays complete** if no directory comes to list more. -/
theorem Complete.step (hc : Complete vol v E) (hk : Kept vol v v' E)
    (hl : ∀ a b, DirOf vol v E a → Listed vol v' a b → Listed vol v a b) : Complete vol v' E := by
  intro a b ha hab
  have ha' := hk.dirOf ha
  exact hc a b ha' (hl a b ha' hab)

/-! ### Steps that keep the entries -/

theorem Prepared.kept {spare' : List Nat} (hp : Prepared vol v v' E spare')
    (h : Sound vol v E spare) : Kept vol v v' E := by
  have hrec : ∀ a b, E a b → record vol v' a b = record vol v a b :=
    fun a b he => h.sameRecord hp.dirs he
  refine ⟨?_, ?_, ?_, ?_⟩
  · intro a b he
    rw [hrec a b he]
    exact .refl _
  · intro a b he _
    rw [hrec a b he]
  · intro a b he
    have hchain : chainOf vol v' a b = chainOf vol v a b := by
      rw [chainOf, hrec a b he, (hp.files a b he).chain]
      rfl
    exact hchain ▸ List.prefix_refl _
  · exact fun a b he hl => ((hp.dirs a (h.parent a b he)).listed b).mpr hl

theorem Prepared.complete {spare' : List Nat} (hp : Prepared vol v v' E spare')
    (h : Sound vol v E spare) (hc : Complete vol v E) : Complete vol v' E :=
  hc.step (hp.kept h) fun a b ha hl => ((hp.dirs a ha).listed b).mp hl

theorem chain_prefix_of_same {a b : Nat} (he : E a b)
    (hdirs : ∀ a, DirOf vol v E a → a ≠ d → SameDir vol v v' a)
    (hgrown : v.chain d <+: v'.chain d)
    (hfile : ¬ (record vol v a b).IsDirectory →
      SameFile vol v v' (record vol v a b).clusterNumber) :
    v.chain (record vol v a b).clusterNumber <+: v'.chain (record vol v a b).clusterNumber := by
  by_cases hdir : (record vol v a b).IsDirectory
  · by_cases heq : (record vol v a b).clusterNumber = d
    · rw [heq]
      exact hgrown
    · have hchain := (hdirs _ (.inr ⟨a, b, he, hdir, rfl⟩) heq).chain
      exact hchain ▸ List.prefix_refl _
  · exact (hfile hdir).chain ▸ List.prefix_refl _

theorem listed_of_siblings {a b : Nat} (hl : Listed vol v a b)
    (hin : ∀ m, InDir vol v d m → InDir vol v' d m)
    (hdirs : a ≠ d → SameDir vol v v' a) (hname : SameName (record vol v d k) (record vol v' d k))
    (hsib : ∀ j, j ≠ k → InDir vol v d (j * 32 + 32) → record vol v' d j = record vol v d j) :
    Listed vol v' a b := by
  by_cases ha : a = d
  · subst ha
    refine hl.mono (hin _ hl.inDir) fun j hj => ?_
    by_cases hjk : j = k
    · subst hjk
      exact hname
    · rw [hsib j hjk (hl.inDir.mono (by omega))]
      exact .refl _
  · exact ((hdirs ha).listed b).mpr hl

/-- **A call on a file** keeps the entries. -/
theorem Changed.kept (hc : Changed vol v v' E d k r) (h : Sound vol v E spare)
    (hfile : ¬ (Fat.record vol v d k).IsDirectory) (hname : SameName (Fat.record vol v d k) r) :
    Kept vol v v' E := by
  have hself : SameName (Fat.record vol v d k) (Fat.record vol v' d k) := hc.record ▸ hname
  refine ⟨?_, ?_, ?_, ?_⟩
  · intro a b hab
    by_cases heq : (a, b) = (d, k)
    · cases heq
      exact hself
    · rw [hc.record_of_ne h hab heq]
      exact .refl _
  · intro a b hab hdir
    rw [hc.record_of_ne h hab fun heq => by cases heq; exact hfile hdir]
  · intro a b hab
    by_cases heq : (a, b) = (d, k)
    · cases heq
      exact hc.chain
    · rw [chainOf, chainOf, hc.record_of_ne h hab heq]
      exact chain_prefix_of_same hab hc.dirs hc.dirChain (hc.files a b hab heq)
  · intro a b hab hl
    exact listed_of_siblings hl hc.inDir (hc.dirs a (h.parent a b hab)) hself hc.siblings

/-- **An entry is rewritten** under its name and with its chain. -/
theorem Sound.kept_of_rewrite (h : Sound vol v E spare) (he : E d k)
    (hw : DirWritten vol v v' d ext (k * 32) r.toBytes) (hname : SameName (record vol v d k) r)
    (hcluster : r.clusterNumber = (record vol v d k).clusterNumber) : Kept vol v v' E := by
  have hd := h.parent d k he
  have hrec : record vol v' d k = r := hw.record_self
  have hself : SameName (record vol v d k) (record vol v' d k) := hrec ▸ hname
  obtain ⟨hdirs, hfiles, -⟩ := h.frame_dir hd hw
  have hclusters : ∀ a b, E a b →
      (record vol v' a b).clusterNumber = (record vol v a b).clusterNumber := by
    intro a b hab
    by_cases heq : (a, b) = (d, k)
    · cases heq
      rw [hrec, hcluster]
    · rw [h.record_rewrite hd hw hab heq]
  refine ⟨?_, fun a b hab _ => hclusters a b hab, ?_, ?_⟩
  · intro a b hab
    by_cases heq : (a, b) = (d, k)
    · cases heq
      exact hself
    · rw [h.record_rewrite hd hw hab heq]
      exact .refl _
  · intro a b hab
    rw [Fat.chainOf, Fat.chainOf, hclusters a b hab]
    exact chain_prefix_of_same hab hdirs (hw.chain_prefix (h.isDir hd)) (hfiles a b hab)
  · intro a b hab hl
    exact listed_of_siblings hl hw.inDir (hdirs a (h.parent a b hab)) hself
      fun j hj hin => hw.record_of_ne hin hj

/-! ### The end of a directory -/

/-- The directory ends at index `n`: the first entry that starts with a zero. -/
structure DirEnd (vol : Fat16Volume) (v : View) (d n : Nat) : Prop where
  inDir : InDir vol v d (n * 32 + 32)
  zero : (record vol v d n).firstByte = 0
  before : ∀ j < n, (record vol v d j).firstByte ≠ 0

namespace DirEnd

theorem lt_of_listed (h : DirEnd vol v d n) (hl : Listed vol v d k) : k < n := by
  by_contra hk
  exact hl.before n (by omega) h.zero

theorem congr (h : DirEnd vol v d n) (hsame : SameDir vol v v' d) : DirEnd vol v' d n := by
  refine ⟨(hsame.inDir _).mpr h.inDir, ?_, ?_⟩
  · rw [hsame.record]
    exact h.zero
  · intro j hj
    rw [hsame.record]
    exact h.before j hj

theorem listed (h : DirEnd vol v d n) (hname : ∀ j ≤ n, SameName (record vol v d j) (record vol v' d j))
    (hl : Listed vol v' d k) : Listed vol v d k := by
  have hlt : k < n := by
    by_contra hk
    refine hl.before n (by omega) ?_
    rw [(hname n (le_refl n)).firstByte]
    exact h.zero
  exact hl.mono (h.inDir.mono (by omega)) fun j hj => (hname j (by omega)).symm

end DirEnd

/-- The directory consists of the end sentinel. -/
structure EmptyDir (vol : Fat16Volume) (v : View) (d : Nat) : Prop where
  inDir : InDir vol v d 32
  sentinel : record vol v d 0 = endSentinel

theorem EmptyDir.dirEnd (h : EmptyDir vol v d) : DirEnd vol v d 0 := by
  refine ⟨h.inDir, ?_, fun j hj => absurd hj (Nat.not_lt_zero j)⟩
  rw [h.sentinel]
  rfl

theorem EmptyDir.congr (h : EmptyDir vol v d) (hsame : SameDir vol v v' d) : EmptyDir vol v' d :=
  ⟨(hsame.inDir _).mpr h.inDir, (hsame.record 0).trans h.sentinel⟩

/-! ### An entry is rewritten -/

/-- The entry `k` of the directory `d` can be rewritten: the clusters that this may add to the
directory, which are not cleared, lie behind its end. -/
def Closed (vol : Fat16Volume) (v : View) (d k : Nat) : Prop :=
  Inner vol v d k ∨ ∃ n, DirEnd vol v d n

/-- **A set of entries stays complete** when one of them is rewritten under its name. -/
theorem Complete.rewrite (hc : Complete vol v E) (hk : Kept vol v v' E)
    (hclosed : Closed vol v d k) (hinner : Inner vol v d k → v'.chain d = v.chain d)
    (hdirs : ∀ a, DirOf vol v E a → a ≠ d → SameDir vol v v' a)
    (hname : SameName (record vol v d k) (record vol v' d k))
    (hsib : ∀ j, j ≠ k → InDir vol v d (j * 32 + 32) → record vol v' d j = record vol v d j) :
    Complete vol v' E := by
  have hnames : ∀ j, InDir vol v d (j * 32 + 32) →
      SameName (record vol v d j) (record vol v' d j) := by
    intro j hin
    by_cases hj : j = k
    · subst hj
      exact hname
    · rw [hsib j hj hin]
      exact .refl _
  refine hc.step hk fun a b ha hl => ?_
  by_cases had : a = d
  · subst had
    rcases hclosed with hin | ⟨n, hend⟩
    · have hin' : InDir vol v a (b * 32 + 32) := by
        have := hl.inDir
        rwa [InDir, hinner hin] at this
      exact hl.mono hin' fun j hj => (hnames j (hin'.mono (by omega))).symm
    · exact hend.listed (fun j hj => hnames j (hend.inDir.mono (by omega))) hl
  · exact ((hdirs a ha had).listed b).mp hl

/-- A chain leads past all its clusters but the last. -/
theorem IsChain.passes {l : List Nat} {c m : Nat} (h : IsChain vol v (c :: l)) (hm : m ≤ l.length) :
    Passes vol v m c := by
  induction m generalizing c l with
  | zero => trivial
  | succ m ih =>
    rcases h.fat_head with ⟨rfl, -⟩ | ⟨d, rest, rfl, hd, hend⟩
    · exact absurd hm (by simp)
    · refine ⟨h.head_inRange, hend, ?_⟩
      rw [hd]
      exact ih h.tail (by simpa using hm)

theorem turns_entry (hg : Geometry vol) (k : Nat) :
    turns vol (k * 32) 32 = k * 32 / bytesPerCluster vol + 1 := by
  obtain ⟨m, hm⟩ := hg.aligned_bytesPerCluster
  have hpos := hg.bytesPerCluster_pos
  have hsub : k * 32 + 32 - 1 = 31 + 32 * k := by omega
  rw [turns, if_neg (by omega), hm, ← Nat.div_div_eq_div_mul, ← Nat.div_div_eq_div_mul, hsub,
    Nat.add_mul_div_left _ _ (by omega), Nat.mul_div_cancel _ (by omega)]
  simp

/-- **The entry of a node** is rewritten in place unless it lies in the last cluster. -/
theorem writeParentDirent_inner (hg : Geometry vol) {disk disk' : Mem} {ino : Nat}
    (h : HasDirent vol (view vol disk) ino)
    (hw : writeParentDirent vol disk ino r = .ok disk')
    (hin : Inner vol (view vol disk) (getParentClusterNum ino) (getDirentIndexInParent ino)) :
    (view vol disk').chain (getParentClusterNum ino) =
      (view vol disk).chain (getParentClusterNum ino) := by
  apply chain_congr
  apply SameTables.fat hg
  apply writeParentDirent_tables hg _ hw
  rcases hin with hroot | hlt
  · exact .inl hroot
  · rcases h.isDir with hroot | ⟨hvalid, hc⟩
    · exact .inl hroot
    · refine .inr ?_
      rw [chain_eq_cons _ hvalid] at hc hlt
      rw [Fits, turns_entry hg]
      apply hc.passes
      rw [List.length_cons] at hlt
      omega

/-! ### Entries at the end of a directory -/

theorem getD_flatMap_toBytes (entries : List Fat16DirectoryEntry) {j : Nat} (hj : j < entries.length)
    (i : Fin 32) : (entries.flatMap toBytes).getD (32 * j + i.val) 0 = entries[j] i := by
  have hi := i.isLt
  induction entries generalizing j with
  | nil => exact absurd hj (Nat.not_lt_zero j)
  | cons e entries ih =>
    rw [List.flatMap_cons]
    cases j with
    | zero =>
      rw [List.getD_append _ _ _ _ (by rw [length_toBytes]; omega), Nat.mul_zero, Nat.zero_add,
        e.getD_toBytes hi, List.getElem_cons_zero]
    | succ j =>
      rw [List.getD_append_right _ _ _ _ (by rw [length_toBytes]; omega), length_toBytes,
        show 32 * (j + 1) + i.val - 32 = 32 * j + i.val by omega, ih (by simpa using hj),
        List.getElem_cons_succ]

theorem DirWritten.record_entries {entries : List Fat16DirectoryEntry}
    (h : DirWritten vol v v' d ext (n * 32) (entries.flatMap toBytes)) {j : Nat}
    (hj : j < entries.length) : record vol v' d (n + j) = entries[j] := by
  funext i
  have hi := i.isLt
  have hlen := length_flatMap_toBytes entries
  rw [record, h.bytes _ (.inr ⟨by omega, by omega⟩), Mem.write_of_mem _ _ (by omega) (by omega),
    show (n + j) * 32 + i.val - n * 32 = 32 * j + i.val by omega, getD_flatMap_toBytes _ hj]

/-- The entries with one more. -/
def withEntry (E : Nat → Nat → Prop) (d m : Nat) (a b : Nat) : Prop := E a b ∨ (a, b) = (d, m)

section

variable {long : List Fat16DirectoryEntry}

/-- Entries are put over the end of the directory `d`: parts of a long name, the entry `r` and
a new end.  The clusters of `r` are the spare chain. -/
structure Appended (vol : Fat16Volume) (v v' : View) (E : Nat → Nat → Prop) (spare : List Nat)
    (d n : Nat) (long : List Fat16DirectoryEntry) (r : Fat16DirectoryEntry) (ext : List Nat) :
    Prop where
  dirOf : DirOf vol v E d
  dirEnd : DirEnd vol v d n
  written : DirWritten vol v v' d ext (n * 32) ((long ++ [r, endSentinel]).flatMap toBytes)
  parts : ∀ e ∈ long, e.attributes = fileAttributesLfn
  chain : v.chain r.clusterNumber = spare
  /-- a new directory is empty -/
  directory : r.IsDirectory → isInvalidClusterNum r.clusterNumber = false ∧
    EmptyDir vol v r.clusterNumber

namespace Appended

variable (ha : Appended vol v v' E spare d n long r ext)
include ha

theorem record_part {j : Nat} (hj : j < long.length) : record vol v' d (n + j) = long[j] := by
  rw [ha.written.record_entries (by rw [List.length_append]; omega), List.getElem_append_left hj]

theorem record_new : record vol v' d (n + long.length) = r := by
  rw [ha.written.record_entries (by simp), List.getElem_append_right (le_refl _)]
  simp

theorem record_end : record vol v' d (n + long.length + 1) = endSentinel := by
  rw [Nat.add_assoc, ha.written.record_entries (by simp),
    List.getElem_append_right (by omega)]
  simp

theorem record_old {j : Nat} (hj : j < n) : record vol v' d j = record vol v d j := by
  apply ha.written.record_of_disjoint
  · exact ha.dirEnd.inDir.mono (by omega)
  · omega

theorem room {j : Nat} (hj : j < long.length + 2) : InDir vol v' d ((n + j) * 32 + 32) := by
  have hroom := ha.written.room (by simp [toBytes])
  rw [length_flatMap_toBytes, List.length_append] at hroom
  exact hroom.mono (by simp only [List.length_cons, List.length_nil]; omega)

theorem dirEnd_after (hparts : ∀ e ∈ long, e.firstByte ≠ 0) (hr : r.firstByte ≠ 0) :
    DirEnd vol v' d (n + long.length + 1) := by
  refine ⟨?_, ?_, ?_⟩
  · rw [Nat.add_assoc]
    exact ha.room (by omega)
  · rw [ha.record_end]
    rfl
  · intro j hj
    rcases Nat.lt_or_ge j n with hlt | hge
    · rw [ha.record_old hlt]
      exact ha.dirEnd.before j hlt
    · obtain ⟨i, rfl⟩ := Nat.exists_eq_add_of_le hge
      rcases Nat.lt_or_ge i long.length with hi | hi
      · rw [ha.record_part hi]
        exact hparts _ (List.getElem_mem hi)
      · obtain rfl : i = long.length := by omega
        rw [ha.record_new]
        exact hr

variable (h : Sound vol v E spare)
include h

theorem emptyDir_new (hdir : r.IsDirectory) : EmptyDir vol v' r.clusterNumber := by
  obtain ⟨hvalid, hempty⟩ := ha.directory hdir
  have hsame := (h.frame_dir ha.dirOf ha.written).2.2 _ ha.chain
  exact hempty.congr (hsame.sameDir hvalid)

theorem clusterNumber_ne (hdir : r.IsDirectory) : r.clusterNumber ≠ d := by
  intro heq
  have hdisj : (v.chain d).Disjoint spare := h.dir_disjoint (o := none) ha.dirOf trivial (by simp)
  have hmem : d ∈ v.chain d := by
    rw [← heq, chain_eq_cons v (ha.directory hdir).1]
    exact List.mem_cons_self ..
  refine hdisj hmem ?_
  rw [← ha.chain, heq]
  exact hmem

variable (hlisted : ∀ a b, E a b → Listed vol v a b)
include hlisted

theorem record_kept {a b : Nat} (he : E a b) : record vol v' a b = record vol v a b := by
  by_cases had : a = d
  · subst had
    exact ha.record_old (ha.dirEnd.lt_of_listed (hlisted a b he))
  · exact ((h.frame_dir ha.dirOf ha.written).1 a (h.parent a b he) had).record b

theorem kept : Kept vol v v' E := by
  have hrec := fun {a b : Nat} => ha.record_kept h hlisted (a := a) (b := b)
  obtain ⟨hdirs, hfiles, -⟩ := h.frame_dir ha.dirOf ha.written
  refine ⟨?_, ?_, ?_, ?_⟩
  · intro a b he
    rw [hrec he]
    exact .refl _
  · intro a b he _
    rw [hrec he]
  · intro a b he
    rw [chainOf, chainOf, hrec he]
    exact chain_prefix_of_same he hdirs (ha.written.chain_prefix (h.isDir ha.dirOf))
      (hfiles a b he)
  · intro a b he hl
    by_cases had : a = d
    · subst had
      refine hl.mono (ha.written.inDir _ hl.inDir) fun j hj => ?_
      have hlt := ha.dirEnd.lt_of_listed hl
      rw [ha.record_old (by omega)]
      exact .refl _
    · exact ((hdirs a (h.parent a b he) had).listed b).mpr hl

/-- **The chains stay apart**, and the new entry has the spare one. -/
theorem sound : Sound vol v' (withEntry E d (n + long.length)) [] := by
  have hkept := ha.kept h hlisted
  have hnew : ∀ {a b : Nat}, withEntry E d (n + long.length) a b → (a, b) ≠ (d, n + long.length) →
      E a b := fun he hne => he.resolve_right hne
  have hdirs := (h.frame_dir ha.dirOf ha.written).1
  have hparent : ∀ a, DirOf vol v E a → DirOf vol v' (withEntry E d (n + long.length)) a :=
    fun a had => had.mono (fun _ _ => .inl) fun p j hp hdir =>
      ⟨(hkept.name p j hp).isDirectory.mpr hdir, hkept.cluster p j hp hdir⟩
  refine h.dir_step ha.dirOf ha.written.grown (d, n + long.length) ?_ ?_ ?_ ?_ ?_
  · intro a b he hne
    exact ⟨hnew he hne, by rw [ha.record_kept h hlisted (hnew he hne)]⟩
  · refine .inr ⟨?_, rfl⟩
    show v.chain (record vol v' d (n + long.length)).clusterNumber = spare
    rw [ha.record_new]
    exact ha.chain
  · intro a b he hdir
    rcases he with he | heq
    · rw [ha.record_kept h hlisted he] at hdir ⊢
      exact h.directory a b he hdir
    · cases heq
      rw [ha.record_new] at hdir ⊢
      exact (ha.directory hdir).1
  · intro a b he
    rcases he with he | heq
    · by_cases had : a = d
      · subst had
        exact ha.written.inDir _ (h.inDir a b he)
      · exact ((hdirs a (h.parent a b he) had).inDir _).mpr (h.inDir a b he)
    · cases heq
      exact ha.room (by omega)
  · intro a b he
    rcases he with he | heq
    · exact hparent a (h.parent a b he)
    · cases heq
      exact hparent d ha.dirOf

/-- **Nothing but the new entry is listed.** -/
theorem complete (hc : Complete vol v E) : Complete vol v' (withEntry E d (n + long.length)) := by
  have hold : ∀ a b, DirOf vol v E a → Listed vol v' a b →
      withEntry E d (n + long.length) a b := by
    intro a b had hl
    by_cases heq : a = d
    · subst heq
      rcases Nat.lt_or_ge b n with hlt | hge
      · refine .inl (hc a b had (hl.mono (ha.dirEnd.inDir.mono (by omega)) fun j hj => ?_))
        rw [ha.record_old (by omega)]
        exact .refl _
      · obtain ⟨i, rfl⟩ := Nat.exists_eq_add_of_le hge
        rcases Nat.lt_trichotomy i long.length with hi | hi | hi
        · -- a part of the long name
          have hnames := hl.names.1
          rw [ha.record_part hi] at hnames
          exact absurd (ha.parts _ (List.getElem_mem hi)) hnames
        · exact .inr (by rw [hi])
        · refine absurd ?_ (hl.before (n + long.length + 1) (by omega))
          rw [ha.record_end]
          rfl
    · have hsame := (h.frame_dir ha.dirOf ha.written).1 a had heq
      exact .inl (hc a b had ((hsame.listed b).mp hl))
  intro a b had hl
  rcases had with rfl | ⟨p, j, hp, hdir, rfl⟩
  · exact hold _ b (.inl rfl) hl
  · rcases hp with hp | heq
    · rw [ha.record_kept h hlisted hp] at hdir hl ⊢
      exact hold _ b (.inr ⟨p, j, hp, hdir, rfl⟩) hl
    · cases heq
      rw [ha.record_new] at hdir hl
      exact absurd ((ha.emptyDir_new h hdir).dirEnd.lt_of_listed hl) (Nat.not_lt_zero b)

end Appended

end

end Stuos.Fs.Fat
