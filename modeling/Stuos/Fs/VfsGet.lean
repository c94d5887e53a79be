import Stuos.Fs.Mounting
import Stuos.Fs.VNode

/-!
# Looking a path up

`rs_vfs_get` in `fs2.rs`: normalise, pick the mount, walk a list of segments from its
root one directory at a time, compare the mode of the node reached with `O_DIRECTORY`.
A filesystem is what its nodes answer to `read_dirents` and `stat_file`.  The code panics at a
node without `read_dirents` (a block device), and at a name in a directory that is not UTF-8.

The purpose of the lookup is `vfsSpec`: from the longest-prefix mount, descend the rest
of the path, a missing name being `ENOENT`, and compare `S_ISDIR` with `O_DIRECTORY`.

* `rs_vfs_get_meets_spec_iff`: exactly when the code does that.  `full_path` is shadowed
  by the mount's own path, so the segments walked are the mount's and not the rest; and
  the directory bit of a mode is also set for block devices.
-/

namespace Stuos.Fs

open Stuos.Lib

variable {V : Type}

/-- The filesystem behind the nodes: `read_dirents`, whose answers from index 0 on are
a finite list, if the node has that function, and the mode `stat_file` reports.  A name is the
bytes of `d_name`. -/
structure Filesystem (V : Type) where
  readDirents : V → Option (List (List UInt8 × V))
  stMode : V → Nat

/-- `OpenOptions`. -/
structure OpenOptions where
  oCreat : Bool
  oAppend : Bool
  oDirectory : Bool
  oTrunc : Bool
  deriving DecidableEq, Repr

inductive VfsGetError
  | pathWithCwdErr (e : PathWithCwdErr)
  | eNotDir
  | eNoEnt
  deriving DecidableEq, Repr

/-- Where `rs_vfs_get` panics. -/
inductive VfsPanic
  | notEvenRootIsMounted
  | noReadDirents
  /-- the `unwrap` of `to_str` -/
  | notUtf8
  | findTheNewlyCreatedFile
  deriving DecidableEq, Repr

/-- Why `rs_vfs_get` did not return a node. -/
inductive VfsStop
  | error (e : VfsGetError)
  | panic (p : VfsPanic)
  deriving DecidableEq, Repr

/-- `CStr::to_str`. -/
def toStr (bytes : List UInt8) : Option Segment :=
  (ByteArray.utf8Decode? ⟨bytes.toArray⟩).map Array.toList

/-- The loop of `directory_lookup`, one entry a round; `none` is `Err(())`. -/
def scanDirents (name : Segment) : List (List UInt8 × V) → Except VfsStop (Option V)
  | [] => .ok none
  | (dName, vnode) :: rest =>
    match toStr dName with
    | none => .error (.panic .notUtf8)
    | some itemName => if itemName = name then .ok (some vnode) else scanDirents name rest

def directoryLookup (fs : Filesystem V) (dir : V) (name : Segment) :
    Except VfsStop (Option V) :=
  match fs.readDirents dir with
  | none => .error (.panic .noReadDirents)
  | some dirents => scanDirents name dirents

/-- The loop of `rs_vfs_get` over the segments. -/
def walkSegments (fs : Filesystem V) (openFlags : OpenOptions) (curr : V) :
    List Segment → Except VfsStop V
  | [] => .ok curr
  | segment :: rest =>
    match directoryLookup fs curr segment with
    | .error e => .error e
    | .ok (some vnode) => walkSegments fs openFlags vnode rest
    | .ok none =>
      -- the created file is never looked up again, so creating ends in a panic
      if rest = [] ∧ openFlags.oCreat then .error (.panic .findTheNewlyCreatedFile)
      else .error (.error .eNoEnt)

/-- The mount whose root the walk starts at and the segments it goes through: the name
`full_path` is bound again, to the mount's path, and the loop takes its segments. -/
def walkPlan (mounts : Mounts V) (fullPath : AbsolutePath) :
    Option ((AbsolutePath × V) × List Segment) :=
  (rsVfsResolveMount mounts fullPath).map fun m => (m, m.1.intoIter)

def rsVfsGet (mounts : Mounts V) (fs : Filesystem V) (cwd : AbsolutePath) (path : List Char)
    (openFlags : OpenOptions) : Except VfsStop V :=
  match AbsolutePath.withCwd cwd path with
  | .error e => .error (.error (.pathWithCwdErr e))
  | .ok fullPath =>
    match walkPlan mounts fullPath with
    | none => .error (.panic .notEvenRootIsMounted)
    | some plan =>
      match walkSegments fs openFlags plan.1.2 plan.2 with
      | .error e => .error e
      | .ok curr =>
        if (fs.stMode curr &&& sIfdir != 0) != openFlags.oDirectory then .error (.error .eNotDir)
        else .ok curr

/-! ### What the lookup is for -/

/-- The first entry that has the name. -/
def named (name : Segment) (dirents : List (List UInt8 × V)) : Option V :=
  (dirents.find? fun e => toStr e.1 = some name).map Prod.snd

/-- The node reached by following names; a node that cannot be searched has no names. -/
def descend (fs : Filesystem V) (v : V) : List Segment → Option V
  | [] => some v
  | s :: rest =>
    match named s ((fs.readDirents v).getD []) with
    | none => none
    | some w => descend fs w rest

/-- The segments of the path below the mount point. -/
def remaining (m : AbsolutePath × V) (fullPath : AbsolutePath) : List Segment :=
  fullPath.segments.drop m.1.segments.length

/-- The answer for a path below a mount. -/
def vfsSpec (fs : Filesystem V) (m : AbsolutePath × V) (fullPath : AbsolutePath)
    (oDirectory : Bool) : Except VfsStop V :=
  match descend fs m.2 (remaining m fullPath) with
  | none => .error (.error .eNoEnt)
  | some v => if sIsdir (fs.stMode v) != oDirectory then .error (.error .eNotDir) else .ok v

/-- The mount `c` comes out of the table: at least as many segments as every textual
prefix added before it, more than every one added after it. -/
def WinsInTable (mounts : Mounts V) (path : AbsolutePath) (c : AbsolutePath × V) : Prop :=
  ∃ older newer, mounts = older ++ c :: newer ∧
    (∀ m ∈ older, path.isSubpathOf m.1 = true → m.1.intoIter.length ≤ c.1.intoIter.length) ∧
    ∀ m ∈ newer, path.isSubpathOf m.1 = true → m.1.intoIter.length < c.1.intoIter.length

/-- The names in front of the first entry that has the name are texts. -/
def Legible (name : Segment) (dirents : List (List UInt8 × V)) : Prop :=
  ∀ e ∈ dirents.takeWhile (fun e => toStr e.1 ≠ some name), (toStr e.1).isSome

/-- Every node at which a name of `names` is still to be looked up has `read_dirents`, and legible
names up to that one. -/
def Searchable (fs : Filesystem V) (v : V) (names : List Segment) : Prop :=
  ∀ front name back, names = front ++ name :: back →
    ∀ d, descend fs v front = some d → ∃ dirents, fs.readDirents d = some dirents ∧
      Legible name dirents

/-- A mode whose directory bit is set only for directories. -/
def DirBitExact (mode : Nat) : Prop := mode &&& sIfdir ≠ 0 → sIsdir mode = true

/-! ### One directory -/

theorem scanDirents_eq_named {name : Segment} {dirents : List (List UInt8 × V)} :
    Legible name dirents → scanDirents name dirents = .ok (named name dirents) := by
  induction dirents with
  | nil =>
    intro _
    rfl
  | cons e rest ih =>
    intro h
    by_cases hname : toStr e.1 = some name
    · simp [scanDirents, named, hname]
    · have htake : (e :: rest).takeWhile (fun e => toStr e.1 ≠ some name) =
          e :: rest.takeWhile (fun e => toStr e.1 ≠ some name) := by
        simp [hname]
      rw [Legible, htake, List.forall_mem_cons] at h
      obtain ⟨itemName, htext⟩ := Option.isSome_iff_exists.mp h.1
      have hother : itemName ≠ name := fun he => hname (by rw [htext, he])
      have hrest := ih h.2
      rw [named] at hrest
      simp [scanDirents, named, htext, hother, hrest]

theorem scanDirents_panics {name : Segment} {dirents : List (List UInt8 × V)} :
    ¬ Legible name dirents → scanDirents name dirents = .error (.panic .notUtf8) := by
  induction dirents with
  | nil =>
    intro h
    exact absurd (by simp [Legible]) h
  | cons e rest ih =>
    intro h
    by_cases hname : toStr e.1 = some name
    · exact absurd (by simp [Legible, hname]) h
    · cases htext : toStr e.1 with
      | none => simp [scanDirents, htext]
      | some itemName =>
        have hother : itemName ≠ name := fun he => hname (by rw [htext, he])
        have hrest : ¬ Legible name rest := by
          intro hl
          refine h ?_
          rw [Legible, List.takeWhile_cons_of_pos (by simpa using hname), List.forall_mem_cons]
          exact ⟨by simp [htext], hl⟩
        simp [scanDirents, htext, hother, ih hrest]

/-! ### The walk -/

theorem searchable_nil (fs : Filesystem V) (v : V) : Searchable fs v [] := by
  intro front name back h
  simp at h

theorem searchable_cons {fs : Filesystem V} {v : V} {s : Segment} {rest : List Segment} :
    Searchable fs v (s :: rest) ↔
      (∃ dirents, fs.readDirents v = some dirents ∧ Legible s dirents) ∧
      ∀ w, named s ((fs.readDirents v).getD []) = some w → Searchable fs w rest := by
  constructor
  · intro h
    refine ⟨h [] s rest rfl v rfl, ?_⟩
    intro w hw front name back hn d hd
    refine h (s :: front) name back (by rw [hn]; rfl) d ?_
    rw [descend, hw]
    exact hd
  · rintro ⟨h0, h1⟩ front name back hn d hd
    cases front with
    | nil =>
      obtain ⟨rfl, -⟩ : s = name ∧ rest = back := by simpa using hn
      obtain rfl : v = d := by simpa [descend] using hd
      exact h0
    | cons t front =>
      obtain ⟨rfl, rfl⟩ : s = t ∧ rest = front ++ name :: back := by simpa using hn
      rw [descend] at hd
      cases hw : named s ((fs.readDirents v).getD []) with
      | none => simp [hw] at hd
      | some w =>
        simp only [hw] at hd
        exact h1 w hw front name back rfl d hd

/-- Without `O_CREAT` and through nodes that can be searched, the loop is `descend`. -/
theorem walkSegments_eq_descend {fs : Filesystem V} {openFlags : OpenOptions}
    (hc : openFlags.oCreat = false) (names : List Segment) :
    ∀ v, Searchable fs v names → walkSegments fs openFlags v names =
      match descend fs v names with
      | none => .error (.error .eNoEnt)
      | some w => .ok w := by
  induction names with
  | nil =>
    intro v _
    rfl
  | cons s rest ih =>
    intro v hs
    obtain ⟨⟨dirents, hd, hl⟩, h1⟩ := searchable_cons.mp hs
    rw [hd, Option.getD_some] at h1
    rw [walkSegments, directoryLookup, descend, hd, Option.getD_some]
    simp only [scanDirents_eq_named hl]
    cases hw : named s dirents with
    | none => simp [hc]
    | some w => exact ih w (h1 w hw)

/-- Otherwise it panics, at the first node that cannot be searched. -/
theorem walkSegments_panics {fs : Filesystem V} {openFlags : OpenOptions} (names : List Segment) :
    ∀ v, ¬ Searchable fs v names → ∃ p, walkSegments fs openFlags v names = .error (.panic p) := by
  induction names with
  | nil =>
    intro v hs
    exact absurd (searchable_nil fs v) hs
  | cons s rest ih =>
    intro v hs
    rw [searchable_cons] at hs
    rw [walkSegments, directoryLookup]
    cases hd : fs.readDirents v with
    | none => exact ⟨.noReadDirents, rfl⟩
    | some dirents =>
      by_cases hl : Legible s dirents
      · simp only [hd, Option.some.injEq, exists_eq_left', hl, true_and, Option.getD_some,
          not_forall] at hs
        obtain ⟨w, hw, hns⟩ := hs
        simp only [scanDirents_eq_named hl, hw]
        exact ih w hns
      · simp only [scanDirents_panics hl]
        exact ⟨.notUtf8, rfl⟩

/-! ### The two slips -/

theorem remaining_append {c : AbsolutePath × V} {fullPath : AbsolutePath}
    (h : Above c fullPath) : c.1.segments ++ remaining c fullPath = fullPath.segments :=
  List.prefix_iff_eq_append.mp h

theorem remaining_of_twice {c : AbsolutePath × V} {fullPath : AbsolutePath}
    (h : fullPath.segments = c.1.segments ++ c.1.segments) :
    remaining c fullPath = c.1.segments := by
  rw [remaining, h, List.drop_left]

/-- The segments walked are the rest of the path only if the path is the mount's path
twice over. -/
theorem intoIter_eq_remaining_iff {c : AbsolutePath × V} {fullPath : AbsolutePath}
    (h : Above c fullPath) :
    c.1.intoIter = remaining c fullPath ↔
      c.1 ≠ AbsolutePath.root ∧ fullPath.segments = c.1.segments ++ c.1.segments := by
  constructor
  · intro he
    have hr : c.1 ≠ AbsolutePath.root := by
      intro hroot
      -- the root's iterator yields one empty name, which starts no path but the root
      have hfull : fullPath.segments = [[]] := by
        rw [← remaining_append h, ← he, hroot]
        rfl
      have hdata : fullPath.data = [] := by
        rw [← AbsolutePath.intercalate_segments, hfull]
        rfl
      have : fullPath = AbsolutePath.root := by
        cases fullPath
        exact congrArg AbsolutePath.mk hdata
      rw [this] at hfull
      simp at hfull
    refine ⟨hr, ?_⟩
    rw [← remaining_append h, ← he, AbsolutePath.segments_of_ne_root hr]
  · rintro ⟨hr, hf⟩
    rw [remaining_of_twice hf, AbsolutePath.segments_of_ne_root hr]

/-- The code's directory test and `S_ISDIR` agree on a mode. -/
theorem dirBit_eq_sIsdir_iff (mode : Nat) :
    (mode &&& sIfdir != 0) = sIsdir mode ↔ DirBitExact mode := by
  unfold DirBitExact
  by_cases hd : sIsdir mode = true
  · have hbit : mode &&& sIfdir ≠ 0 := by
      intro h0
      have hm : mode &&& sIfmt = sIfdir := by simpa [sIsdir] using hd
      have : sIfdir &&& sIfdir = 0 := by
        calc sIfdir &&& sIfdir = (mode &&& sIfmt) &&& sIfdir := by rw [hm]
          _ = (mode &&& sIfdir) &&& sIfmt := by rw [Nat.and_assoc, Nat.and_comm sIfmt, Nat.and_assoc]
          _ = 0 := by rw [h0, Nat.zero_and]
      simp [sIfdir] at this
    simp [hd, hbit]
  · simp [hd]

/-! ### The lookup -/

theorem exists_longestPrefix_of_root {mounts : Mounts V}
    (hroot : ∃ m ∈ mounts, m.1 = AbsolutePath.root) (path : AbsolutePath) :
    ∃ c, LongestPrefix mounts path (some c) := by
  obtain ⟨m, hm, hr⟩ := hroot
  rcases exists_longestPrefix mounts path with hn | hc
  · exact absurd (above_root hr path) (hn m hm)
  · exact hc

theorem walkPlan_eq_iff {mounts : Mounts V} {fullPath : AbsolutePath} {c : AbsolutePath × V}
    (hc : Above c fullPath) :
    walkPlan mounts fullPath = some (c, remaining c fullPath) ↔
      WinsInTable mounts fullPath c ∧ c.1 ≠ AbsolutePath.root ∧
        fullPath.segments = c.1.segments ++ c.1.segments := by
  rw [← intoIter_eq_remaining_iff hc, WinsInTable]
  have hsel : rsVfsResolveMount mounts fullPath = some c ↔ _ := rsVfsResolveMount_eq_some_iff
  simp only [hc.isSubpathOf, true_and] at hsel
  rw [← hsel, walkPlan]
  simp only [Option.map_eq_some_iff, Prod.mk.injEq]
  constructor
  · rintro ⟨m, hm, rfl, hi⟩
    exact ⟨hm, hi⟩
  · rintro ⟨hm, hi⟩
    exact ⟨c, hm, rfl, hi⟩

/-- Once the right segments are walked from the right mount, the answer is right if every
node searched can be and the mode of the node reached is told correctly. -/
theorem rsVfsGet_eq_vfsSpec_iff {mounts : Mounts V} {fs : Filesystem V} {cwd : AbsolutePath}
    {path : List Char} {fullPath : AbsolutePath} (hfull : cwd.withCwd path = .ok fullPath)
    {openFlags : OpenOptions} (hcreat : openFlags.oCreat = false) {c : AbsolutePath × V}
    (hplan : walkPlan mounts fullPath = some (c, remaining c fullPath)) :
    rsVfsGet mounts fs cwd path openFlags = vfsSpec fs c fullPath openFlags.oDirectory ↔
      Searchable fs c.2 (remaining c fullPath) ∧
        ∀ v, descend fs c.2 (remaining c fullPath) = some v → DirBitExact (fs.stMode v) := by
  rw [rsVfsGet, hfull]
  simp only [hplan, vfsSpec]
  by_cases hs : Searchable fs c.2 (remaining c fullPath)
  · rw [walkSegments_eq_descend hcreat _ _ hs]
    cases hd : descend fs c.2 (remaining c fullPath) with
    | none => simp [hs]
    | some v =>
      simp only [hs, true_and, Option.some.injEq, forall_eq', ← dirBit_eq_sIsdir_iff]
      cases fs.stMode v &&& sIfdir != 0 <;> cases sIsdir (fs.stMode v) <;>
        cases openFlags.oDirectory <;> simp
  · obtain ⟨p, hp⟩ := @walkSegments_panics V fs openFlags _ _ hs
    simp only [hp, hs, false_and, iff_false]
    intro h
    split at h
    · simp at h
    · split at h <;> simp at h

/-- **When `rs_vfs_get` resolves a path as it should**: `c` wins its ties in the table, the
path is `c`'s path twice over, every node searched has `read_dirents` and UTF-8 names up to the
one searched for, and the node reached has no directory bit unless it is a directory. -/
theorem rs_vfs_get_meets_spec_iff (mounts : Mounts V) (hw : mounts.WellFormed)
    (hroot : ∃ m ∈ mounts, m.1 = AbsolutePath.root) (fs : Filesystem V) (cwd : AbsolutePath)
    (path : List Char) (fullPath : AbsolutePath) (hfull : cwd.withCwd path = .ok fullPath)
    (openFlags : OpenOptions) (hcreat : openFlags.oCreat = false) :
    ∃ c, LongestPrefix mounts fullPath (some c) ∧
      (∀ d, LongestPrefix mounts fullPath (some d) → d = c) ∧
      ((walkPlan mounts fullPath = some (c, remaining c fullPath) ∧
          rsVfsGet mounts fs cwd path openFlags =
            vfsSpec fs c fullPath openFlags.oDirectory) ↔
        WinsInTable mounts fullPath c ∧
        (c.1 ≠ AbsolutePath.root ∧ fullPath.segments = c.1.segments ++ c.1.segments) ∧
        Searchable fs c.2 c.1.segments ∧
        ∀ v, descend fs c.2 c.1.segments = some v → DirBitExact (fs.stMode v)) := by
  obtain ⟨c, hc⟩ := exists_longestPrefix_of_root hroot fullPath
  refine ⟨c, hc, fun d hd => by simpa using hd.unique hw hc, ?_⟩
  have hplan : walkPlan mounts fullPath = some (c, remaining c fullPath) ↔ _ :=
    walkPlan_eq_iff hc.2.1
  constructor
  · rintro ⟨hp, hres⟩
    obtain ⟨hwin, htwice⟩ := hplan.mp hp
    rw [rsVfsGet_eq_vfsSpec_iff hfull hcreat hp, remaining_of_twice htwice.2] at hres
    exact ⟨hwin, htwice, hres⟩
  · rintro ⟨hwin, htwice, hres⟩
    have hp := hplan.mpr ⟨hwin, htwice⟩
    refine ⟨hp, ?_⟩
    rw [rsVfsGet_eq_vfsSpec_iff hfull hcreat hp, remaining_of_twice htwice.2]
    exact hres

/-- A root directory, a device directory mounted at `/dev` that holds a directory `dev` and
a block device `x`, and a regular file `a` in the root directory. -/
def exampleFs : Filesystem Nat where
  readDirents
    | 0 => some [([97], 3)]
    | 1 => some [([100, 101, 118], 2), ([120], 4)]
    | 2 => some []
    | _ => none
  stMode
    | 3 => sIfreg
    | 4 => sIfblk
    | _ => sIfdir

/-- `/dev/dev`, asked for as a directory, is found. -/
theorem rs_vfs_get_dev_dev :
    let mounts : Mounts Nat := [(.root, 0), (⟨"dev".toList⟩, 1)]
    ∃ c, LongestPrefix mounts ⟨"dev/dev".toList⟩ (some c) ∧
      walkPlan mounts ⟨"dev/dev".toList⟩ = some (c, remaining c ⟨"dev/dev".toList⟩) ∧
      rsVfsGet mounts exampleFs ⟨"dev".toList⟩ "dev".toList ⟨false, false, true, false⟩ =
        vfsSpec exampleFs c ⟨"dev/dev".toList⟩ true := by
  intro mounts
  obtain ⟨c, hc, huniq, hiff⟩ := rs_vfs_get_meets_spec_iff mounts ⟨by decide, by decide⟩
    (by decide) exampleFs ⟨"dev".toList⟩ "dev".toList ⟨"dev/dev".toList⟩ (by decide)
    ⟨false, false, true, false⟩ rfl
  obtain rfl : (⟨"dev".toList⟩, 1) = c := huniq _ (by decide)
  refine ⟨_, hc, hiff.mpr ⟨⟨[(.root, 0)], [], rfl, by decide, by decide⟩, by decide, ?_, ?_⟩⟩
  · refine searchable_cons.mpr ⟨⟨_, rfl, ?_⟩, fun w _ => searchable_nil _ w⟩
    unfold Legible
    decide
  · intro v hv
    have h2 : descend exampleFs 1 ["dev".toList] = some 2 := by decide
    obtain rfl : 2 = v := Option.some.inj (h2.symm.trans hv)
    exact fun _ => rfl

/-- **`/dev/x` is not found**: the walk looks for `dev` below the `/dev` mount, and finds a
directory there. -/
theorem rs_vfs_get_walks_mount_path :
    let mounts : Mounts Nat := [(.root, 0), (⟨"dev".toList⟩, 1)]
    mounts.WellFormed ∧ LongestPrefix mounts ⟨"dev/x".toList⟩ (some (⟨"dev".toList⟩, 1)) ∧
    AbsolutePath.withCwd ⟨"dev".toList⟩ "x".toList = .ok ⟨"dev/x".toList⟩ ∧
    rsVfsGet mounts exampleFs ⟨"dev".toList⟩ "x".toList ⟨false, false, false, false⟩ =
      .error (.error .eNotDir) ∧
    vfsSpec exampleFs (⟨"dev".toList⟩, 1) ⟨"dev/x".toList⟩ false = .ok 4 :=
  ⟨⟨by decide, by decide⟩, by decide, by decide, by decide, by decide⟩

end Stuos.Fs
