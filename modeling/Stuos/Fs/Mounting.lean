import Mathlib.Data.List.Nodup
import Mathlib.Order.Nat
import Stuos.Fs.Path
import Stuos.Lib.MaxByKey

/-!
# Mount resolution

`mounting.rs`: the mount table is a vector that `rs_vfs_add_mount` pushes to, and
`rs_vfs_resolve_mount` takes, among the mounts whose text starts the path, the last
one with the most segments.

What one wants of it is `LongestPrefix`: the mount whose segments are the longest
prefix of the path's segments.

* `rsVfsResolveMount_eq_some_iff`: when a given mount is selected, read off the table.
* `resolve_longest_in_every_order_iff`: exactly when the mount selected is the longest
  prefix in whichever order the mounts were added.  Two things go wrong otherwise: a
  mount such as `/de` starts the text of `/dev/x` without being above it, and the root,
  whose iterator yields one empty segment, ties with `/dev`.
-/

namespace Stuos.Fs

open Stuos.Lib

variable {V : Type}

/-- `MOUNTS`, oldest first. -/
abbrev Mounts (V : Type) := List (AbsolutePath × V)

def rsVfsAddMount (mounts : Mounts V) (mountAgainst : AbsolutePath) (filesystemRoot : V) :
    Mounts V :=
  mounts ++ [(mountAgainst, filesystemRoot)]

/-- The table after adding mounts one after the other. -/
def addMounts (added : List (AbsolutePath × V)) : Mounts V :=
  added.foldl (fun mounts m => rsVfsAddMount mounts m.1 m.2) []

def rsVfsResolveMount (mounts : Mounts V) (path : AbsolutePath) : Option (AbsolutePath × V) :=
  maxByKey (fun m => m.1.intoIter.length) (mounts.filter fun m => path.isSubpathOf m.1)

/-- Mount paths are distinct and normalised. -/
structure Mounts.WellFormed (mounts : Mounts V) : Prop where
  distinct : (mounts.map Prod.fst).Nodup
  normal : ∀ m ∈ mounts, m.1.Normal

/-- The mount point is a directory above the path, or the path itself. -/
def Above (m : AbsolutePath × V) (path : AbsolutePath) : Prop := m.1.segments <+: path.segments

instance (m : AbsolutePath × V) (path : AbsolutePath) : Decidable (Above m path) :=
  inferInstanceAs (Decidable (_ <+: _))

/-- What resolution is for: the mount with the longest segment list that is a prefix
of the path's, and none if there is no such mount. -/
def LongestPrefix (mounts : Mounts V) (path : AbsolutePath) : Option (AbsolutePath × V) → Prop
  | none => ∀ m ∈ mounts, ¬ Above m path
  | some c => c ∈ mounts ∧ Above c path ∧
      ∀ m ∈ mounts, Above m path → m.1.segments.length ≤ c.1.segments.length

instance (mounts : Mounts V) (path : AbsolutePath) (r : Option (AbsolutePath × V))
    [DecidableEq V] : Decidable (LongestPrefix mounts path r) :=
  match r with
  | none => inferInstanceAs (Decidable (∀ m ∈ mounts, ¬ Above m path))
  | some c => inferInstanceAs (Decidable (c ∈ mounts ∧ Above c path ∧
      ∀ m ∈ mounts, Above m path → m.1.segments.length ≤ c.1.segments.length))

theorem addMounts_eq (added : List (AbsolutePath × V)) : addMounts added = added := by
  have h : ∀ mounts : Mounts V,
      added.foldl (fun mounts m => rsVfsAddMount mounts m.1 m.2) mounts = mounts ++ added := by
    induction added with
    | nil => simp
    | cons m added ih =>
      intro mounts
      rw [List.foldl_cons, ih]
      simp [rsVfsAddMount]
  exact h []

theorem Above.isSubpathOf {m : AbsolutePath × V} {path : AbsolutePath} (h : Above m path) :
    path.isSubpathOf m.1 = true :=
  AbsolutePath.isSubpathOf_of_segments_prefix h

theorem above_root {m : AbsolutePath × V} (h : m.1 = AbsolutePath.root) (path : AbsolutePath) :
    Above m path := by
  rw [Above, h, AbsolutePath.segments_root]
  exact List.nil_prefix

/-- Mounts above one path with equally many segments are the same mount. -/
theorem Mounts.WellFormed.eq_of_above {mounts : Mounts V} (hw : mounts.WellFormed)
    {path : AbsolutePath} {m c : AbsolutePath × V} (hm : m ∈ mounts) (hc : c ∈ mounts)
    (ham : Above m path) (hac : Above c path)
    (h : m.1.segments.length = c.1.segments.length) : m = c := by
  have hseg : m.1.segments = c.1.segments := by
    rw [List.prefix_iff_eq_take.mp ham, List.prefix_iff_eq_take.mp hac, h]
  exact List.inj_on_of_nodup_map hw.distinct hm hc (AbsolutePath.segments_injective hseg)

theorem exists_longestPrefix (mounts : Mounts V) (path : AbsolutePath) :
    (∀ m ∈ mounts, ¬ Above m path) ∨ ∃ c, LongestPrefix mounts path (some c) := by
  rcases h : maxByKey (fun m => m.1.segments.length) (mounts.filter (Above · path)) with - | c
  · left
    rw [maxByKey_eq_none, List.filter_eq_nil_iff] at h
    simpa using h
  · right
    have hc := mem_of_maxByKey h
    simp only [List.mem_filter, decide_eq_true_eq] at hc
    refine ⟨c, hc.1, hc.2, ?_⟩
    intro m hm ham
    exact key_le_of_maxByKey h (List.mem_filter.mpr ⟨hm, by simpa using ham⟩)

theorem LongestPrefix.unique {mounts : Mounts V} (hw : mounts.WellFormed) {path : AbsolutePath}
    {r s : Option (AbsolutePath × V)} (hr : LongestPrefix mounts path r)
    (hs : LongestPrefix mounts path s) : r = s := by
  match r, s, hr, hs with
  | none, none, _, _ => rfl
  | none, some c, hr, hs => exact absurd hs.2.1 (hr c hs.1)
  | some c, none, hr, hs => exact absurd hr.2.1 (hs c hr.1)
  | some c, some d, ⟨hc, hac, hcmax⟩, ⟨hd, had, hdmax⟩ =>
    have hlen := Nat.le_antisymm (hdmax c hc hac) (hcmax d hd had)
    rw [hw.eq_of_above hc hd hac had hlen]

theorem Mounts.WellFormed.perm {mounts mounts' : Mounts V} (hw : mounts.WellFormed)
    (hp : mounts'.Perm mounts) : mounts'.WellFormed where
  distinct := (hp.map Prod.fst).nodup_iff.mpr hw.distinct
  normal m hm := hw.normal m (hp.mem_iff.mp hm)

theorem LongestPrefix.perm {mounts mounts' : Mounts V} {path : AbsolutePath}
    {r : Option (AbsolutePath × V)} (hp : mounts'.Perm mounts) (h : LongestPrefix mounts' path r) :
    LongestPrefix mounts path r := by
  cases r with
  | none => exact fun m hm => h m (hp.mem_iff.mpr hm)
  | some c =>
    obtain ⟨hc, hac, hmax⟩ := h
    exact ⟨hp.mem_iff.mp hc, hac, fun m hm => hmax m (hp.mem_iff.mpr hm)⟩

/-! ### What is selected -/

theorem rsVfsResolveMount_eq_none_iff {mounts : Mounts V} {path : AbsolutePath} :
    rsVfsResolveMount mounts path = none ↔ ∀ m ∈ mounts, path.isSubpathOf m.1 = false := by
  rw [rsVfsResolveMount, maxByKey_eq_none, List.filter_eq_nil_iff]
  simp

theorem rsVfsResolveMount_of_forall_lt {mounts : Mounts V} {path : AbsolutePath}
    {c : AbsolutePath × V} (hc : c ∈ mounts) (hs : path.isSubpathOf c.1 = true)
    (h : ∀ m ∈ mounts, path.isSubpathOf m.1 = true → m ≠ c →
      m.1.intoIter.length < c.1.intoIter.length) :
    rsVfsResolveMount mounts path = some c := by
  apply maxByKey_of_forall_lt
  · exact List.mem_filter.mpr ⟨hc, hs⟩
  · intro m hm hne
    obtain ⟨hm, hsub⟩ := List.mem_filter.mp hm
    exact h m hm hsub hne

theorem rsVfsResolveMount_concat {mounts : Mounts V} {path : AbsolutePath}
    {a c : AbsolutePath × V} (hs : path.isSubpathOf a.1 = true)
    (h : rsVfsResolveMount (mounts ++ [a]) path = some c) :
    c = a ∨ a.1.intoIter.length < c.1.intoIter.length := by
  simp only [rsVfsResolveMount, List.filter_append, List.filter_singleton, hs, cond_true] at h
  exact maxByKey_concat_eq_some h

/-- **What is selected, read off the table**: a textual prefix with at least as many
segments as every textual prefix added before it and more than every one added after. -/
theorem rsVfsResolveMount_eq_some_iff {mounts : Mounts V} {path : AbsolutePath}
    {c : AbsolutePath × V} :
    rsVfsResolveMount mounts path = some c ↔
      ∃ older newer, mounts = older ++ c :: newer ∧ path.isSubpathOf c.1 = true ∧
        (∀ m ∈ older, path.isSubpathOf m.1 = true →
          m.1.intoIter.length ≤ c.1.intoIter.length) ∧
        ∀ m ∈ newer, path.isSubpathOf m.1 = true →
          m.1.intoIter.length < c.1.intoIter.length := by
  rw [rsVfsResolveMount, maxByKey_eq_some_iff]
  constructor
  · rintro ⟨l₁, l₂, hl, h₁, h₂⟩
    obtain ⟨older, tail, rfl, rfl, htail⟩ := List.filter_eq_append_iff.mp hl
    obtain ⟨skipped, newer, rfl, hskip, hc, rfl⟩ := List.filter_eq_cons_iff.mp htail
    refine ⟨older ++ skipped, newer, by simp, hc, ?_, ?_⟩
    · intro m hm hsub
      rcases List.mem_append.mp hm with hm | hm
      · exact h₁ m (List.mem_filter.mpr ⟨hm, hsub⟩)
      · exact absurd hsub (hskip m hm)
    · intro m hm hsub
      exact h₂ m (List.mem_filter.mpr ⟨hm, hsub⟩)
  · rintro ⟨older, newer, rfl, hc, h₁, h₂⟩
    refine ⟨older.filter fun m => path.isSubpathOf m.1, newer.filter fun m => path.isSubpathOf m.1,
      by simp [List.filter_append, hc], ?_, ?_⟩
    · intro m hm
      obtain ⟨hm, hsub⟩ := List.mem_filter.mp hm
      exact h₁ m hm hsub
    · intro m hm
      obtain ⟨hm, hsub⟩ := List.mem_filter.mp hm
      exact h₂ m hm hsub

/-! ### Every order of adding -/

/-- No mount that only starts the text of the path has as many segments as the
mounts above the path. -/
def TextPrefixesShorter (mounts : Mounts V) (path : AbsolutePath) : Prop :=
  ∀ q ∈ mounts, path.isSubpathOf q.1 = true → ¬ Above q path →
    ∃ m ∈ mounts, Above m path ∧ q.1.segments.length < m.1.segments.length

/-- The root is not mounted together with a longest prefix of one segment. -/
def RootNotTied (mounts : Mounts V) (path : AbsolutePath) : Prop :=
  ∀ r ∈ mounts, r.1 = AbsolutePath.root →
    ∀ c ∈ mounts, LongestPrefix mounts path (some c) → c.1.segments.length ≠ 1

instance (mounts : Mounts V) (path : AbsolutePath) :
    Decidable (TextPrefixesShorter mounts path) :=
  inferInstanceAs (Decidable (∀ q ∈ mounts, path.isSubpathOf q.1 = true → ¬ Above q path →
    ∃ m ∈ mounts, Above m path ∧ q.1.segments.length < m.1.segments.length))

instance [DecidableEq V] (mounts : Mounts V) (path : AbsolutePath) :
    Decidable (RootNotTied mounts path) :=
  inferInstanceAs (Decidable (∀ r ∈ mounts, r.1 = AbsolutePath.root →
    ∀ c ∈ mounts, LongestPrefix mounts path (some c) → c.1.segments.length ≠ 1))

/-- Under the two conditions the longest prefix beats every other textual prefix. -/
theorem longestPrefix_beats {mounts : Mounts V} (hw : mounts.WellFormed) {path : AbsolutePath}
    (htext : TextPrefixesShorter mounts path) (hroot : RootNotTied mounts path)
    {c : AbsolutePath × V} (hc : LongestPrefix mounts path (some c)) {m : AbsolutePath × V}
    (hm : m ∈ mounts) (hsub : path.isSubpathOf m.1 = true) (hne : m ≠ c) :
    m.1.intoIter.length < c.1.intoIter.length := by
  obtain ⟨hcm, hac, hmax⟩ := hc
  rw [AbsolutePath.count_intoIter, AbsolutePath.count_intoIter]
  by_cases ham : Above m path
  · have hle := hmax m hm ham
    have hlt : m.1.segments.length ≠ c.1.segments.length := fun h =>
      hne (hw.eq_of_above hm hcm ham hac h)
    by_cases h0 : m.1.segments.length = 0
    · have hmr : m.1 = AbsolutePath.root :=
        AbsolutePath.segments_eq_nil.mp (List.length_eq_zero_iff.mp h0)
      have h1 := hroot m hm hmr c hcm ⟨hcm, hac, hmax⟩
      omega
    · omega
  · obtain ⟨x, hx, hax, hlt⟩ := htext m hm hsub ham
    have hle := hmax x hx hax
    have hmr : m.1.segments.length ≠ 0 := fun h0 =>
      ham (above_root (AbsolutePath.segments_eq_nil.mp (List.length_eq_zero_iff.mp h0)) path)
    omega

theorem resolve_longest_of_conditions {mounts : Mounts V} (hw : mounts.WellFormed)
    {path : AbsolutePath} (htext : TextPrefixesShorter mounts path)
    (hroot : RootNotTied mounts path) :
    LongestPrefix mounts path (rsVfsResolveMount mounts path) := by
  rcases exists_longestPrefix mounts path with hn | ⟨c, hc⟩
  · have hnone : rsVfsResolveMount mounts path = none := by
      rw [rsVfsResolveMount_eq_none_iff]
      intro m hm
      by_contra hsub
      obtain ⟨x, hx, hax, -⟩ := htext m hm (by simpa using hsub) (hn m hm)
      exact hn x hx hax
    rw [hnone]
    exact hn
  · rw [rsVfsResolveMount_of_forall_lt hc.1 hc.2.1.isSubpathOf fun m hm hsub hne =>
      longestPrefix_beats hw htext hroot hc hm hsub hne]
    exact hc

theorem TextPrefixesShorter.perm {mounts mounts' : Mounts V} {path : AbsolutePath}
    (hp : mounts'.Perm mounts) (h : TextPrefixesShorter mounts path) :
    TextPrefixesShorter mounts' path := by
  intro q hq hsub hna
  obtain ⟨m, hm, ham, hlt⟩ := h q (hp.mem_iff.mp hq) hsub hna
  exact ⟨m, hp.mem_iff.mpr hm, ham, hlt⟩

theorem RootNotTied.perm {mounts mounts' : Mounts V} {path : AbsolutePath}
    (hp : mounts'.Perm mounts) (h : RootNotTied mounts path) : RootNotTied mounts' path :=
  fun r hr hroot c hc hlong => h r (hp.mem_iff.mp hr) hroot c (hp.mem_iff.mp hc) (hlong.perm hp)

theorem exists_perm_concat {mounts : Mounts V} {a : AbsolutePath × V} (h : a ∈ mounts) :
    ∃ rest, (rest ++ [a]).Perm mounts := by
  obtain ⟨l₁, l₂, rfl⟩ := List.append_of_mem h
  refine ⟨l₁ ++ l₂, ?_⟩
  rw [List.append_assoc]
  exact (List.perm_append_left_iff l₁).mpr List.perm_append_comm

/-- **When resolution is longest-prefix and does not depend on the order of adding.** -/
theorem resolve_longest_in_every_order_iff (mounts : Mounts V) (hw : mounts.WellFormed)
    (path : AbsolutePath) :
    (∀ added : List (AbsolutePath × V), added.Perm mounts →
        LongestPrefix mounts path (rsVfsResolveMount (addMounts added) path) ∧
        rsVfsResolveMount (addMounts added) path = rsVfsResolveMount (addMounts mounts) path) ↔
      TextPrefixesShorter mounts path ∧ RootNotTied mounts path := by
  simp only [addMounts_eq]
  constructor
  · intro h
    -- both parts: add the offending mount last, so that it wins every tie
    have hlast : ∀ a ∈ mounts, path.isSubpathOf a.1 = true →
        ∃ c, LongestPrefix mounts path (some c) ∧
          (c = a ∨ a.1.intoIter.length < c.1.intoIter.length) := by
      intro a ha hsub
      obtain ⟨rest, hp⟩ := exists_perm_concat ha
      obtain ⟨hl, -⟩ := h _ hp
      cases hr : rsVfsResolveMount (rest ++ [a]) path with
      | none =>
        rw [rsVfsResolveMount_eq_none_iff] at hr
        have := hr a (by simp)
        simp [hsub] at this
      | some c =>
        rw [hr] at hl
        exact ⟨c, hl, rsVfsResolveMount_concat hsub hr⟩
    constructor
    · intro q hq hsub hna
      obtain ⟨c, ⟨hc, hac, -⟩, rfl | hlt⟩ := hlast q hq hsub
      · exact absurd hac hna
      · refine ⟨c, hc, hac, ?_⟩
        rw [AbsolutePath.count_intoIter, AbsolutePath.count_intoIter] at hlt
        omega
    · intro r hr hroot c _ hc h1
      obtain ⟨d, hd, hcase⟩ := hlast r hr (above_root hroot path).isSubpathOf
      obtain rfl : c = d := by simpa using hc.unique hw hd
      rcases hcase with rfl | hlt
      · rw [hroot] at h1
        simp at h1
      · rw [AbsolutePath.count_intoIter, AbsolutePath.count_intoIter, h1] at hlt
        omega
  · rintro ⟨htext, hroot⟩ added hp
    have hl := resolve_longest_of_conditions hw htext hroot
    have hl' := (resolve_longest_of_conditions (hw.perm hp) (htext.perm hp)
      (hroot.perm hp)).perm hp
    exact ⟨hl', hl'.unique hw hl⟩

/-- `/` and `/usr/local`: the deeper mount wins for a path below it, added first or last. -/
theorem resolve_longest_in_every_order_usr_local :
    let mounts : Mounts Nat := [(.root, 0), (⟨"usr/local".toList⟩, 1)]
    ∀ added : List (AbsolutePath × Nat), added.Perm mounts →
      LongestPrefix mounts ⟨"usr/local/bin".toList⟩
        (rsVfsResolveMount (addMounts added) ⟨"usr/local/bin".toList⟩) ∧
      rsVfsResolveMount (addMounts added) ⟨"usr/local/bin".toList⟩ =
        rsVfsResolveMount (addMounts mounts) ⟨"usr/local/bin".toList⟩ :=
  (resolve_longest_in_every_order_iff _ ⟨by decide, by decide⟩ _).mpr ⟨by decide, by decide⟩

/-- **Adding `/dev` before `/`**, as the kernel does at boot, gives `/dev/x` to the root;
the other order gives it to `/dev`. -/
theorem resolve_dev_before_root :
    let mounts : Mounts Nat := [(⟨"dev".toList⟩, 1), (.root, 0)]
    mounts.WellFormed ∧
    rsVfsResolveMount (addMounts mounts) ⟨"dev/x".toList⟩ = some (.root, 0) ∧
    ¬ LongestPrefix mounts ⟨"dev/x".toList⟩ (some (.root, 0)) ∧
    rsVfsResolveMount (addMounts mounts.reverse) ⟨"dev/x".toList⟩ =
      some (⟨"dev".toList⟩, 1) := by
  refine ⟨⟨by decide, by decide⟩, by decide, by decide, by decide⟩

end Stuos.Fs
