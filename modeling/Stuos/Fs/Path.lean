import Mathlib.Algebra.Order.Ring.Int
import Mathlib.Data.List.Basic

/-!
# Absolute paths

`path.rs`.  A string is its list of characters.  An `AbsolutePath` stores the text
without the leading `/`, so the root is the empty text; `intoIter` splits the text at
`/` and therefore gives the root one empty segment.  `segments` is the list of
segments as one reads it off the path: empty for the root.

* `segments_injective`: two paths with the same segments are the same path.
* `isSubpathOf_of_segments_prefix`: a segment-wise prefix is a textual one, which is
  what `is_subpath_of` tests.  The converse fails (`/device` and `/dev`).
* `isSubpathOf_segmentwise_iff`: **the test is segment-wise exactly if the parent's text
  ends at a `/`**.
-/

namespace Stuos.Fs

abbrev Segment := List Char

/-- `AbsolutePath`: the leading `/` is implicit and not stored. -/
structure AbsolutePath where
  data : List Char
  deriving DecidableEq, Repr

inductive PathWithCwdErr
  | containsNullByte
  | containsEmptySegment
  | tooManyDotDot
  deriving DecidableEq, Repr

inductive MakeCwdErr
  | containsNullByte
  | containsEmptySegment
  | dot
  | isRelative
  deriving DecidableEq, Repr

/-- `str::strip_prefix('/')`. -/
def stripSlash : List Char → Option (List Char)
  | '/' :: s => some s
  | _ => none

/-- `str::strip_suffix('/')`. -/
def stripTrailingSlash (s : List Char) : Option (List Char) :=
  if s.getLast? = some '/' then some s.dropLast else none

namespace AbsolutePath

def root : AbsolutePath := ⟨[]⟩

/-- `IntoIterator for &AbsolutePath`. -/
def intoIter (p : AbsolutePath) : List Segment := p.data.splitOn '/'

/-- The loop of `make_cwd` over the segments. -/
def checkSegments : List Segment → Except MakeCwdErr Unit
  | [] => .ok ()
  | segment :: rest =>
    if segment = [] then .error .containsEmptySegment
    else if segment = ['.'] ∨ segment = ['.', '.'] then .error .dot
    else checkSegments rest

def makeCwd (cwd : List Char) : Except MakeCwdErr AbsolutePath :=
  match stripSlash cwd with
  | none => .error .isRelative
  | some cwd =>
    let cwd := (stripTrailingSlash cwd).getD cwd
    if '\x00' ∈ cwd then .error .containsNullByte
    else
      match checkSegments (cwd.splitOn '/') with
      | .error e => .error e
      | .ok () => .ok ⟨cwd⟩

/-- The loop of `with_cwd` over the segments; the stack is kept bottom first. -/
def pushSegments (stack : List Segment) : List Segment → Except PathWithCwdErr (List Segment)
  | [] => .ok stack
  | segment :: rest =>
    if segment = [] then .error .containsEmptySegment
    else if segment = ['.'] then pushSegments stack rest
    else if segment = ['.', '.'] then
      if stack = [] then .error .tooManyDotDot
      else pushSegments stack.dropLast rest
    else pushSegments (stack ++ [segment]) rest

/-- `with_cwd`.  The second `unwrap_or` falls back to the path as it was given, with
its leading `/`. -/
def withCwd (cwd : AbsolutePath) (path : List Char) : Except PathWithCwdErr AbsolutePath :=
  if '\x00' ∈ path then .error .containsNullByte
  else
    let stack := if path.head? = some '/' then [] else cwd.intoIter
    let path := (stripTrailingSlash ((stripSlash path).getD path)).getD path
    match pushSegments stack (path.splitOn '/') with
    | .error e => .error e
    | .ok stack => .ok ⟨['/'].intercalate stack⟩

/-- `is_subpath_of`: the parent's text starts this one. -/
def isSubpathOf (p potentialParent : AbsolutePath) : Bool := potentialParent.data.isPrefixOf p.data

/-! ### Segments -/

/-- The segments of a path; the root has none. -/
def segments (p : AbsolutePath) : List Segment := if p = root then [] else p.intoIter

/-- What the comments on `AbsolutePath` promise: the root, or segments that are
proper names. -/
def Normal (p : AbsolutePath) : Prop :=
  '\x00' ∉ p.data ∧ ∀ s ∈ p.segments, s ≠ [] ∧ s ≠ ['.'] ∧ s ≠ ['.', '.']

instance (p : AbsolutePath) : Decidable p.Normal :=
  inferInstanceAs (Decidable (_ ∧ _))

@[simp] theorem segments_root : segments root = [] := rfl

theorem segments_of_ne_root {p : AbsolutePath} (h : p ≠ root) : p.segments = p.intoIter :=
  if_neg h

theorem intoIter_ne_nil (p : AbsolutePath) : p.intoIter ≠ [] := List.splitOn_ne_nil _ _

theorem segments_eq_nil {p : AbsolutePath} : p.segments = [] ↔ p = root := by
  constructor
  · intro h
    by_contra hr
    rw [segments_of_ne_root hr] at h
    exact intoIter_ne_nil p h
  · rintro rfl
    rfl

theorem intercalate_segments (p : AbsolutePath) : ['/'].intercalate p.segments = p.data := by
  by_cases h : p = root
  · rw [h]
    rfl
  · rw [segments_of_ne_root h]
    exact List.intercalate_splitOn '/'

theorem segments_injective {p q : AbsolutePath} (h : p.segments = q.segments) : p = q := by
  have hd : p.data = q.data := by rw [← intercalate_segments, h, intercalate_segments]
  cases p
  cases q
  exact congrArg AbsolutePath.mk hd

theorem count_intoIter (p : AbsolutePath) :
    p.intoIter.length = max 1 p.segments.length := by
  by_cases h : p = root
  · rw [h]
    rfl
  · rw [segments_of_ne_root h]
    have := List.length_pos_of_ne_nil (intoIter_ne_nil p)
    omega

theorem intercalate_prefix_append (sep : List Char) (l₁ l₂ : List (List Char)) :
    sep.intercalate l₁ <+: sep.intercalate (l₁ ++ l₂) := by
  induction l₁ with
  | nil => simp
  | cons a l₁ ih =>
    cases l₁ with
    | nil =>
      cases l₂ with
      | nil => simp
      | cons b l₂ => simp [List.append_assoc]
    | cons b l₁ =>
      rw [List.cons_append, List.cons_append, List.intercalate_cons_cons,
        List.intercalate_cons_cons, List.prefix_append_right_inj]
      exact ih

/-- **A segment-wise prefix is a textual prefix.** -/
theorem isSubpathOf_of_segments_prefix {p q : AbsolutePath} (h : q.segments <+: p.segments) :
    p.isSubpathOf q = true := by
  obtain ⟨rest, hrest⟩ := h
  rw [isSubpathOf, List.isPrefixOf_iff_prefix, ← intercalate_segments q, ← intercalate_segments p,
    ← hrest]
  exact intercalate_prefix_append _ _ _

/-- If the text goes on behind the parent's, it does so with a `/`; the root is above all. -/
def EndsSegment (p potentialParent : AbsolutePath) : Prop :=
  ∀ c, potentialParent.data ++ [c] <+: p.data → potentialParent = root ∨ c = '/'

theorem intercalate_append {sep : List Char} {l₁ l₂ : List (List Char)} (h1 : l₁ ≠ [])
    (h2 : l₂ ≠ []) :
    sep.intercalate (l₁ ++ l₂) = sep.intercalate l₁ ++ sep ++ sep.intercalate l₂ := by
  induction l₁ with
  | nil => exact absurd rfl h1
  | cons a l₁ ih =>
    rw [List.cons_append]
    by_cases hl : l₁ = []
    · rw [hl, List.nil_append, List.intercalate_cons_of_ne_nil h2, List.intercalate_singleton]
    · rw [List.intercalate_cons_of_ne_nil (by simp [hl]), ih hl,
        List.intercalate_cons_of_ne_nil hl]
      simp only [List.append_assoc]

/-- **A textual prefix that ends a segment** is a segment-wise one. -/
theorem segments_prefix_of_isSubpathOf {p q : AbsolutePath} (hends : p.EndsSegment q)
    (h : p.isSubpathOf q = true) : q.segments <+: p.segments := by
  rw [isSubpathOf, List.isPrefixOf_iff_prefix] at h
  obtain ⟨rest, hrest⟩ := h
  by_cases hq : q = root
  · rw [hq, segments_root]
    exact List.nil_prefix
  · cases rest with
    | nil =>
      rw [List.append_nil] at hrest
      obtain rfl : q = p := congrArg AbsolutePath.mk hrest
      exact List.prefix_refl _
    | cons c rest =>
      have hc := (hends c ⟨rest, by rw [← hrest]; simp⟩).resolve_left hq
      have hp : p ≠ root := by
        rintro rfl
        exact absurd hrest (by simp [root])
      rw [segments_of_ne_root hq, segments_of_ne_root hp, intoIter, intoIter, ← hrest, hc,
        List.splitOn_append_cons_self]
      exact List.prefix_append _ _

/-- **A segment-wise prefix ends a segment.** -/
theorem endsSegment_of_segments_prefix {p q : AbsolutePath} (h : q.segments <+: p.segments) :
    p.EndsSegment q := by
  intro c hc
  obtain ⟨more, hmore⟩ := h
  by_cases hq : q = root
  · exact .inl hq
  · right
    have hne : q.segments ≠ [] := fun h => hq (segments_eq_nil.mp h)
    rw [← intercalate_segments p, ← hmore] at hc
    by_cases hnil : more = []
    · rw [hnil, List.append_nil, intercalate_segments] at hc
      have hlength := hc.length_le
      rw [List.length_append, List.length_singleton] at hlength
      omega
    · rw [intercalate_append hne hnil, intercalate_segments, List.append_assoc,
        List.prefix_append_right_inj] at hc
      exact (List.cons_prefix_cons.mp hc).1

/-- **When `is_subpath_of` is segment-wise.** -/
theorem isSubpathOf_segmentwise_iff (p q : AbsolutePath) :
    (p.isSubpathOf q = true ↔ q.segments <+: p.segments) ↔ p.EndsSegment q := by
  constructor
  · intro hiff c hc
    have hsub : p.isSubpathOf q = true := by
      rw [isSubpathOf, List.isPrefixOf_iff_prefix]
      exact (List.prefix_append _ _).trans hc
    exact endsSegment_of_segments_prefix (hiff.mp hsub) c hc
  · intro hends
    exact ⟨segments_prefix_of_isSubpathOf hends, isSubpathOf_of_segments_prefix⟩

theorem isSubpathOf_device : Normal ⟨['d', 'e', 'v', 'i', 'c', 'e']⟩ ∧ Normal ⟨['d', 'e', 'v']⟩ ∧
    ¬ (isSubpathOf ⟨['d', 'e', 'v', 'i', 'c', 'e']⟩ ⟨['d', 'e', 'v']⟩ = true ↔
      segments ⟨['d', 'e', 'v']⟩ <+: segments ⟨['d', 'e', 'v', 'i', 'c', 'e']⟩) := by
  decide

end AbsolutePath

end Stuos.Fs
