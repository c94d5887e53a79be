import Stuos.Fs.PathNames

/-!
# Resolving a path

What `with_cwd` is for: going from a position in the tree to another one, segment by segment.
`Resolves stack segments r` says that this ends with `r`, a position or the first error.

* `Resolves.functional`, `pushSegments_resolves`: there is one result, and the loop computes it.
* `relative_path_resolution`: a relative path is resolved from the current directory.
* `absolute_path_resolution_iff`: an absolute path is resolved from the root if it ends with a `/`,
  and hardly ever if it does not.
-/

namespace Stuos.Fs.AbsolutePath

/-! ### Positions -/

/-- From the position `stack`, which is given by its segments from the root on. -/
inductive Resolves : List Segment → List Segment → Except PathWithCwdErr (List Segment) → Prop
  | done (stack : List Segment) : Resolves stack [] (.ok stack)
  | empty (stack rest : List Segment) : Resolves stack ([] :: rest) (.error .containsEmptySegment)
  | here {stack rest : List Segment} {r} : Resolves stack rest r → Resolves stack (['.'] :: rest) r
  | up {stack rest : List Segment} {top : Segment} {r} : Resolves stack rest r →
      Resolves (stack ++ [top]) (['.', '.'] :: rest) r
  | above (rest : List Segment) : Resolves [] (['.', '.'] :: rest) (.error .tooManyDotDot)
  | name {stack rest : List Segment} {s : Segment} {r} : IsName s →
      Resolves (stack ++ [s]) rest r → Resolves stack (s :: rest) r

/-- Going through the segments `l` gets to an empty one. -/
def FailsAtEmpty (stack l : List Segment) : Prop :=
  ∃ pre post stack', l = pre ++ [] :: post ∧ Resolves stack pre (.ok stack')

variable {stack l pre post : List Segment} {s : Segment}
  {r r' : Except PathWithCwdErr (List Segment)}

/-- **The loop of `with_cwd`** resolves the segments. -/
theorem pushSegments_resolves (stack l : List Segment) :
    Resolves stack l (pushSegments stack l) := by
  induction l generalizing stack with
  | nil => exact .done stack
  | cons s rest ih =>
    rw [pushSegments]
    split
    · rename_i hempty
      subst hempty
      exact .empty stack rest
    · rename_i hempty
      split
      · rename_i hdot
        subst hdot
        exact .here (ih stack)
      · rename_i hdot
        split
        · rename_i hdots
          subst hdots
          split
          · rename_i hroot
            subst hroot
            exact .above rest
          · rename_i hroot
            obtain ⟨init, top, rfl⟩ := (List.eq_nil_or_concat' stack).resolve_left hroot
            rw [List.dropLast_concat]
            exact .up (ih init)
        · rename_i hdots
          exact .name ⟨hempty, hdot, hdots⟩ (ih _)

/-- **There is one result.** -/
theorem Resolves.functional (h : Resolves stack l r) : r = pushSegments stack l := by
  induction h with
  | done stack => rfl
  | empty stack rest => rfl
  | here _ ih => exact ih
  | @up stack rest top r _ ih =>
    rw [ih, pushSegments, if_neg (by simp), if_neg (by simp), if_pos rfl, if_neg (by simp),
      List.dropLast_concat]
  | above rest => rfl
  | name hs _ ih => rw [ih, pushSegments, if_neg hs.1, if_neg hs.2.1, if_neg hs.2.2]

theorem resolves_iff : Resolves stack l r ↔ r = pushSegments stack l := by
  constructor
  · exact Resolves.functional
  · rintro rfl
    exact pushSegments_resolves stack l

theorem Resolves.append {stack' : List Segment} (h : Resolves stack pre (.ok stack'))
    (h' : Resolves stack' post r) : Resolves stack (pre ++ post) r := by
  generalize hr : (Except.ok stack' : Except PathWithCwdErr (List Segment)) = r₀ at h
  induction h with
  | done stack =>
    obtain rfl := Except.ok.inj hr
    exact h'
  | empty => cases hr
  | here _ ih => exact .here (ih hr)
  | up _ ih => exact .up (ih hr)
  | above => cases hr
  | name hs _ ih => exact .name hs (ih hr)

/-- **An empty segment is the first fault** exactly if resolving gets to one. -/
theorem resolves_containsEmptySegment_iff :
    Resolves stack l (.error .containsEmptySegment) ↔ FailsAtEmpty stack l := by
  constructor
  · intro h
    generalize hr : (Except.error .containsEmptySegment :
      Except PathWithCwdErr (List Segment)) = r₀ at h
    induction h with
    | done => cases hr
    | empty stack rest => exact ⟨[], rest, stack, rfl, .done stack⟩
    | here _ ih =>
      obtain ⟨pre, post, stack', rfl, hpre⟩ := ih hr
      exact ⟨_ :: pre, post, stack', rfl, .here hpre⟩
    | up _ ih =>
      obtain ⟨pre, post, stack', rfl, hpre⟩ := ih hr
      exact ⟨_ :: pre, post, stack', rfl, .up hpre⟩
    | above => cases hr
    | name hs _ ih =>
      obtain ⟨pre, post, stack', rfl, hpre⟩ := ih hr
      exact ⟨_ :: pre, post, stack', rfl, .name hs hpre⟩
  · rintro ⟨pre, post, stack', rfl, hpre⟩
    exact hpre.append (.empty stack' post)

/-- **A `..` is the first fault** exactly if resolving gets to one at the root. -/
theorem resolves_tooManyDotDot_iff :
    Resolves stack l (.error .tooManyDotDot) ↔
      ∃ pre post, l = pre ++ ['.', '.'] :: post ∧ Resolves stack pre (.ok []) := by
  constructor
  · intro h
    generalize hr : (Except.error .tooManyDotDot :
      Except PathWithCwdErr (List Segment)) = r₀ at h
    induction h with
    | done => cases hr
    | empty => cases hr
    | here _ ih =>
      obtain ⟨pre, post, rfl, hpre⟩ := ih hr
      exact ⟨_ :: pre, post, rfl, .here hpre⟩
    | up _ ih =>
      obtain ⟨pre, post, rfl, hpre⟩ := ih hr
      exact ⟨_ :: pre, post, rfl, .up hpre⟩
    | above rest => exact ⟨[], rest, rfl, .done []⟩
    | name hs _ ih =>
      obtain ⟨pre, post, rfl, hpre⟩ := ih hr
      exact ⟨_ :: pre, post, rfl, .name hs hpre⟩
  · rintro ⟨pre, post, rfl, hpre⟩
    exact hpre.append (.above post)

theorem Resolves.ne_containsNullByte (h : Resolves stack l r) :
    r ≠ .error .containsNullByte := by
  induction h with
  | done => simp
  | empty => simp
  | here _ ih => exact ih
  | up _ ih => exact ih
  | above => simp
  | name _ _ ih => exact ih

/-! ### The text of a position -/

/-- **Joining and splitting again** gives the segments back. -/
theorem segments_join (h : ∀ s ∈ stack, s ≠ [] ∧ '/' ∉ s) :
    segments ⟨['/'].intercalate stack⟩ = stack := by
  by_cases hstack : stack = []
  · subst hstack
    rfl
  · have hiter : intoIter ⟨['/'].intercalate stack⟩ = stack :=
      List.splitOn_intercalate '/' (fun s hs => (h s hs).2) hstack
    rw [segments_of_ne_root, hiter]
    intro hroot
    rw [hroot] at hiter
    -- the root has one empty segment
    obtain rfl : [[]] = stack := hiter
    exact (h [] (by simp)).1 rfl

/-- **`with_cwd`** without a NUL, from the stack that it starts with. -/
theorem withCwd_resolves {cwd : AbsolutePath} {path : List Char} (hnul : '\x00' ∉ path)
    (hstack : ∀ s ∈ stack, s ≠ [] ∧ '/' ∉ s)
    (hcwd : (if path.head? = some '/' then [] else cwd.intoIter) = stack) :
    Resolves stack (pathSegments path) ((withCwd cwd path).map segments) := by
  rw [resolves_iff, withCwd, if_neg hnul]
  simp only [hcwd]
  rw [pathSegments]
  cases hpush : pushSegments stack
      (((stripTrailingSlash ((stripSlash path).getD path)).getD path).splitOn '/') with
  | error e => rfl
  | ok stack' =>
    have hjoin : segments ⟨['/'].intercalate stack'⟩ = stack' := by
      refine segments_join fun s hs => ?_
      rcases pushSegments_names hpush s hs with hs | ⟨hs, hname⟩
      · exact hstack s hs
      · exact ⟨hname.1, (mem_of_mem_splitOn hs).1⟩
    exact congrArg Except.ok hjoin

/-- **`ContainsNullByte`** is for paths with a NUL. -/
theorem withCwd_containsNullByte_iff (cwd : AbsolutePath) (path : List Char) :
    withCwd cwd path = .error .containsNullByte ↔ '\x00' ∈ path := by
  constructor
  · intro h
    by_contra hnul
    rw [withCwd, if_neg hnul] at h
    simp only at h
    split at h
    · rename_i e hpush
      obtain rfl := Except.error.inj h
      have hres := pushSegments_resolves (if path.head? = some '/' then [] else cwd.intoIter)
        (((stripTrailingSlash ((stripSlash path).getD path)).getD path).splitOn '/')
      rw [hpush] at hres
      exact hres.ne_containsNullByte rfl
    · cases h
  · intro hnul
    rw [withCwd, if_pos hnul]

/-! ### Relative paths -/

/-- The path without one `/` at its end, split at every `/`. -/
def relativeSegments (path : List Char) : List Segment :=
  ((stripTrailingSlash path).getD path).splitOn '/'

theorem stripSlash_of_relative {path : List Char} (h : path.head? ≠ some '/') :
    stripSlash path = none := by
  unfold stripSlash
  split
  · exact absurd rfl h
  · rfl

/-- **A relative path** is resolved from the current directory. -/
theorem relative_path_resolution {cwd : AbsolutePath} {path : List Char} (hcwd : cwd.Normal)
    (hroot : cwd ≠ root) (hrel : path.head? ≠ some '/') :
    (withCwd cwd path = .error .containsNullByte ↔ '\x00' ∈ path) ∧
      ('\x00' ∉ path →
        Resolves cwd.segments (relativeSegments path) ((withCwd cwd path).map segments)) := by
  refine ⟨withCwd_containsNullByte_iff cwd path, fun hnul => ?_⟩
  have hsegments : pathSegments path = relativeSegments path := by
    rw [pathSegments, relativeSegments, stripSlash_of_relative hrel, Option.getD_none]
  rw [← hsegments]
  refine withCwd_resolves hnul (fun s hs => ⟨(hcwd.2 s hs).1, ?_⟩) ?_
  · rw [segments_of_ne_root hroot] at hs
    exact (mem_of_mem_splitOn hs).1
  · rw [if_neg hrel, segments_of_ne_root hroot]

/-- From `/usr/lib`, the path `../bin/`. -/
theorem relative_path_resolution_usr_bin :
    Resolves ["usr".toList, "lib".toList] ["..".toList, "bin".toList]
      ((withCwd ⟨"usr/lib".toList⟩ "../bin/".toList).map segments) ∧
    withCwd ⟨"usr/lib".toList⟩ "../bin/".toList = .ok ⟨"usr/bin".toList⟩ := by
  have hcwd : Normal ⟨"usr/lib".toList⟩ := by decide
  have hrel : "../bin/".toList.head? ≠ some '/' := by decide
  exact ⟨(relative_path_resolution hcwd (by decide) hrel).2 (by decide), by decide⟩

/-! ### Absolute paths -/

/-- The path without the `/` at its start and one at its end, split at every `/`; `/` is the root. -/
def absoluteSegments (path : List Char) : List Segment :=
  if path.tail = [] then [] else relativeSegments path.tail

/-- There is a `/` at the end that is not the one at the start. -/
def EndsWithSlash (path : List Char) : Prop := path.tail.getLast? = some '/'

/-- **Without a `/` at the end** the one at the start is left in. -/
theorem pathSegments_absolute (path : List Char) (habs : path.head? = some '/') :
    (EndsWithSlash path → pathSegments path = absoluteSegments path) ∧
      (¬ EndsWithSlash path → ∃ rest, pathSegments path = [] :: rest) := by
  obtain ⟨text, rfl⟩ := List.head?_eq_some_iff.mp habs
  have hstrip : (stripSlash ('/' :: text)).getD ('/' :: text) = text := rfl
  unfold EndsWithSlash
  rw [pathSegments, hstrip, List.tail_cons]
  constructor
  · intro hend
    have hne : text ≠ [] := by
      rintro rfl
      cases hend
    rw [absoluteSegments, List.tail_cons, if_neg hne, relativeSegments, stripTrailingSlash,
      if_pos hend]
    rfl
  · intro hend
    rw [stripTrailingSlash, if_neg hend, Option.getD_none, List.splitOn_cons_eq_if_modifyHead,
      if_pos (by simp)]
    exact ⟨_, rfl⟩

/-- **When an absolute path is resolved from the root**: if it ends with a `/`, or if an empty
segment is its first fault. -/
theorem absolute_path_resolution_iff {path : List Char} (habs : path.head? = some '/') :
    (∀ cwd cwd', withCwd cwd path = withCwd cwd' path) ∧
      ('\x00' ∈ path → ∀ cwd, withCwd cwd path = .error .containsNullByte) ∧
      ('\x00' ∉ path →
        ((∀ cwd, Resolves [] (absoluteSegments path) ((withCwd cwd path).map segments)) ↔
          EndsWithSlash path ∨ FailsAtEmpty [] (absoluteSegments path))) := by
  refine ⟨fun cwd cwd' => ?_, fun hnul cwd => (withCwd_containsNullByte_iff cwd path).mpr hnul,
    fun hnul => ?_⟩
  · simp only [withCwd, if_pos habs]
  have hres : ∀ cwd, Resolves [] (pathSegments path) ((withCwd cwd path).map segments) :=
    fun cwd => withCwd_resolves hnul (by simp) (if_pos habs)
  by_cases hend : EndsWithSlash path
  · rw [← (pathSegments_absolute path habs).1 hend]
    exact iff_of_true hres (Or.inl hend)
  · obtain ⟨rest, hsegments⟩ := (pathSegments_absolute path habs).2 hend
    -- the first segment is empty, whatever the others are
    have hfail : ∀ cwd, (withCwd cwd path).map segments = .error .containsEmptySegment := by
      intro cwd
      have h := hres cwd
      rw [hsegments] at h
      exact h.functional
    rw [or_iff_right hend, ← resolves_containsEmptySegment_iff]
    constructor
    · intro h
      rw [← hfail root]
      exact h root
    · intro h cwd
      rw [hfail cwd]
      exact h

/-- From `/home`, the path `/usr/lib/`. -/
theorem absolute_path_resolution_usr_lib :
    Resolves [] ["usr".toList, "lib".toList]
      ((withCwd ⟨"home".toList⟩ "/usr/lib/".toList).map segments) := by
  have habs : "/usr/lib/".toList.head? = some '/' := by decide
  have hend : EndsWithSlash "/usr/lib/".toList := by
    unfold EndsWithSlash
    decide
  exact ((absolute_path_resolution_iff habs).2.2 (by decide)).mpr (Or.inl hend) _

/-- **The path `/usr`** contains an empty segment, as `with_cwd` sees it. -/
theorem absolute_path_refused :
    withCwd root "/usr".toList = .error .containsEmptySegment ∧
      withCwd root "/".toList = .error .containsEmptySegment ∧
      Resolves [] (absoluteSegments "/usr".toList) (.ok ["usr".toList]) ∧
      ¬ Resolves [] (absoluteSegments "/usr".toList)
        ((withCwd root "/usr".toList).map segments) := by
  refine ⟨by decide, by decide, resolves_iff.mpr (by decide), fun h => ?_⟩
  exact absurd h.functional (by decide)

end Stuos.Fs.AbsolutePath
