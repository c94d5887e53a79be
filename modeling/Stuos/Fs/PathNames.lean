import Stuos.Fs.Path
import Stuos.Lib.Lts

/-!
# What an absolute path holds

The values that `root`, `make_cwd` and `with_cwd` build, in any number of steps.
`Represented` is what the comments on `AbsolutePath` say of its text.

The text of a path is its segments joined again, so all of it is about the stack of
`with_cwd`.  A relative path starts from the segments of the current directory, and
the root yields one empty segment; unless the path climbs above the root, that segment
stays at the bottom of the stack and puts a `/` in front of the text.

* `pushSegments_names`: what the loop of `with_cwd` pushes are names.
* `pushSegments_under`: what becomes of an empty segment at the bottom.
* `withCwd_represented_iff`: when one step keeps the representation.
* `built_paths_represented_iff`: when a whole run does.
-/

namespace Stuos.Fs

open Stuos.Lib

namespace AbsolutePath

/-- A segment that can be looked up in a directory. -/
def IsName (s : Segment) : Prop := s ≠ [] ∧ s ≠ ['.'] ∧ s ≠ ['.', '.']

/-- The text of a path, as `AbsolutePath` documents it. -/
structure Represented (p : AbsolutePath) : Prop where
  noLeadingSlash : p.data.head? ≠ some '/'
  noTrailingSlash : p.data.getLast? ≠ some '/'
  noNul : '\x00' ∉ p.data
  names : p ≠ root → ∀ s ∈ p.intoIter, IsName s

/-- The segments of `path`, as `with_cwd` takes it apart. -/
def pathSegments (path : List Char) : List Segment :=
  ((stripTrailingSlash ((stripSlash path).getD path)).getD path).splitOn '/'

/-- A relative path, taken from the root, that ends below it without climbing above it. -/
def DescendsFromRoot (cwd : AbsolutePath) (path : List Char) : Prop :=
  cwd = root ∧ path.head? ≠ some '/' ∧ ∃ stack, stack ≠ [] ∧
    pushSegments [] (pathSegments path) = .ok stack

/-! ### Splitting -/

theorem mem_of_mem_splitOn {s : Segment} {text : List Char} (h : s ∈ text.splitOn '/') :
    '/' ∉ s ∧ ∀ c ∈ s, c ∈ text := by
  induction text generalizing s with
  | nil =>
    simp only [List.splitOn_nil, List.mem_singleton] at h
    subst h
    simp
  | cons a text ih =>
    rw [List.splitOn_cons_eq_if_modifyHead] at h
    split at h
    · rcases List.mem_cons.mp h with rfl | h
      · simp
      · exact ⟨(ih h).1, fun c hc => List.mem_cons_of_mem _ ((ih h).2 c hc)⟩
    · rename_i hne
      obtain ⟨first, rest, hsplit⟩ := List.exists_cons_of_ne_nil (List.splitOn_ne_nil '/' text)
      rw [hsplit] at ih h
      rw [List.modifyHead_cons] at h
      rcases List.mem_cons.mp h with rfl | h
      · obtain ⟨h1, h2⟩ := ih (List.mem_cons_self ..)
        have hne' : '/' ≠ a := fun he => hne (by simp [← he])
        refine ⟨by simp [h1, hne'], ?_⟩
        intro c hc
        rcases List.mem_cons.mp hc with rfl | hc
        · simp
        · exact List.mem_cons_of_mem _ (h2 c hc)
      · obtain ⟨h1, h2⟩ := ih (List.mem_cons_of_mem _ h)
        exact ⟨h1, fun c hc => List.mem_cons_of_mem _ (h2 c hc)⟩

theorem mem_intercalate {c : Char} {l : List Segment} (h : c ∈ ['/'].intercalate l) :
    c = '/' ∨ ∃ s ∈ l, c ∈ s := by
  induction l with
  | nil => simp at h
  | cons a l ih =>
    cases l with
    | nil => exact .inr ⟨a, by simp, by simpa using h⟩
    | cons b l =>
      rw [List.intercalate_cons_cons, List.mem_append, List.mem_append] at h
      rcases h with (h | h) | h
      · exact .inr ⟨a, by simp, h⟩
      · exact .inl (by simpa using h)
      · rcases ih h with h | ⟨s, hs, hc⟩
        · exact .inl h
        · exact .inr ⟨s, List.mem_cons_of_mem _ hs, hc⟩

theorem represented_of_names {p : AbsolutePath} (hnul : '\x00' ∉ p.data)
    (h : ∀ s ∈ p.intoIter, s ≠ []) (hnames : p ≠ root → ∀ s ∈ p.intoIter, IsName s) :
    Represented p := by
  refine ⟨?_, ?_, hnul, hnames⟩
  · intro hhead
    obtain ⟨text, htext⟩ := List.head?_eq_some_iff.mp hhead
    refine h [] ?_ rfl
    rw [intoIter, htext, List.splitOn_cons_eq_if_modifyHead, if_pos (by simp)]
    simp
  · intro hlast
    obtain ⟨text, htext⟩ := List.getLast?_eq_some_iff.mp hlast
    refine h [] ?_ rfl
    rw [intoIter, htext, List.splitOn_append_cons_self]
    simp

theorem represented_root : Represented root :=
  ⟨by simp [root], by simp [root], by simp [root], fun h => absurd rfl h⟩

/-- **Names joined by `/`** are a path with these segments. -/
theorem represented_join {l : List Segment} (h : ∀ s ∈ l, IsName s ∧ '/' ∉ s ∧ '\x00' ∉ s) :
    Represented ⟨['/'].intercalate l⟩ := by
  by_cases hl : l = []
  · subst hl
    exact represented_root
  · have hiter : intoIter ⟨['/'].intercalate l⟩ = l :=
      List.splitOn_intercalate '/' (fun s hs => (h s hs).2.1) hl
    refine represented_of_names ?_ ?_ ?_
    · intro hmem
      rcases mem_intercalate hmem with he | ⟨s, hs, hc⟩
      · exact absurd he (by decide)
      · exact (h s hs).2.2 hc
    · intro s hs
      rw [hiter] at hs
      exact (h s hs).1.1
    · intro _ s hs
      rw [hiter] at hs
      exact (h s hs).1

/-! ### `make_cwd` -/

theorem checkSegments_names {l : List Segment} (h : checkSegments l = .ok ()) :
    ∀ s ∈ l, IsName s := by
  induction l with
  | nil => simp
  | cons a l ih =>
    rw [checkSegments] at h
    split at h
    · simp at h
    · split at h
      · simp at h
      · rename_i h1 h2
        rw [not_or] at h2
        intro s hs
        rcases List.mem_cons.mp hs with rfl | hs
        · exact ⟨h1, h2⟩
        · exact ih h s hs

theorem makeCwd_represented {cwd : List Char} {p : AbsolutePath} (h : makeCwd cwd = .ok p) :
    Represented p := by
  rw [makeCwd] at h
  split at h
  · simp at h
  · rename_i text _
    simp only at h
    split at h
    · simp at h
    · rename_i hnul
      split at h
      · simp at h
      · rename_i hcheck
        rw [Except.ok.injEq] at h
        subst h
        have hnames := checkSegments_names hcheck
        exact represented_of_names hnul (fun s hs => (hnames s hs).1) (fun _ => hnames)

/-! ### `with_cwd` -/

/-- **The loop pushes names**: what is on the stack at the end was there before or is a
segment of the path. -/
theorem pushSegments_names {l stack stack' : List Segment}
    (h : pushSegments stack l = .ok stack') :
    ∀ s ∈ stack', s ∈ stack ∨ s ∈ l ∧ IsName s := by
  induction l generalizing stack with
  | nil =>
    rw [pushSegments, Except.ok.injEq] at h
    subst h
    exact fun s hs => .inl hs
  | cons a l ih =>
    rw [pushSegments] at h
    split at h
    · simp at h
    · rename_i h1
      split at h
      · intro s hs
        rcases ih h s hs with hs | ⟨hs, hn⟩
        · exact .inl hs
        · exact .inr ⟨List.mem_cons_of_mem _ hs, hn⟩
      · rename_i h2
        split at h
        · split at h
          · simp at h
          · intro s hs
            rcases ih h s hs with hs | ⟨hs, hn⟩
            · exact .inl (List.dropLast_subset _ hs)
            · exact .inr ⟨List.mem_cons_of_mem _ hs, hn⟩
        · rename_i h3
          intro s hs
          rcases ih h s hs with hs | ⟨hs, hn⟩
          · rcases List.mem_append.mp hs with hs | hs
            · exact .inl hs
            · rw [List.mem_singleton] at hs
              subst hs
              exact .inr ⟨List.mem_cons_self .., h1, h2, h3⟩
          · exact .inr ⟨List.mem_cons_of_mem _ hs, hn⟩

/-- **An empty segment under the stack** stays there, or the path climbs above it and only
names are left. -/
theorem pushSegments_under {l stack stack' : List Segment}
    (h : pushSegments ([] :: stack) l = .ok stack') :
    (∃ rest, pushSegments stack l = .ok rest ∧ stack' = [] :: rest) ∨
      (pushSegments stack l = .error .tooManyDotDot ∧ ∀ s ∈ stack', s ∈ l ∧ IsName s) := by
  induction l generalizing stack with
  | nil =>
    rw [pushSegments, Except.ok.injEq] at h
    exact .inl ⟨stack, rfl, h.symm⟩
  | cons a l ih =>
    have hmore : ∀ {st}, pushSegments ([] :: st) l = .ok stack' →
        (∃ rest, pushSegments st l = .ok rest ∧ stack' = [] :: rest) ∨
          (pushSegments st l = .error .tooManyDotDot ∧ ∀ s ∈ stack', s ∈ a :: l ∧ IsName s) := by
      intro st hst
      rcases ih hst with hr | ⟨hr, hn⟩
      · exact .inl hr
      · exact .inr ⟨hr, fun s hs => ⟨List.mem_cons_of_mem _ (hn s hs).1, (hn s hs).2⟩⟩
    rw [pushSegments] at h ⊢
    split at h
    · simp at h
    · rename_i h1
      rw [if_neg h1]
      split at h
      · rename_i h2
        rw [if_pos h2]
        exact hmore h
      · rename_i h2
        rw [if_neg h2]
        split at h
        · rename_i h3
          rw [if_pos h3]
          rw [if_neg (by simp)] at h
          cases stack with
          | nil =>
            -- the empty segment itself is popped
            right
            refine ⟨if_pos rfl, ?_⟩
            intro s hs
            rcases pushSegments_names h s hs with hs | ⟨hs, hn⟩
            · simp at hs
            · exact ⟨List.mem_cons_of_mem _ hs, hn⟩
          | cons b stack =>
            rw [if_neg (by simp)]
            exact hmore h
        · rename_i h3
          rw [if_neg h3]
          exact hmore h

theorem mem_of_mem_pathSegments {s : Segment} {path : List Char} (h : s ∈ pathSegments path) :
    '/' ∉ s ∧ ∀ c ∈ s, c ∈ path := by
  obtain ⟨h1, h2⟩ := mem_of_mem_splitOn h
  refine ⟨h1, fun c hc => ?_⟩
  have hc := h2 c hc
  have hslash : ∀ x ∈ (stripSlash path).getD path, x ∈ path := by
    intro x hx
    unfold stripSlash at hx
    split at hx
    · exact List.mem_cons_of_mem _ hx
    · exact hx
  rw [stripTrailingSlash] at hc
  split at hc
  · exact hslash c (List.dropLast_subset _ hc)
  · exact hc

theorem withCwd_eq_ok {cwd p : AbsolutePath} {path : List Char}
    (h : withCwd cwd path = .ok p) :
    '\x00' ∉ path ∧ ∃ stack, p = ⟨['/'].intercalate stack⟩ ∧
      pushSegments (if path.head? = some '/' then [] else cwd.intoIter) (pathSegments path) =
        .ok stack := by
  rw [withCwd] at h
  split at h
  · simp at h
  · rename_i hnul
    simp only at h
    split at h
    · simp at h
    · rename_i stack hpush
      rw [Except.ok.injEq] at h
      exact ⟨hnul, stack, h.symm, hpush⟩

/-- **When a step keeps the representation**: unless it descends from the root. -/
theorem withCwd_represented_iff {cwd p : AbsolutePath} {path : List Char}
    (hcwd : Represented cwd) (h : withCwd cwd path = .ok p) :
    Represented p ↔ ¬ DescendsFromRoot cwd path := by
  obtain ⟨hnul, stack, rfl, hpush⟩ := withCwd_eq_ok h
  have hfrom : ∀ s ∈ pathSegments path, IsName s → IsName s ∧ '/' ∉ s ∧ '\x00' ∉ s := by
    intro s hs hn
    obtain ⟨h1, h2⟩ := mem_of_mem_pathSegments hs
    exact ⟨hn, h1, fun hc => hnul (h2 _ hc)⟩
  by_cases habs : path.head? = some '/'
  · rw [if_pos habs] at hpush
    refine iff_of_true (represented_join ?_) (fun hd => hd.2.1 habs)
    intro s hs
    rcases pushSegments_names hpush s hs with hs | ⟨hs, hn⟩
    · simp at hs
    · exact hfrom s hs hn
  · rw [if_neg habs] at hpush
    by_cases hroot : cwd = root
    · subst hroot
      have hunder : pushSegments ([] :: []) (pathSegments path) = .ok stack := hpush
      rcases pushSegments_under hunder with ⟨rest, hrest, rfl⟩ | ⟨herr, hnames⟩
      · cases rest with
        | nil =>
          refine iff_of_true represented_root ?_
          rintro ⟨_, _, st, hne, hst⟩
          rw [hrest, Except.ok.injEq] at hst
          exact hne hst.symm
        | cons a rest =>
          refine iff_of_false ?_ (fun hd => hd ⟨rfl, habs, a :: rest, by simp, hrest⟩)
          intro hr
          exact hr.noLeadingSlash (by simp [List.intercalate_cons_cons])
      · refine iff_of_true (represented_join fun s hs => hfrom s (hnames s hs).1 (hnames s hs).2) ?_
        rintro ⟨_, _, st, _, hst⟩
        rw [herr] at hst
        simp at hst
    · refine iff_of_true (represented_join ?_) (fun hd => hroot hd.1)
      intro s hs
      rcases pushSegments_names hpush s hs with hs | ⟨hs, hn⟩
      · obtain ⟨h1, h2⟩ := mem_of_mem_splitOn hs
        exact ⟨hcwd.names hroot s hs, h1, fun hc => hcwd.noNul (h2 _ hc)⟩
      · exact hfrom s hs hn

/-! ### Runs -/

/-- Building paths: from the root or a current directory, one `with_cwd` after the other. -/
def building : Lts AbsolutePath (List Char) where
  init p := p = root ∨ ∃ cwd, makeCwd cwd = .ok p
  step cwd path p := withCwd cwd path = .ok p

theorem init_represented {p : AbsolutePath} (h : building.init p) : Represented p := by
  rcases h with rfl | ⟨cwd, h⟩
  · exact represented_root
  · exact makeCwd_represented h

/-- **When every path that is built is represented**: exactly if no step descends from the
root by a relative path. -/
theorem built_paths_represented_iff (p₀ p : AbsolutePath) (l : List (List Char))
    (h0 : building.init p₀) :
    (building.Run (fun cwd _ => Represented cwd) p₀ l p ∧ Represented p) ↔
      building.Run (fun cwd path => ¬ DescendsFromRoot cwd path) p₀ l p := by
  constructor
  · rintro ⟨hrun, hp⟩
    induction hrun with
    | nil => exact .nil _
    | snoc hrun hcwd hstep ih =>
      exact .snoc (ih hcwd) ((withCwd_represented_iff hcwd hstep).mp hp) hstep
  · intro hrun
    induction hrun with
    | nil => exact ⟨.nil _, init_represented h0⟩
    | snoc hrun hok hstep ih =>
      exact ⟨.snoc ih.1 ih.2 hstep, (withCwd_represented_iff ih.2 hstep).mpr hok⟩

/-- From `/usr`, the relative path `lib`. -/
theorem built_paths_represented_usr_lib :
    ∃ p, building.Run (fun cwd path => ¬ DescendsFromRoot cwd path) ⟨"usr".toList⟩
        ["lib".toList] p ∧ p = ⟨"usr/lib".toList⟩ ∧ Represented p := by
  have hinit : building.init ⟨"usr".toList⟩ := .inr ⟨"/usr".toList, by decide⟩
  have hok : ¬ DescendsFromRoot ⟨"usr".toList⟩ "lib".toList :=
    fun h => absurd h.1 (by decide)
  have hstep : building.step ⟨"usr".toList⟩ "lib".toList ⟨"usr/lib".toList⟩ := by
    show withCwd _ _ = _
    decide
  have hrun : building.Run (fun cwd path => ¬ DescendsFromRoot cwd path) ⟨"usr".toList⟩
      ["lib".toList] ⟨"usr/lib".toList⟩ := Lts.Run.snoc (.nil _) hok hstep
  exact ⟨_, hrun, rfl, ((built_paths_represented_iff _ _ _ hinit).mpr hrun).2⟩

/-- From the root, the relative path `dev` gives the text `/dev`. -/
theorem built_path_with_leading_slash :
    building.init root ∧ withCwd root "dev".toList = .ok ⟨"/dev".toList⟩ ∧
      ¬ Represented ⟨"/dev".toList⟩ :=
  ⟨.inl rfl, by decide, fun h => h.noLeadingSlash (by decide)⟩

end AbsolutePath

end Stuos.Fs
