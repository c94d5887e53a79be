import Stuos.Fs.PathNames

/-!
# Which texts `make_cwd` takes

`Spells s names`: the text `s` is `/`, or the names after one another with a `/` in
front of each and perhaps one more at the end.

* `makeCwd_of_spells`: such a text is taken, unless it is `/`.
* `spells_of_makeCwd`: nothing else is taken, and the segments are the names.
* `makeCwd_exact_iff`: **`make_cwd` is right about every text but `/`**.  Without its
  `/` that text is empty, and splitting it gives one empty segment.
-/

namespace Stuos.Fs

namespace AbsolutePath

/-- A normalised absolute path, with or without a `/` at its end. -/
structure Spells (s : List Char) (names : List Segment) : Prop where
  each : ∀ n ∈ names, IsName n ∧ '/' ∉ n ∧ '\x00' ∉ n
  text : (names = [] ∧ s = ['/']) ∨
    (names ≠ [] ∧ (s = '/' :: ['/'].intercalate names ∨
      s = '/' :: (['/'].intercalate names ++ ['/'])))

/-- `make_cwd` takes `s` exactly if it is normalised, and keeps its names. -/
def MakeCwdExact (s : List Char) : Prop :=
  (∀ names, Spells s names → ∃ p, makeCwd s = .ok p ∧ p.segments = names) ∧
    ∀ p, makeCwd s = .ok p → Spells s p.segments

theorem checkSegments_of_names {l : List Segment} (h : ∀ s ∈ l, IsName s) :
    checkSegments l = .ok () := by
  induction l with
  | nil => rfl
  | cons a l ih =>
    obtain ⟨h1, h2, h3⟩ := h a (List.mem_cons_self ..)
    rw [checkSegments, if_neg h1, if_neg (by simp [h2, h3])]
    exact ih fun s hs => h s (List.mem_cons_of_mem _ hs)

theorem makeCwd_slash (text : List Char) :
    makeCwd ('/' :: text) =
      if '\x00' ∈ (stripTrailingSlash text).getD text then .error .containsNullByte
      else
        match checkSegments (((stripTrailingSlash text).getD text).splitOn '/') with
        | .error e => .error e
        | .ok () => .ok ⟨(stripTrailingSlash text).getD text⟩ := rfl

theorem strip_append_slash (text : List Char) :
    (stripTrailingSlash (text ++ ['/'])).getD (text ++ ['/']) = text := by
  simp [stripTrailingSlash]

theorem strip_of_getLast_ne {text : List Char} (h : text.getLast? ≠ some '/') :
    (stripTrailingSlash text).getD text = text := by
  simp [stripTrailingSlash, h]

theorem strip_cases (text : List Char) :
    text = (stripTrailingSlash text).getD text ∨
      text = (stripTrailingSlash text).getD text ++ ['/'] := by
  by_cases h : text.getLast? = some '/'
  · obtain ⟨front, rfl⟩ := List.getLast?_eq_some_iff.mp h
    rw [strip_append_slash]
    exact .inr rfl
  · rw [strip_of_getLast_ne h]
    exact .inl rfl

theorem makeCwd_of_spells {s : List Char} {names : List Segment} (h : Spells s names)
    (hs : s ≠ ['/']) : ∃ p, makeCwd s = .ok p ∧ p.segments = names := by
  obtain ⟨_, rfl⟩ | ⟨hne, htext⟩ := h.text
  · exact absurd rfl hs
  have hrep : Represented ⟨['/'].intercalate names⟩ := represented_join h.each
  have hiter : (['/'].intercalate names).splitOn '/' = names :=
    List.splitOn_intercalate '/' (fun n hn => (h.each n hn).2.1) hne
  have hcheck : checkSegments names = .ok () := checkSegments_of_names fun n hn => (h.each n hn).1
  have hroot : (⟨['/'].intercalate names⟩ : AbsolutePath) ≠ root := by
    intro he
    have hdata : ['/'].intercalate names = [] := congrArg AbsolutePath.data he
    rw [hdata, List.splitOn_nil] at hiter
    exact (h.each [] (by simp [← hiter])).1.1 rfl
  refine ⟨⟨['/'].intercalate names⟩, ?_, ?_⟩
  · have hstrip : ∃ text, s = '/' :: text ∧
        (stripTrailingSlash text).getD text = ['/'].intercalate names := by
      rcases htext with rfl | rfl
      · exact ⟨_, rfl, strip_of_getLast_ne hrep.noTrailingSlash⟩
      · exact ⟨_, rfl, strip_append_slash _⟩
    obtain ⟨text, rfl, hstrip⟩ := hstrip
    rw [makeCwd_slash, hstrip, if_neg hrep.noNul, hiter, hcheck]
  · rw [segments_of_ne_root hroot]
    exact hiter

theorem spells_of_makeCwd {s : List Char} {p : AbsolutePath} (h : makeCwd s = .ok p) :
    Spells s p.segments := by
  cases s with
  | nil => simp [makeCwd, stripSlash] at h
  | cons c text =>
    by_cases hc : c = '/'
    · subst hc
      have hr := makeCwd_represented h
      rw [makeCwd_slash] at h
      split at h
      · simp at h
      split at h
      · simp at h
      rename_i hcheck
      rw [Except.ok.injEq] at h
      have hdata : (stripTrailingSlash text).getD text = p.data := congrArg AbsolutePath.data h
      have hroot : p ≠ root := by
        rintro rfl
        rw [hdata] at hcheck
        exact absurd hcheck (by decide)
      refine ⟨?_, .inr ⟨fun he => hroot (segments_eq_nil.mp he), ?_⟩⟩
      · intro n hn
        rw [segments_of_ne_root hroot] at hn
        obtain ⟨h1, h2⟩ := mem_of_mem_splitOn hn
        exact ⟨hr.names hroot n hn, h1, fun hc => hr.noNul (h2 _ hc)⟩
      · rw [intercalate_segments, ← hdata]
        rcases strip_cases text with ht | ht
        · exact .inl (congrArg (List.cons '/') ht)
        · exact .inr (congrArg (List.cons '/') ht)
    · have hrel : makeCwd (c :: text) = .error .isRelative := by
        rw [makeCwd, stripSlash]
        intro t ht
        exact hc (List.cons.inj ht).1
      rw [hrel] at h
      cases h

/-- **`make_cwd` takes exactly the normalised absolute paths, `/` apart.** -/
theorem makeCwd_exact_iff (s : List Char) : MakeCwdExact s ↔ s ≠ ['/'] := by
  constructor
  · rintro ⟨haccepts, _⟩ rfl
    obtain ⟨p, hp, _⟩ := haccepts [] ⟨by simp, .inl ⟨rfl, rfl⟩⟩
    have herr : makeCwd ['/'] = .error .containsEmptySegment := by decide
    rw [herr] at hp
    cases hp
  · intro hs
    exact ⟨fun names hn => makeCwd_of_spells hn hs, fun p hp => spells_of_makeCwd hp⟩

/-- The current directory every process starts with is refused. -/
theorem makeCwd_root_refused :
    Spells ['/'] [] ∧ makeCwd ['/'] = .error .containsEmptySegment ∧
      ¬ ∀ s, MakeCwdExact s := by
  refine ⟨⟨by simp, .inl ⟨rfl, rfl⟩⟩, by decide, fun h => ?_⟩
  obtain ⟨p, hp, _⟩ := (h ['/']).1 [] ⟨by simp, .inl ⟨rfl, rfl⟩⟩
  exact absurd hp (by simp [makeCwd, stripSlash, stripTrailingSlash, checkSegments])

end AbsolutePath

end Stuos.Fs
