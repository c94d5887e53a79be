import Stuos.Lib.Loop
import Stuos.Lib.Runs
import Stuos.Libc.CString

/-!
# Looking for a program

`execvp` tries the file in each component of `PATH`.  The loop takes `end == NULL` for the sign of
the last component, but `strchrnul` returns the terminator there and never `NULL`: the loop goes on
behind the terminator.  `search_ends` says what it has tried by then, and `execvp_overreads` that no
search that finds nothing ends in time.
-/

namespace Stuos.Libc

open Stuos.Lib

def ENOENT : Int := 2
def ENOEXEC : Int := 8
def EACCES : Int := 13
def ENOTDIR : Int := 20

/-! ### The source -/

/-- What `execvp` calls: `execv` returns an error number unless the program is replaced, and
`malloc` gives memory or not, each for the attempt of that number. -/
structure Calls where
  execv : Nat → List UInt8 → Option Int
  malloc : Nat → Bool

/-- The variables of the loop, and the paths that have been tried. -/
structure Search where
  p : Ptr
  found_file_failed_access : Bool := false
  attempts : List (List UInt8) := []
  deriving DecidableEq, Repr

/-- The return with -1, or no return. -/
structure Ended where
  errno : Option Int
  attempts : List (List UInt8)
  deriving DecidableEq, Repr

/-- A fault, and the paths that have been tried. -/
abbrev Died := Fault × List (List UInt8)

/-- The path of the file in a directory; an empty component means the current directory. -/
def candidate (file dir : List UInt8) : List UInt8 :=
  if dir.length ≠ 0 then dir ++ [47] ++ file else file  -- '/'

/-- A round of the loop. -/
def try_component (calls : Calls) (file : List UInt8) (s : Search) :
    Except Died (Loop.Step Search Ended) := do
  let stop ← (strchrnul s.p 58).mapError (·, s.attempts)  -- ':'
  -- the result as a pointer, which might be `NULL`
  let end? : Option Ptr := some stop
  let dirlen := s.p.length - stop.length
  let path := candidate file (s.p.take dirlen)
  if ¬ calls.malloc s.attempts.length then throw (.abort, s.attempts)
  else
    let attempts := s.attempts ++ [path]
    match calls.execv s.attempts.length path with
    | none => return .done ⟨none, attempts⟩
    | some err =>
      if err = ENOEXEC then throw (.abort, attempts)
      else if err ≠ EACCES ∧ err ≠ ENOENT ∧ err ≠ ENOTDIR then return .done ⟨some err, attempts⟩
      else
        let found := if err = EACCES then true else s.found_file_failed_access
        if end?.isNone then return .done ⟨some (if found then EACCES else ENOENT), attempts⟩
        else return .again ⟨stop.tail, found, attempts⟩

/-- `path` is the value of `PATH`; the loop is run for at most `fuel` rounds. -/
def execvp (calls : Calls) (fuel : Nat) (path file : Option Ptr) (argv : Bool) :
    Option (Except Died Ended) :=
  match file with
  | none => some (.ok ⟨some ENOENT, []⟩)
  | some file =>
    match deref file with
    | .error f => some (.error (f, []))
    | .ok c =>
      if char c = 0 ∨ ¬ argv then some (.ok ⟨some ENOENT, []⟩)
      else
        -- if file contains '/', do not search PATH
        match strchr file 47 with
        | .error f => some (.error (f, []))
        | .ok slash =>
          let text := file.takeWhile (· ≠ 0)
          if slash.isSome then some (.ok ⟨calls.execv 0 text, [text]⟩)
          else
            match path with
            | none => some (.error (.abort, []))
            | some path => Loop.run (try_component calls text) fuel { p := path }

/-! ### The search -/

/-- Every attempt fails because there is no such file or no access to it. -/
def FindsNothing (calls : Calls) : Prop :=
  ∀ n path, ∃ err, calls.execv n path = some err ∧ (err = ENOENT ∨ err = ENOTDIR ∨ err = EACCES)

/-- The paths that are to be tried. -/
def candidates (path file : List UInt8) : List (List UInt8) :=
  (path.splitOn 58).map (candidate file)

theorem splitOn_of_dropWhile_nil {t : List UInt8} (h : t.dropWhile (· ≠ 58) = []) :
    t.splitOn 58 = [t] := by
  rw [List.splitOn_eq_splitOnP]
  apply List.splitOnP_eq_singleton
  intro b hb
  have := List.dropWhile_eq_nil_iff.mp h b hb
  simpa using this

theorem splitOn_of_dropWhile_cons {t rest : List UInt8} {b : UInt8}
    (h : t.dropWhile (· ≠ 58) = b :: rest) :
    t.splitOn 58 = t.takeWhile (· ≠ 58) :: rest.splitOn 58 := by
  have hb : b = 58 := not_not.mp (not_of_run_end (p := (· ≠ 58)) h)
  conv_lhs => rw [← run_append_cons (p := (· ≠ 58)) h]
  rw [List.splitOn_eq_splitOnP, List.splitOn_eq_splitOnP]
  refine List.splitOnP_append_cons_of_forall_mem ?_ b (by simp [hb]) rest
  intro c hc
  simpa using of_mem_run (p := (· ≠ 58)) hc

section

variable {calls : Calls} {file t : List UInt8} {found : Bool} {attempts : List (List UInt8)}

/-- **A round without success** goes on behind the component, or has no memory. -/
theorem try_component_eq (file : List UInt8) (found : Bool) (attempts : List (List UInt8))
    (hcalls : FindsNothing calls) (ht : ∀ b ∈ t, b ≠ 0) :
    ∃ found', try_component calls file ⟨t ++ [0], found, attempts⟩ =
      if ¬ calls.malloc attempts.length then .error (.abort, attempts)
      else .ok (.again ⟨(t.dropWhile (· ≠ 58) ++ [0]).tail, found',
        attempts ++ [candidate file (t.takeWhile (· ≠ 58))]⟩) := by
  have hchr : strchrnul (t ++ [0]) 58 = .ok (t.dropWhile (· ≠ 58) ++ [0]) := strchrnul_eq ht 58 []
  have hdir : (t ++ [0]).take ((t ++ [0]).length - (t.dropWhile (· ≠ 58) ++ [0]).length) =
      t.takeWhile (· ≠ 58) := by
    have hlen := length_run (· ≠ (58 : UInt8)) t
    have hdirlen : t.length + 1 - ((t.dropWhile (· ≠ 58)).length + 1) =
        (t.takeWhile (· ≠ 58)).length := by omega
    rw [List.length_append, List.length_append, List.length_singleton, hdirlen,
      List.take_append_of_le_length (by omega), take_run]
  obtain ⟨err, herr, hcases⟩ := hcalls attempts.length (candidate file (t.takeWhile (· ≠ 58)))
  refine ⟨if err = EACCES then true else found, ?_⟩
  have hexec : err ≠ ENOEXEC := by
    rcases hcases with rfl | rfl | rfl <;> decide
  have hgo : ¬ (err ≠ EACCES ∧ err ≠ ENOENT ∧ err ≠ ENOTDIR) := by
    rcases hcases with rfl | rfl | rfl <;> decide
  rw [try_component, hchr]
  simp only [Except.mapError, ok_bind, hdir, herr, if_neg hexec, if_neg hgo, Option.isNone_some,
    Bool.false_eq_true, if_false]
  rfl

/-- **The loop goes on behind the terminator**, once every component has been tried. -/
theorem search_ends (file : List UInt8) (found : Bool) (attempts : List (List UInt8))
    (hcalls : FindsNothing calls) (ht : ∀ b ∈ t, b ≠ 0) :
    ∃ e, Loop.Ends (try_component calls file) ⟨t ++ [0], found, attempts⟩ (.error e) ∧
      ((∀ n, calls.malloc n = true) → e = (.overread, attempts ++ candidates t file)) := by
  induction hn : t.length using Nat.strong_induction_on generalizing t found attempts with
  | _ n ih =>
    obtain ⟨found', hround⟩ := try_component_eq file found attempts hcalls ht
    by_cases hmalloc : calls.malloc attempts.length = true
    · rw [if_neg (not_not.mpr hmalloc)] at hround
      rcases hdrop : t.dropWhile (· ≠ 58) with _ | ⟨b, rest⟩
      · -- the last component: the next round reads behind the terminator
        rw [hdrop] at hround
        have htake : t.takeWhile (· ≠ 58) = t := run_eq_self (p := (· ≠ 58)) hdrop
        have hover : try_component calls file
            ⟨([] : Ptr), found', attempts ++ [candidate file (t.takeWhile (· ≠ 58))]⟩ =
              .error (.overread, attempts ++ [candidate file (t.takeWhile (· ≠ 58))]) := rfl
        refine ⟨_, (Loop.ends_again hround).mpr ((Loop.ends_error hover).mpr rfl), fun _ => ?_⟩
        rw [candidates, splitOn_of_dropWhile_nil hdrop, htake]
        rfl
      · rw [hdrop] at hround
        have hsub := List.dropWhile_sublist (· ≠ (58 : UInt8)) (l := t)
        rw [hdrop] at hsub
        have hlen : rest.length < t.length := by
          have := hsub.length_le
          rw [List.length_cons] at this
          omega
        have hrest : ∀ c ∈ rest, c ≠ 0 := fun c hc =>
          ht c (hsub.subset (List.mem_cons_of_mem _ hc))
        obtain ⟨e, hends, he⟩ := ih rest.length (by omega) _ _ hrest rfl
        refine ⟨e, (Loop.ends_again hround).mpr hends, fun hall => ?_⟩
        rw [he hall, candidates, candidates, splitOn_of_dropWhile_cons hdrop, List.map_cons,
          List.append_assoc]
        rfl
    · rw [if_pos hmalloc] at hround
      exact ⟨_, (Loop.ends_error hround).mpr rfl, fun hall => absurd (hall _) hmalloc⟩

end

/-- Every component is tried once and in order, and -1 is returned with the right error. -/
def TriesEach (calls : Calls) (path file : CString) : Prop :=
  ∃ fuel, execvp calls fuel (some path.bytes) (some file.bytes) true =
    some (.ok ⟨some (if ∃ n < (candidates path.text file.text).length,
        calls.execv n ((candidates path.text file.text).getD n []) = some EACCES then EACCES
      else ENOENT), candidates path.text file.text⟩)

theorem execvp_of_empty (calls : Calls) (fuel : Nat) (path : Option Ptr) {file : CString}
    (hfile : file.text = []) :
    execvp calls fuel path (some file.bytes) true = some (.ok ⟨some ENOENT, []⟩) := by
  rw [CString.bytes, hfile]
  rfl

theorem execvp_of_ne_nil (calls : Calls) (fuel : Nat) (path : CString) {file : CString}
    (hfile : file.text ≠ []) (hslash : 47 ∉ file.text) :
    execvp calls fuel (some path.bytes) (some file.bytes) true =
      Loop.run (try_component calls file.text) fuel { p := path.bytes } := by
  have hchr : strchr file.bytes 47 = .ok none := by
    have := strchr_eq (c := 47) file.nonzero (by decide) []
    rwa [if_neg hslash] at this
  have htext : file.bytes.takeWhile (· ≠ 0) = file.text := by
    rw [CString.bytes, List.takeWhile_append_of_pos (by simpa using file.nonzero)]
    simp
  obtain ⟨b, rest, hcons⟩ := List.exists_cons_of_ne_nil hfile
  have hderef : deref file.bytes = .ok b := by
    rw [CString.bytes, hcons]
    rfl
  have hb : char b ≠ 0 := fun h => file.nonzero b (by rw [hcons]; simp) (char_eq_zero.mp h)
  simp only [execvp, hderef, hchr, htext, hb, not_true_eq_false, or_self, if_false,
    Option.isSome_none, Bool.false_eq_true]

/-- **No search that finds nothing ends as it should**: it tries each component, and then reads on
behind the terminator of `PATH`. -/
theorem execvp_overreads (calls : Calls) (path file : CString) (hslash : 47 ∉ file.text)
    (hcalls : FindsNothing calls) :
    ¬ TriesEach calls path file ∧
      (file.text ≠ [] → (∀ n, calls.malloc n = true) →
        ∃ fuel, execvp calls fuel (some path.bytes) (some file.bytes) true =
          some (.error (.overread, candidates path.text file.text))) := by
  by_cases hfile : file.text = []
  · refine ⟨?_, fun h => absurd hfile h⟩
    rintro ⟨fuel, hfuel⟩
    rw [execvp_of_empty calls fuel _ hfile, Option.some.injEq, Except.ok.injEq,
      Ended.mk.injEq] at hfuel
    have hne : candidates path.text file.text ≠ [] := by
      rw [candidates]
      simp
    exact hne hfuel.2.symm
  · obtain ⟨e, hends, he⟩ := search_ends file.text false [] hcalls path.nonzero
    constructor
    · rintro ⟨fuel, hfuel⟩
      rw [execvp_of_ne_nil calls fuel path hfile hslash] at hfuel
      cases Loop.Ends.unique hends ⟨fuel, hfuel⟩
    · intro _ hmalloc
      obtain ⟨fuel, hfuel⟩ := hends
      refine ⟨fuel, ?_⟩
      rw [execvp_of_ne_nil calls fuel path hfile hslash]
      rw [he hmalloc, List.nil_append] at hfuel
      exact hfuel

/-- `"/a:"` -/
def pathOfTwo : CString := ⟨[47, 97, 58], by simp, by decide⟩

/-- `"x"` -/
def fileX : CString := ⟨[120], by simp, by decide⟩

/-- No file is there, and there is always memory. -/
def nothingThere : Calls := ⟨fun _ _ => some ENOENT, fun _ => true⟩

theorem execvp_overreads_pathOfTwo :
    ¬ TriesEach nothingThere pathOfTwo fileX ∧
      (fileX.text ≠ [] → (∀ n, nothingThere.malloc n = true) →
        ∃ fuel, execvp nothingThere fuel (some pathOfTwo.bytes) (some fileX.bytes) true =
          some (.error (.overread, candidates pathOfTwo.text fileX.text))) :=
  execvp_overreads nothingThere pathOfTwo fileX (by decide) fun _ _ => ⟨ENOENT, rfl, Or.inl rfl⟩

/-- `/a/x` and `x` are tried, and the third round reads behind the terminator. -/
theorem execvp_pathOfTwo :
    execvp nothingThere 3 (some pathOfTwo.bytes) (some fileX.bytes) true =
      some (.error (.overread, [[47, 97, 47, 120], [120]])) ∧
    ¬ TriesEach nothingThere pathOfTwo fileX := by
  have hrun : execvp nothingThere 3 (some pathOfTwo.bytes) (some fileX.bytes) true =
      some (.error (.overread, [[47, 97, 47, 120], [120]])) := by decide
  refine ⟨hrun, ?_⟩
  have hne : fileX.text ≠ [] := by decide
  rintro ⟨fuel, hfuel⟩
  rw [execvp_of_ne_nil _ _ _ hne (by decide)] at hfuel hrun
  cases Loop.Ends.unique ⟨3, hrun⟩ ⟨fuel, hfuel⟩

end Stuos.Libc
