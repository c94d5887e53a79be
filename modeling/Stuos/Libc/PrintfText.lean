import Stuos.Libc.Printf

/-!
# What is printed

The characters that a format prints do not depend on where they go: `format_string_loop` looks at
the gadget only for how many characters there are so far.  So all functions of the family print the
same characters, and differ in how many of them they keep.

* `formatRound_text`, `format_text`: the characters of a round, and of a format.
* `puts_keep`, `termination_buffer`: what a gadget keeps.
* `printf_family_agree`: **every function of the family keeps the front of the same text**, and
  returns how long that text is.
-/

namespace Stuos.Libc.Printf

open Stuos.Lib

/-! ### Characters -/

@[simp] theorem puts_nil (g : OutputGadget) : g.puts [] = g := rfl

theorem puts_cons (g : OutputGadget) (c : UInt8) (text : List UInt8) :
    g.puts (c :: text) = (putcharViaGadget g c).puts text := rfl

theorem puts_append (g : OutputGadget) (text text' : List UInt8) :
    g.puts (text ++ text') = (g.puts text).puts text' := List.foldl_append

@[simp] theorem putcharViaGadget_pos (g : OutputGadget) (c : UInt8) :
    (putcharViaGadget g c).pos = g.pos + 1 := by
  rw [putcharViaGadget]
  split
  · rfl
  · split <;> rfl

theorem puts_pos (g : OutputGadget) (text : List UInt8) :
    (g.puts text).pos = g.pos + UInt32.ofNat text.length := by
  induction text generalizing g with
  | nil => exact (UInt32.add_zero _).symm
  | cons c text ih =>
    rw [puts_cons, ih, putcharViaGadget_pos, List.length_cons, UInt32.ofNat_add, UInt32.add_assoc,
      UInt32.add_comm (UInt32.ofNat text.length)]
    rfl

theorem pad_puts (c : UInt8) (n : Nat) (g : OutputGadget) :
    pad c n g = g.puts (List.replicate n c) := by
  induction n generalizing g with
  | zero => rfl
  | succ n ih => rw [pad, ih, List.replicate_succ, puts_cons]

theorem putReversed_puts (g : OutputGadget) (buf : List UInt8) :
    putReversed g buf = g.puts buf.reverse := rfl

/-- How often `padFrom` prints, if `printed` characters have been printed. -/
def padCount (width : Nat) : Nat → UInt32 → Nat
  | 0, _ => 0
  | fuel + 1, printed => if printed.toNat < width then padCount width fuel (printed + 1) + 1 else 0

theorem padFrom_puts (start : UInt32) (width fuel : Nat) (g : OutputGadget) :
    padFrom start width fuel g =
      g.puts (List.replicate (padCount width fuel (g.pos - start)) 32) := by
  induction fuel generalizing g with
  | zero => rfl
  | succ fuel ih =>
    rw [padFrom, padCount]
    split
    · have hpos : g.pos + 1 - start = g.pos - start + 1 := by
        rw [UInt32.sub_eq_add_neg, UInt32.sub_eq_add_neg, UInt32.add_assoc, UInt32.add_assoc,
          UInt32.add_comm 1]
      rw [ih, putcharViaGadget_pos, hpos, List.replicate_succ, puts_cons]
    · rfl

/-- What `out_rev_` prints. -/
def outRevText (buf : List UInt8) (width : Nat) (flags : Flags) : List UInt8 :=
  (if !flags.left && !flags.zeropad then List.replicate (width - buf.length) 32 else []) ++
    buf.reverse ++
    if flags.left then List.replicate (padCount width width (UInt32.ofNat buf.length)) 32 else []

theorem outRev_puts (g : OutputGadget) (buf : List UInt8) (width : Nat) (flags : Flags) :
    outRev g buf width flags = g.puts (outRevText buf width flags) := by
  rw [outRev, outRevText]
  cases hleft : flags.left with
  | true =>
    have hpos : (g.puts buf.reverse).pos - g.pos = UInt32.ofNat buf.length := by
      rw [puts_pos, List.length_reverse, UInt32.add_comm, UInt32.add_sub_cancel]
    simp only [Bool.not_true, Bool.false_and, Bool.false_eq_true, if_false, if_true,
      List.nil_append, putReversed_puts, padFrom_puts, hpos, puts_append]
  | false =>
    cases flags.zeropad <;>
      simp [putReversed_puts, pad_puts, puts_append]

/-- The function prints some text, whatever the gadget is. -/
def Prints (f : OutputGadget → OutputGadget) : Prop := ∃ text, ∀ g, f g = g.puts text

theorem Prints.ite {p : Prop} [Decidable p] {f f' : OutputGadget → OutputGadget} (h : Prints f)
    (h' : Prints f') : Prints fun g => if p then f g else f' g := by
  by_cases hp : p
  · simpa only [if_pos hp] using h
  · simpa only [if_neg hp] using h'

theorem Prints.comp {f f' : OutputGadget → OutputGadget} (h : Prints f) (h' : Prints f') :
    Prints fun g => f' (f g) := by
  obtain ⟨text, htext⟩ := h
  obtain ⟨text', htext'⟩ := h'
  exact ⟨text ++ text', fun g => by
    show f' (f g) = _
    rw [htext', htext, puts_append]⟩

theorem prints_id : Prints fun g => g := ⟨[], puts_nil⟩

theorem prints_putchar (c : UInt8) : Prints (putcharViaGadget · c) := ⟨[c], fun _ => rfl⟩

theorem prints_pad (c : UInt8) (n : Nat) : Prints (pad c n) := ⟨_, pad_puts c n⟩

theorem prints_outRev (buf : List UInt8) (width : Nat) (flags : Flags) :
    Prints (outRev · buf width flags) := ⟨_, fun g => outRev_puts g _ _ _⟩

theorem prints_printInteger (value : Nat) (negative : Bool) (base precision width : Nat)
    (flags : Flags) : Prints (printInteger · value negative base precision width flags) :=
  .ite (.ite (prints_outRev ..) (.ite (prints_outRev ..) (prints_outRev ..))) (prints_outRev ..)

theorem prints_printIntegerArg (c : UInt8) (a : Arg) (precision width : Nat) (flags : Flags) :
    Prints (printIntegerArg · c a precision width flags) :=
  .ite (prints_printInteger ..) (prints_printInteger ..)

theorem prints_printChar (a : Arg) (width : Nat) (flags : Flags) :
    Prints (printChar · a width flags) :=
  .comp (.comp (.ite (prints_pad ..) prints_id) (prints_putchar _))
    (.ite (prints_pad ..) prints_id)

theorem prints_printPointer (a : Arg) (precision : Nat) (flags : Flags) :
    Prints (printPointer · a precision flags) :=
  .ite (prints_outRev ..) (prints_printInteger ..)

/-! ### A round -/

/-- The computation faults whatever the gadget is, or it prints some text. -/
def PrintsOrStops (f : OutputGadget → Except Stop OutputGadget) : Prop :=
  (∃ e, ∀ g, f g = .error e) ∨ ∃ text, ∀ g, f g = .ok (g.puts text)

theorem printsOrStops_putString (usePrecision : Bool) (p : Ptr) (precision : Nat) :
    PrintsOrStops (putString usePrecision p precision) := by
  induction p generalizing precision with
  | nil => exact .inl ⟨_, fun _ => rfl⟩
  | cons c rest ih =>
    by_cases hgo : c ≠ 0 ∧ (!usePrecision ∨ precision ≠ 0)
    · rcases ih ((precision + 2 ^ 32 - 1) % 2 ^ 32) with ⟨e, he⟩ | ⟨text, htext⟩
      · exact .inl ⟨e, fun g => by rw [putString, if_pos hgo, he]⟩
      · exact .inr ⟨c :: text, fun g => by rw [putString, if_pos hgo, htext, puts_cons]⟩
    · exact .inr ⟨[], fun g => by rw [putString, if_neg hgo, puts_nil]⟩

theorem printsOrStops_printString (a : Arg) (precision width : Nat) (flags : Flags) :
    PrintsOrStops (printString · a precision width flags) := by
  by_cases hnull : a.word = 0
  · obtain ⟨text, htext⟩ := prints_outRev [41, 108, 108, 117, 110, 40] width flags
    refine .inr ⟨text, fun g => ?_⟩
    show printString g a precision width flags = _
    rw [printString, if_pos hnull]
    exact congrArg Except.ok (htext g)
  · cases hl : strnlenS a.target (if precision ≠ 0 then precision else maxPossibleBufferSize) with
    | error e =>
      refine .inl ⟨e, fun g => ?_⟩
      show printString g a precision width flags = _
      rw [printString, if_neg hnull, hl]
      rfl
    | ok l =>
      simp only [PrintsOrStops, printString, if_neg hnull, hl, ok_bind]
      generalize (if flags.precision = true then min l precision else l) = n
      obtain ⟨before, hbefore⟩ : ∃ text, ∀ g, (if !flags.left then pad 32 (width - n) g else g) =
          OutputGadget.puts g text := Prints.ite (prints_pad ..) prints_id
      obtain ⟨after, hafter⟩ : ∃ text, ∀ g, (if flags.left then pad 32 (width - n) g else g) =
          OutputGadget.puts g text := Prints.ite (prints_pad ..) prints_id
      rcases printsOrStops_putString flags.precision a.target precision with ⟨e, he⟩ | ⟨text, htext⟩
      · exact .inl ⟨e, fun g => by rw [he]; rfl⟩
      · refine .inr ⟨before ++ text ++ after, fun g => ?_⟩
        rw [hbefore, htext, ok_bind, pure_eq_ok, hafter, puts_append, puts_append]

/-- The front of a format that has been read. -/
structure Rest where
  format : Ptr
  args : Args
  stored : List (BitVec 64 × Nat × UInt32)

/-- The computation depends on the gadget only for its `k` characters: it faults, or it prints some
text and leaves less than `n` characters of the format. -/
def Settled (k : UInt32) (n : Nat) (x : OutputGadget → Except Stop State) : Prop :=
  (∃ e, ∀ g, g.pos = k → x g = .error e) ∨
  ∃ text, ∃ rest : Rest, rest.format.length < n ∧ ∀ g, g.pos = k →
    x g = .ok ⟨g.puts text, rest.format, rest.args, rest.stored⟩

section

variable {k : UInt32} {n : Nat} {format : Ptr} {args : Args}
  {stored : List (BitVec 64 × Nat × UInt32)}

theorem Settled.of_prints {f : OutputGadget → OutputGadget} (hf : Prints f)
    (hn : format.length < n) : Settled k n fun g => .ok ⟨f g, format, args, stored⟩ := by
  obtain ⟨text, htext⟩ := hf
  exact .inr ⟨text, ⟨format, args, stored⟩, hn, fun g _ => by simp only [htext]⟩

theorem Settled.of_printsOrStops {f : OutputGadget → Except Stop OutputGadget}
    (hf : PrintsOrStops f) (hn : format.length < n) :
    Settled k n fun g => f g >>= fun output => .ok ⟨output, format, args, stored⟩ := by
  rcases hf with ⟨e, he⟩ | ⟨text, htext⟩
  · exact .inl ⟨e, fun g _ => by simp only [he, error_bind]⟩
  · exact .inr ⟨text, ⟨format, args, stored⟩, hn, fun g _ => by simp only [htext, ok_bind]⟩

theorem Settled.word {x : Arg × Args → OutputGadget → Except Stop State}
    (hx : ∀ r, Settled k n (x r)) : Settled k n fun g => args.word >>= fun r => x r g := by
  cases args.word with
  | error e => exact .inl ⟨e, fun _ _ => rfl⟩
  | ok r => exact hx r

/-- **A conversion** depends on the gadget only for how many characters there are. -/
theorem convert_text (s : Spec) (stored : List (BitVec 64 × Nat × UInt32)) (k : UInt32) :
    Settled k s.format.length fun g => convert s g stored := by
  cases hpeek : peek s.format with
  | error e => exact .inl ⟨e, fun g _ => by simp only [convert, hpeek, error_bind]⟩
  | ok c =>
    have hlength : s.format.tail.length < s.format.length := by
      cases hformat : s.format with
      | nil => simp [peek, hformat] at hpeek
      | cons => simp
    simp only [convert, hpeek, ok_bind]
    by_cases hint : c ∈ ([100, 105, 117, 120, 88, 111, 98] : List UInt8)
    · simp only [if_pos hint]
      exact .word fun ⟨_, _⟩ => .of_prints (prints_printIntegerArg ..) hlength
    by_cases hfloat : c ∈ ([102, 70, 101, 69, 103, 71] : List UInt8)
    · simp only [if_neg hint, if_pos hfloat]
      exact .inl ⟨.floatingPoint, fun _ _ => rfl⟩
    simp only [if_neg hint, if_neg hfloat]
    by_cases hchar : c = 99
    · simp only [if_pos hchar]
      exact .word fun ⟨_, _⟩ => .of_prints (prints_printChar ..) hlength
    by_cases hstring : c = 115
    · simp only [if_neg hchar, if_pos hstring]
      exact .word fun ⟨_, _⟩ => .of_printsOrStops (printsOrStops_printString ..) hlength
    simp only [if_neg hchar, if_neg hstring]
    by_cases hpointer : c = 112
    · simp only [if_pos hpointer]
      exact .word fun ⟨_, _⟩ => .of_prints (prints_printPointer ..) hlength
    by_cases hstore : c = 110
    · -- the number of characters is stored
      simp only [if_neg hpointer, if_pos hstore]
      exact .word fun ⟨a, args⟩ =>
        .inr ⟨[], ⟨s.format.tail, args, stored ++ [(a.word, storedSize s.flags, k)]⟩, hlength,
          fun g hk => by simp only [hk, puts_nil, pure_eq_ok]⟩
    · simp only [if_neg hpointer, if_neg hstore]
      exact .of_prints (prints_putchar c) hlength

end

/-! ### Parsing goes forward -/

theorem advance_le {p p' : Ptr} (h : advance p = .ok p') : p'.length + 1 ≤ p.length := by
  simp only [advance, peek, bind_eq_ok, orHalt_eq_ok] at h
  obtain ⟨c, hc, h⟩ := h
  split at h
  · cases h
  · cases h
    cases p with
    | nil => cases hc
    | cons => exact Nat.le_refl _

theorem atou_le {p p' : Ptr} {i n : Nat} (h : atou p i = .ok (n, p')) : p'.length ≤ p.length := by
  induction p generalizing i with
  | nil => cases h
  | cons c rest ih =>
    rw [atou] at h
    split at h
    · exact Nat.le_succ_of_le (ih h)
    · cases h
      exact Nat.le_refl _

theorem parseFlags_le {p p' : Ptr} {flags flags' : Flags}
    (h : parseFlags p flags = .ok (flags', p')) : p'.length ≤ p.length := by
  induction p generalizing flags with
  | nil => cases h
  | cons c rest ih =>
    rw [parseFlags] at h
    split_ifs at h
    · exact Nat.le_succ_of_le (ih h)
    · exact Nat.le_succ_of_le (ih h)
    · exact Nat.le_succ_of_le (ih h)
    · exact Nat.le_succ_of_le (ih h)
    · exact Nat.le_succ_of_le (ih h)
    · cases h
      exact Nat.le_refl _

theorem skipDigits_le {p p' : Ptr} (h : skipDigits p = .ok p') : p'.length ≤ p.length := by
  fun_induction skipDigits p with
  | case1 => cases h
  | case2 => cases h
  | case3 => cases h
  | case4 _ c rest _ _ ih => exact Nat.le_succ_of_le (ih h)
  | case5 =>
    cases h
    exact Nat.le_succ _

theorem parseWidth_le {s s' : Spec} (h : parseWidth s = .ok s') :
    s'.format.length ≤ s.format.length := by
  simp only [parseWidth, bind_eq_ok] at h
  obtain ⟨c, -, h⟩ := h
  split_ifs at h
  · simp only [bind_eq_ok] at h
    obtain ⟨⟨width, format⟩, hatou, h⟩ := h
    cases h
    exact atou_le hatou
  · simp only [bind_eq_ok] at h
    obtain ⟨⟨a, args⟩, -, format, hadvance, h⟩ := h
    cases h
    have hle := advance_le hadvance
    split at hle <;> exact Nat.le_of_succ_le hle
  · cases h
    exact Nat.le_refl _

theorem parsePrecision_le {s s' : Spec} (h : parsePrecision s = .ok s') :
    s'.format.length ≤ s.format.length := by
  simp only [parsePrecision, bind_eq_ok] at h
  obtain ⟨c, -, h⟩ := h
  split_ifs at h
  · simp only [bind_eq_ok] at h
    obtain ⟨format, hadvance, c', -, h⟩ := h
    have hle := advance_le hadvance
    split_ifs at h
    · simp only [bind_eq_ok] at h
      obtain ⟨format', hskip, h⟩ := h
      cases h
      exact (skipDigits_le hskip).trans (Nat.le_of_succ_le hle)
    · simp only [bind_eq_ok] at h
      obtain ⟨⟨precision, format'⟩, hatou, h⟩ := h
      cases h
      exact (atou_le hatou).trans (Nat.le_of_succ_le hle)
    · simp only [bind_eq_ok] at h
      obtain ⟨⟨a, args⟩, -, format', hadvance', h⟩ := h
      cases h
      exact (Nat.le_of_succ_le (advance_le hadvance')).trans (Nat.le_of_succ_le hle)
    · cases h
      exact Nat.le_of_succ_le hle
  · cases h
    exact Nat.le_refl _

theorem parseLength_le {s s' : Spec} (h : parseLength s = .ok s') :
    s'.format.length ≤ s.format.length := by
  simp only [parseLength, bind_eq_ok] at h
  obtain ⟨c, -, h⟩ := h
  -- one letter, or the same letter twice
  have hone : ∀ {flags : Flags}, (advance s.format >>= fun format =>
      pure { s with format := format, flags := flags }) = .ok s' →
      s'.format.length ≤ s.format.length := by
    intro flags h
    rw [bind_eq_ok] at h
    obtain ⟨format, hadvance, h⟩ := h
    cases h
    exact Nat.le_of_succ_le (advance_le hadvance)
  have htwo : ∀ {d : UInt8} {flags flags' : Flags}, (advance s.format >>= fun format =>
      peek format >>= fun c => if c = d then advance format >>= fun format =>
        pure { s with format := format, flags := flags }
      else pure { s with format := format, flags := flags' }) = .ok s' →
      s'.format.length ≤ s.format.length := by
    intro d flags flags' h
    simp only [bind_eq_ok] at h
    obtain ⟨format, hadvance, c', -, h⟩ := h
    have hle := Nat.le_of_succ_le (advance_le hadvance)
    split_ifs at h
    · rw [bind_eq_ok] at h
      obtain ⟨format', hadvance', h⟩ := h
      cases h
      exact (Nat.le_of_succ_le (advance_le hadvance')).trans hle
    · cases h
      exact hle
  split_ifs at h
  · exact htwo h
  · exact hone h
  · exact htwo h
  · exact hone h
  · cases h
    exact Nat.le_refl _

theorem parseSpec_lt {format : Ptr} {args : Args} {spec : Spec}
    (h : parseSpec format args = .ok spec) : spec.format.length + 1 ≤ format.length := by
  simp only [parseSpec, bind_eq_ok] at h
  obtain ⟨format', hadvance, ⟨flags, format''⟩, hflags, s, hwidth, s', hprecision, hlength⟩ := h
  have h1 := advance_le hadvance
  have h2 := parseFlags_le hflags
  have h3 : s.format.length ≤ format''.length := parseWidth_le hwidth
  have h4 := parsePrecision_le hprecision
  have h5 := parseLength_le hlength
  omega

/-! ### A whole format -/

/-- **A round** depends on the gadget only for how many characters there are. -/
theorem formatRound_text (format : Ptr) (args : Args)
    (stored : List (BitVec 64 × Nat × UInt32)) (k : UInt32) :
    (∃ e, ∀ g, g.pos = k → formatRound ⟨g, format, args, stored⟩ = .error e) ∨
    (∀ g, g.pos = k → formatRound ⟨g, format, args, stored⟩ =
      .ok (.done ⟨g, format, args, stored⟩)) ∨
    ∃ text, ∃ rest : Rest, rest.format.length < format.length ∧ ∀ g, g.pos = k →
      formatRound ⟨g, format, args, stored⟩ =
        .ok (.again ⟨g.puts text, rest.format, rest.args, rest.stored⟩) := by
  cases format with
  | nil => exact .inl ⟨_, fun g _ => rfl⟩
  | cons c rest =>
    by_cases hnul : c = 0
    · exact .inr (.inl fun g _ => by simp only [formatRound, if_pos hnul])
    by_cases hpercent : c ≠ 37
    · exact .inr (.inr ⟨[c], ⟨rest, args, stored⟩, Nat.lt_succ_self _, fun g _ => by
        simp only [formatRound, if_neg hnul, if_pos hpercent]
        rfl⟩)
    have hfault : ∀ g e, e ≠ .nul →
        (parseSpec (c :: rest) args >>= fun spec => convert spec g stored) = .error e →
          formatRound ⟨g, c :: rest, args, stored⟩ = .error e := by
      intro g e hne h
      cases e with
      | nul => exact absurd rfl hne
      | fault f => simp only [formatRound, if_neg hnul, if_neg hpercent, h]
      | floatingPoint => simp only [formatRound, if_neg hnul, if_neg hpercent, h]
    have hreturn : ∀ g, (parseSpec (c :: rest) args >>= fun spec => convert spec g stored) =
        .error .nul → formatRound ⟨g, c :: rest, args, stored⟩ =
          .ok (.done ⟨g, c :: rest, args, stored⟩) := by
      intro g h
      simp only [formatRound, if_neg hnul, if_neg hpercent, h]
    have hagain : ∀ g s', (parseSpec (c :: rest) args >>= fun spec => convert spec g stored) =
        .ok s' → formatRound ⟨g, c :: rest, args, stored⟩ = .ok (.again s') := by
      intro g s' h
      simp only [formatRound, if_neg hnul, if_neg hpercent, h]
    -- a stop ends the loop, by a fault or by the `return`
    have hstop : ∀ e, (∀ g, g.pos = k → (parseSpec (c :: rest) args >>= fun spec =>
        convert spec g stored) = .error e) →
        (∃ e, ∀ g, g.pos = k → formatRound ⟨g, c :: rest, args, stored⟩ = .error e) ∨
        (∀ g, g.pos = k → formatRound ⟨g, c :: rest, args, stored⟩ =
          .ok (.done ⟨g, c :: rest, args, stored⟩)) := by
      intro e he
      by_cases hnul : e = .nul
      · subst hnul
        exact .inr fun g hg => hreturn g (he g hg)
      · exact .inl ⟨e, fun g hg => hfault g e hnul (he g hg)⟩
    cases hspec : parseSpec (c :: rest) args with
    | error e =>
      rw [← or_assoc]
      exact .inl (hstop e fun g _ => by rw [hspec]; rfl)
    | ok spec =>
      rcases convert_text spec stored k with ⟨e, he⟩ | ⟨text, rest', hlt, htext⟩
      · rw [← or_assoc]
        exact .inl (hstop e fun g hg => by rw [hspec, ok_bind]; exact he g hg)
      · have hle := parseSpec_lt hspec
        exact .inr (.inr ⟨text, rest', by omega, fun g hg =>
          hagain g _ (by rw [hspec, ok_bind]; exact htext g hg)⟩)

/-- **A format** faults whatever the gadget is, or it prints some text. -/
theorem format_text (format : Ptr) (args : Args)
    (stored : List (BitVec 64 × Nat × UInt32)) (k : UInt32) :
    (∃ e, ∀ g, g.pos = k → Loop.Ends formatRound ⟨g, format, args, stored⟩ (.error e)) ∨
    ∃ text, ∃ rest : Rest, ∀ g, g.pos = k → Loop.Ends formatRound ⟨g, format, args, stored⟩
      (.ok ⟨g.puts text, rest.format, rest.args, rest.stored⟩) := by
  induction hn : format.length using Nat.strong_induction_on generalizing format args stored k with
  | _ n ih =>
    subst hn
    rcases formatRound_text format args stored k with
      ⟨e, he⟩ | hdone | ⟨text, rest, hlt, hagain⟩
    · exact .inl ⟨e, fun g hg => (Loop.ends_error (he g hg)).mpr rfl⟩
    · exact .inr ⟨[], ⟨format, args, stored⟩, fun g hg => (Loop.ends_done (hdone g hg)).mpr rfl⟩
    · have hpos : ∀ g : OutputGadget, g.pos = k → (g.puts text).pos =
          k + UInt32.ofNat text.length := fun g hg => by rw [puts_pos, hg]
      rcases ih _ hlt rest.format rest.args rest.stored (k + UInt32.ofNat text.length) rfl with
        ⟨e, he⟩ | ⟨text', rest', hends⟩
      · exact .inl ⟨e, fun g hg => (Loop.ends_again (hagain g hg)).mpr (he _ (hpos g hg))⟩
      · refine .inr ⟨text ++ text', rest', fun g hg => ?_⟩
        rw [Loop.ends_again (hagain g hg), puts_append]
        exact hends _ (hpos g hg)

/-! ### What a gadget keeps -/

/-- The gadget after `text`, of which the front is kept. -/
def OutputGadget.keep (g : OutputGadget) (text : List UInt8) : OutputGadget :=
  let kept := text.take (g.maxChars.toNat - g.pos.toNat)
  { g with
    function := g.function.map (· ++ kept)
    buffer := if g.function.isSome then g.buffer
      else g.buffer.map fun m => m.write g.pos.toNat kept
    pos := g.pos + UInt32.ofNat text.length }

theorem putchar_keep (g : OutputGadget) (c : UInt8) : putcharViaGadget g c = g.keep [c] := by
  obtain ⟨function, buffer, pos, maxChars⟩ := g
  by_cases hfull : pos ≥ maxChars
  · have hle : maxChars.toNat - pos.toNat = 0 := Nat.sub_eq_zero_of_le hfull
    rw [putcharViaGadget, if_pos hfull, OutputGadget.keep]
    cases function <;> cases buffer <;> simp [hle]
  · have hlt : pos.toNat < maxChars.toNat := Nat.not_le.mp hfull
    have htake : [c].take (maxChars.toNat - pos.toNat) = [c] :=
      List.take_of_length_le (show 1 ≤ maxChars.toNat - pos.toNat by omega)
    rw [putcharViaGadget, if_neg hfull, OutputGadget.keep]
    simp only [htake]
    cases function <;> rfl

theorem keep_keep {g : OutputGadget} {c : UInt8} {text : List UInt8}
    (hpos : g.pos.toNat + 1 < 2 ^ 32) : (g.keep [c]).keep text = g.keep (c :: text) := by
  obtain ⟨function, buffer, pos, maxChars⟩ := g
  have hsucc : (pos + 1).toNat = pos.toNat + 1 := by
    rw [UInt32.toNat_add]
    exact Nat.mod_eq_of_lt hpos
  have hlength : pos + 1 + UInt32.ofNat text.length = pos + UInt32.ofNat (c :: text).length := by
    rw [List.length_cons, UInt32.ofNat_add, UInt32.add_assoc, UInt32.add_comm 1]
    rfl
  -- one place less is left for the text than for `c` and the text
  have htake : [c].take (maxChars.toNat - pos.toNat) ++
      text.take (maxChars.toNat - (pos.toNat + 1)) =
      (c :: text).take (maxChars.toNat - pos.toNat) := by
    cases hroom : maxChars.toNat - pos.toNat with
    | zero => simp [show maxChars.toNat - (pos.toNat + 1) = 0 by omega]
    | succ room => simp [show maxChars.toNat - (pos.toNat + 1) = room by omega]
  have hwrite : ∀ m : Mem, (m.write pos.toNat ([c].take (maxChars.toNat - pos.toNat))).write
      (pos.toNat + 1) (text.take (maxChars.toNat - (pos.toNat + 1))) =
      m.write pos.toNat ((c :: text).take (maxChars.toNat - pos.toNat)) := by
    intro m
    rw [← htake, Mem.write_append]
    cases hroom : maxChars.toNat - pos.toNat with
    | zero => simp [show maxChars.toNat - (pos.toNat + 1) = 0 by omega]
    | succ room => rw [show ([c].take (room + 1)).length = 1 by simp]
  have hone : pos + UInt32.ofNat [c].length = pos + 1 := rfl
  simp only [OutputGadget.keep, hone, hsucc, hlength]
  cases function with
  | none => cases buffer <;> simp [hwrite]
  | some calls => simp [← htake]

/-- **The front of a text is kept**, if the text is not so long that `pos` comes round. -/
theorem puts_keep {g : OutputGadget} {text : List UInt8}
    (hpos : g.pos.toNat + text.length < 2 ^ 32) : g.puts text = g.keep text := by
  induction text generalizing g with
  | nil =>
    obtain ⟨function, buffer, pos, maxChars⟩ := g
    cases function <;> cases buffer <;> simp [puts_nil, OutputGadget.keep]
  | cons c text ih =>
    rw [List.length_cons] at hpos
    have hsucc : (g.keep [c]).pos.toNat = g.pos.toNat + 1 := by
      show (g.pos + 1).toNat = _
      rw [UInt32.toNat_add]
      exact Nat.mod_eq_of_lt (by show g.pos.toNat + 1 < 2 ^ 32; omega)
    rw [puts_cons, putchar_keep, ih (by omega), keep_keep (by omega)]

/-- What `snprintf` leaves in a buffer of `n` bytes: the front of the text, and a terminator. -/
def printed (m : Mem) (n : Nat) (text : List UInt8) : Mem :=
  if n = 0 then m else m.write 0 (text.take (min n maxPossibleBufferSize - 1) ++ [0])

theorem bufferGadget_maxChars (m : Mem) (n : Nat) :
    (bufferGadget (some m) n).maxChars.toNat = min n maxPossibleBufferSize := by
  have hle : min n maxPossibleBufferSize < 2 ^ 32 := by
    rw [maxPossibleBufferSize]
    omega
  rw [bufferGadget]
  show (UInt32.ofNat (if n > maxPossibleBufferSize then maxPossibleBufferSize else n)).toNat = _
  rw [show (if n > maxPossibleBufferSize then maxPossibleBufferSize else n) =
    min n maxPossibleBufferSize by split <;> omega]
  exact UInt32.toNat_ofNat_of_lt' hle

/-- The terminator stands behind what is kept. -/
theorem termination_buffer (m : Mem) (n : Nat) {text : List UInt8} (h : text.length < 2 ^ 32) :
    (appendTerminationWithGadget ((bufferGadget (some m) n).keep text)).buffer =
      some (printed m n text) := by
  have hmax := bufferGadget_maxChars m n
  have hlength : (UInt32.ofNat text.length).toNat = text.length := UInt32.toNat_ofNat_of_lt' h
  have hkeep : (bufferGadget (some m) n).keep text =
      { function := none
        buffer := some (m.write 0 (text.take (min n maxPossibleBufferSize)))
        pos := 0 + UInt32.ofNat text.length
        maxChars := (bufferGadget (some m) n).maxChars } := by
    rw [← hmax]
    rfl
  rw [hkeep, UInt32.zero_add]
  generalize (bufferGadget (some m) n).maxChars = maxChars at hmax
  generalize hroom : min n maxPossibleBufferSize = room at hmax
  have hpositive : 0 < maxPossibleBufferSize := by decide
  by_cases hn : n = 0
  · have hzero : maxChars = 0 := UInt32.toNat.inj (by rw [hmax]; show room = 0; omega)
    rw [appendTerminationWithGadget, if_pos (.inr hzero), printed, if_pos hn,
      show room = 0 by omega, List.take_zero, Mem.write_nil]
  · have hne : maxChars ≠ 0 := by
      rintro rfl
      have hzero : (0 : UInt32).toNat = 0 := rfl
      omega
    have hsub : (maxChars - 1).toNat = room - 1 := by
      have hone : (1 : UInt32) ≤ maxChars := by
        show (1 : UInt32).toNat ≤ maxChars.toNat
        rw [show (1 : UInt32).toNat = 1 from rfl]
        omega
      rw [UInt32.toNat_sub_of_le _ _ hone, hmax]
      rfl
    rw [appendTerminationWithGadget, if_neg (by simp [hne]), printed, if_neg hn, hroom]
    simp only [Option.map_some, Option.some.injEq]
    by_cases hfits : UInt32.ofNat text.length < maxChars
    · have hlt : text.length < room := by
        rw [← hlength, ← hmax]
        exact hfits
      rw [if_pos hfits, hlength, List.take_of_length_le (by omega),
        List.take_of_length_le (show text.length ≤ room - 1 by omega), Mem.write_append,
        Nat.zero_add]
    · have hge : room ≤ text.length := by
        rw [← hlength, ← hmax]
        exact Nat.not_lt.mp hfits
      have htake : text.take room = text.take (room - 1) ++ (text.drop (room - 1)).take 1 := by
        rw [← List.take_add, Nat.sub_add_cancel (by omega)]
      have hlen : (text.take (room - 1)).length = room - 1 := by
        rw [List.length_take]
        omega
      have hone : ((text.drop (room - 1)).take 1).length = 1 := by
        rw [List.length_take, List.length_drop]
        omega
      obtain ⟨c, hc⟩ := List.length_eq_one_iff.mp hone
      -- the last character is overwritten
      rw [if_neg hfits, hsub, htake, hc, Mem.write_append, Mem.write_append, hlen, Nat.zero_add,
        Mem.write_write _ _ (show [c].length = [0].length from rfl)]

/-- The functions of the family. -/
def vfctprintf := VsnprintfImpl functionGadget

def vsnprintf (s : Option Mem) (n : Nat) := VsnprintfImpl (bufferGadget s n)

/-- The text of a format: what is printed, whatever the gadget is, and what `%n` stores. -/
def Text (format : Ptr) (args : Args) (text : List UInt8)
    (stored : List (BitVec 64 × Nat × UInt32)) : Prop :=
  ∀ g, g.pos = 0 → ∃ s, Loop.Ends formatRound ⟨g, format, args, []⟩ (.ok s) ∧
    s.output = g.puts text ∧ s.stored = stored

theorem toInt_length {text : List UInt8} (h : text.length ≤ maxPossibleBufferSize) :
    (UInt32.ofNat text.length).toInt32.toInt = text.length := by
  rw [UInt32.toInt32_ofNat']
  exact Int32.toInt_ofNat_of_lt (by rw [maxPossibleBufferSize] at h; omega)

/-- **All functions of the family print the same text**: for a format and arguments, either all of
them stop in the same way, by a fault or at a floating-point number, or there is one text.  A
function is then called with its characters, a buffer of `n` bytes gets as many as fit with a
terminator behind them, and no other byte changes; the value that is returned is the length of the
text, whether or not there is a buffer. -/
theorem printf_family_agree (format : Ptr) (args : Args) :
    (∃ e, vfctprintf format args (.error e) ∧ ∀ s n, vsnprintf s n format args (.error e)) ∨
    ∃ text stored, Text format args text stored ∧
      (text.length ≤ maxPossibleBufferSize → ∃ returned : Int32, returned.toInt = text.length ∧
        (∃ g, vfctprintf format args (.ok (g, stored, returned)) ∧ g.function = some text) ∧
        (∀ m n, ∃ g, vsnprintf (some m) n format args (.ok (g, stored, returned)) ∧
          g.buffer = some (printed m n text)) ∧
        ∀ n, ∃ g, vsnprintf none n format args (.ok (g, stored, returned))) := by
  have hzero : ∀ s n, (bufferGadget s n).pos = 0 := by
    intro s n
    cases s <;> rfl
  rcases format_text format args [] 0 with ⟨e, he⟩ | ⟨text, rest, hends⟩
  · exact .inl ⟨e, ⟨_, he functionGadget rfl, rfl⟩, fun s n => ⟨_, he _ (hzero s n), rfl⟩⟩
  · refine .inr ⟨text, rest.stored, fun g hg => ⟨_, hends g hg, rfl, rfl⟩, fun hlen => ?_⟩
    have hlt : text.length < 2 ^ 32 := by
      rw [maxPossibleBufferSize] at hlen
      omega
    have hkeep : ∀ g : OutputGadget, g.pos = 0 → g.puts text = g.keep text := fun g hg =>
      puts_keep (by rw [hg]; show 0 + text.length < _; omega)
    have hfull : ∀ g : OutputGadget, g.pos = 0 → VsnprintfImpl g format args
        (.ok (appendTerminationWithGadget (g.keep text), rest.stored,
          (UInt32.ofNat text.length).toInt32)) := by
      intro g hg
      refine ⟨_, hends g hg, ?_⟩
      have hpos : (g.keep text).pos = UInt32.ofNat text.length := by
        show g.pos + _ = _
        rw [hg, UInt32.zero_add]
      rw [hkeep g hg, Except.map, hpos]
    refine ⟨_, toInt_length hlen, ⟨_, hfull functionGadget rfl, ?_⟩,
      fun m n => ⟨_, hfull _ (hzero _ _), termination_buffer m n hlt⟩,
      fun n => ⟨_, hfull _ (hzero _ _)⟩⟩
    show some (text.take maxPossibleBufferSize) = some text
    rw [List.take_of_length_le hlen]

end Stuos.Libc.Printf
