import Stuos.Fs.Fat.Placing
import Stuos.Fs.Fat.Scanning

/-!
# Long names

A long name is a run of entries in front of the entry it belongs to.  `create_inode` makes them in
a loop that counts down, and `read_dirents` reads them into two buffers.

* `getElem?_longEntries`: the entry at each place of the run.
* `Conforms`: what the comments at `Fat16LFNEntry` say about the run.  The last-in-sequence bit is
  set on the wrong entry (`long_names_never_conform`).
-/

namespace Stuos.Fs.Fat

open Stuos.Lib Fat16DirectoryEntry

/-! ### The entries of a long name -/

theorem getElem?_lfnLoop_made (count : Nat) (sum : UInt8) (seq : Nat) (name : List UInt8)
    (made : List Fat16DirectoryEntry) (j : Nat) :
    (lfnLoop count sum seq name made)[seq + j]? = made[j]? := by
  induction seq generalizing name made j with
  | zero => rw [lfnLoop, Nat.zero_add]
  | succ seq ih =>
    rw [lfnLoop, show seq + 1 + j = seq + (j + 1) by omega, ih, List.getElem?_cons_succ]

theorem getElem?_lfnLoop (count : Nat) (sum : UInt8) {seq : Nat} (name : List UInt8)
    (made : List Fat16DirectoryEntry) {q : Nat} (hq : q < seq) :
    ∃ chars, chars.length = charsPerLfn ∧ (lfnLoop count sum seq name made)[q]? =
      some (lfnEntry (count - q) (q == 1) sum chars) := by
  induction seq generalizing name made with
  | zero => exact absurd hq (Nat.not_lt_zero q)
  | succ seq ih =>
    rw [lfnLoop]
    rcases Nat.lt_or_eq_of_le (Nat.le_of_lt_succ hq) with hlt | rfl
    · exact ih _ _ hlt
    · exact ⟨writeChars charsPerLfn name, length_writeChars _ _,
        getElem?_lfnLoop_made _ _ q _ _ 0⟩

section

variable (createIdx : Nat) {name : List UInt8} {q : Nat}

theorem getElem?_longEntries (hq : q < lfnEntryCount name) :
    ∃ chars, chars.length = charsPerLfn ∧ (longEntries createIdx name)[q]? =
      some (lfnEntry (lfnEntryCount name - q) (q == 1) (checksum (shortFileName createIdx)) chars) :=
  getElem?_lfnLoop _ _ _ _ hq

/-- **The run as other systems want it**: the highest number first and marked as the last, then
down to 1, each with the checksum of the short name behind. -/
structure Conforms (long : List Fat16DirectoryEntry) (short : Fat16DirectoryEntry) : Prop where
  last : ∀ (q : Nat) (e : Fat16DirectoryEntry), long[q]? = some e →
    (e.isLastInSequence = true ↔ q = 0)
  sequence : ∀ (q : Nat) (e : Fat16DirectoryEntry), long[q]? = some e →
    e.sequenceNumber = long.length - q
  sum : ∀ (q : Nat) (e : Fat16DirectoryEntry), long[q]? = some e →
    e.lfnChecksum = checksum short.filename

theorem isLastInSequence_lfnEntry (n : Nat) (last : Bool) (sum : UInt8) (chars : List Nat) :
    (lfnEntry n last sum chars).isLastInSequence = last := by
  have hfirst : (lfnEntry n last sum chars) 0 = UInt8.ofNat (n % 64 + if last then 64 else 0) := rfl
  rw [isLastInSequence, hfirst, UInt8.toNat_ofNat']
  cases last with
  | false =>
    rw [if_neg (by decide), beq_eq_false_iff_ne]
    omega
  | true =>
    rw [if_pos rfl, beq_iff_eq]
    omega

theorem sequenceNumber_lfnEntry {n : Nat} (h : n < 64) (last : Bool) (sum : UInt8)
    (chars : List Nat) : (lfnEntry n last sum chars).sequenceNumber = n := by
  have hfirst : (lfnEntry n last sum chars) 0 = UInt8.ofNat (n % 64 + if last then 64 else 0) := rfl
  rw [sequenceNumber, hfirst, UInt8.toNat_ofNat']
  split <;> omega

theorem lfnChecksum_lfnEntry (n : Nat) (last : Bool) (sum : UInt8) {chars : List Nat}
    (h : chars.length = charsPerLfn) : (lfnEntry n last sum chars).lfnChecksum = sum :=
  match chars, h with
  | [_, _, _, _, _, _, _, _, _, _, _, _, _], _ => rfl

theorem lfnEntryCount_pos (name : List UInt8) : 0 < lfnEntryCount name := by
  rw [lfnEntryCount, charsPerLfn]
  omega

/-- **No long name conforms.**  The numbers and the checksums of the entries that `create_inode`
makes are right, but the first one is not marked as the last; the second one is. -/
theorem long_names_never_conform (name : List UInt8) (hfit : lfnEntryCount name + 2 ≤ 65) (attributes : UInt8)
    (c size : Nat) :
    newEntries createIdx name attributes c size = longEntries createIdx name ++
        [ofFields (shortFileName createIdx) attributes c size, endSentinel] ∧
      (∀ q e, (longEntries createIdx name)[q]? = some e →
        e.sequenceNumber = lfnEntryCount name - q ∧
        e.lfnChecksum = checksum (ofFields (shortFileName createIdx) attributes c size).filename ∧
        (e.isLastInSequence = true ↔ q = 1)) ∧
      ¬ Conforms (longEntries createIdx name)
        (ofFields (shortFileName createIdx) attributes c size) := by
  have hpos := lfnEntryCount_pos name
  have hentry : ∀ q e, (longEntries createIdx name)[q]? = some e →
      e.sequenceNumber = lfnEntryCount name - q ∧
      e.lfnChecksum = checksum (ofFields (shortFileName createIdx) attributes c size).filename ∧
      (e.isLastInSequence = true ↔ q = 1) := by
    intro q e he
    have hq : q < lfnEntryCount name := by
      rw [← length_longEntries createIdx name]
      exact (List.getElem?_eq_some_iff.mp he).1
    obtain ⟨chars, hchars, heq⟩ := getElem?_longEntries createIdx hq
    rw [heq, Option.some.injEq] at he
    subst he
    refine ⟨sequenceNumber_lfnEntry (by omega) _ _ _, ?_, ?_⟩
    · rw [lfnChecksum_lfnEntry _ _ _ hchars, filename_ofFields]
    · rw [isLastInSequence_lfnEntry, beq_iff_eq]
  refine ⟨rfl, hentry, fun hconforms => ?_⟩
  obtain ⟨chars, -, heq⟩ := getElem?_longEntries createIdx hpos
  have hlast := (hconforms.last 0 _ heq).mpr rfl
  rw [isLastInSequence_lfnEntry] at hlast
  exact absurd hlast (by decide)

end

/-- The entries of the name `x`. -/
theorem long_names_never_conform_one_letter :
    lfnEntryCount [120] + 2 ≤ 65 ∧ ¬ Conforms (longEntries 0 [120])
      (ofFields (shortFileName 0) 0 0 0) :=
  ⟨by decide, (long_names_never_conform 0 [120] (by decide) 0 0 0).2.2⟩

/-- The file `x` in the root directory with `A` and `B`: its long name is the one entry at index 2,
which is numbered 1 and not marked as the last. -/
theorem long_name_not_marked :
    ∃ s', createInode twoFats twoFatsDisk iAmRootDir sIfreg [120] = .ok s' ∧
      (record twoFats (view twoFats s'.disk) 0 2).attributes = fileAttributesLfn ∧
      (record twoFats (view twoFats s'.disk) 0 2).sequenceNumber = 1 ∧
      (record twoFats (view twoFats s'.disk) 0 2).isLastInSequence = false ∧
      ∀ i, (record twoFats (view twoFats s'.disk) 0 3).filename i = shortFileName 0 i := by
  have hfacts : (createInode twoFats twoFatsDisk iAmRootDir sIfreg [120]).map (fun s' =>
      decide ((record twoFats (view twoFats s'.disk) 0 2).attributes = fileAttributesLfn ∧
        (record twoFats (view twoFats s'.disk) 0 2).sequenceNumber = 1 ∧
        (record twoFats (view twoFats s'.disk) 0 2).isLastInSequence = false ∧
        ∀ i, (record twoFats (view twoFats s'.disk) 0 3).filename i = shortFileName 0 i)) = .ok true := by
    decide +kernel
  obtain ⟨s', hcreate, hfacts⟩ := map_eq_ok.mp hfacts
  exact ⟨s', hcreate, of_decide_eq_true hfacts⟩

end Stuos.Fs.Fat
