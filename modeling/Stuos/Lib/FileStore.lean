import Mathlib.Logic.Function.Basic
import Stuos.Lib.Lts
import Stuos.Lib.Overwrite

/-!
# Stores of files

A store has a list of items under some of its names.  Files are created empty, written inside or at
their end, and cut off; none is taken away.

* `fileStore`: the system whose steps are these.
* `getElem?_overwriteAt`: what is written is there, and what is not written stays.
* `spared_of_run`: items that no operation of a run touches are the same in the end.
-/

namespace Stuos.Lib

variable {κ α : Type}

/-- The items under each name. -/
abbrev FileStore (κ α : Type) := κ → Option (List α)

/-- The list with the items of `b` over those from `offset` on. -/
def overwriteAt (c : List α) (offset : Nat) (b : List α) : List α :=
  c.take offset ++ overwrite (c.drop offset) b

@[simp] theorem length_overwriteAt {c : List α} {offset : Nat} (h : offset ≤ c.length)
    (b : List α) : (overwriteAt c offset b).length = max c.length (offset + b.length) := by
  rw [overwriteAt, List.length_append, length_overwrite, List.length_take, List.length_drop]
  omega

/-- What is written is there, and what is not written stays. -/
theorem getElem?_overwriteAt {xs : List α} {offset : Nat} (h : offset ≤ xs.length) (b : List α)
    (j : Nat) : (overwriteAt xs offset b)[j]? =
      if offset ≤ j ∧ j < offset + b.length then b[j - offset]? else xs[j]? := by
  have hlen : (xs.take offset).length = offset := List.length_take_of_le h
  rw [overwriteAt, List.getElem?_append, hlen]
  by_cases hj : j < offset
  · rw [if_pos hj, if_neg (by omega), List.getElem?_take_of_lt hj]
  · rw [if_neg hj, getElem?_overwrite, List.getElem?_drop, Nat.add_sub_cancel' (by omega)]
    by_cases hb : j < offset + b.length
    · rw [if_pos (by omega), if_pos ⟨by omega, hb⟩]
    · rw [if_neg (by omega), if_neg (by omega)]

inductive FileOp (κ α : Type)
  | create (k : κ)
  | write (k : κ) (offset : Nat) (b : List α)
  | truncate (k : κ) (len : Nat)
  /-- Something that is not done to a file. -/
  | other

variable [DecidableEq κ]

/-- What an operation does to the store. -/
inductive FileStep : FileStore κ α → FileOp κ α → FileStore κ α → Prop
  | create {s : FileStore κ α} {k : κ} : s k = none →
      FileStep s (.create k) (Function.update s k (some []))
  | write {s : FileStore κ α} {k : κ} {c b : List α} {offset : Nat} : s k = some c →
      offset ≤ c.length →
      FileStep s (.write k offset b) (Function.update s k (some (overwriteAt c offset b)))
  | truncate {s : FileStore κ α} {k : κ} {c : List α} {len : Nat} : s k = some c →
      len ≤ c.length → FileStep s (.truncate k len) (Function.update s k (some (c.take len)))
  | other {s : FileStore κ α} : FileStep s .other s

/-- The store as a system; at first there are no files. -/
def fileStore (κ α : Type) [DecidableEq κ] : Lts (FileStore κ α) (FileOp κ α) where
  init s := ∀ k, s k = none
  step := FileStep

/-! ### Items that stay -/

/-- The operation does not touch the items from `lo` up to `hi` of the file `k`. -/
def FileOp.Spares (k : κ) (lo hi : Nat) : FileOp κ α → Prop
  | .create _ => True
  | .write k' offset b => k' = k → offset + b.length ≤ lo ∨ hi ≤ offset
  | .truncate k' len => k' = k → hi ≤ len
  | .other => True

/-- The file `k` has the items `b` from `lo` on. -/
def HasAt (s : FileStore κ α) (k : κ) (lo : Nat) (b : List α) : Prop :=
  ∃ c, s k = some c ∧ lo + b.length ≤ c.length ∧ (c.drop lo).take b.length = b

omit [DecidableEq κ] in
theorem take_drop_congr {xs ys : List α} {lo n : Nat}
    (h : ∀ j, lo ≤ j → j < lo + n → ys[j]? = xs[j]?) :
    (ys.drop lo).take n = (xs.drop lo).take n := by
  apply List.ext_getElem?
  intro j
  rw [List.getElem?_take, List.getElem?_take]
  split
  · rw [List.getElem?_drop, List.getElem?_drop, h _ (by omega) (by omega)]
  · rfl

theorem FileStep.hasAt_write {s s' : FileStore κ α} {k : κ} {offset : Nat} {b : List α}
    (h : FileStep s (.write k offset b) s') : HasAt s' k offset b := by
  cases h with
  | @write _ c _ _ hc hle =>
    refine ⟨_, Function.update_self .., ?_, ?_⟩
    · rw [length_overwriteAt hle]
      omega
    · rw [overwriteAt, List.drop_left' (List.length_take_of_le hle), overwrite, List.take_left]

/-- **A step that spares items** keeps them. -/
theorem FileStep.hasAt {s s' : FileStore κ α} {op : FileOp κ α} {k : κ} {lo : Nat} {b : List α}
    (h : FileStep s op s') (hop : op.Spares k lo (lo + b.length)) (hb : HasAt s k lo b) :
    HasAt s' k lo b := by
  obtain ⟨c, hc, hlen, hitems⟩ := hb
  cases h with
  | @create k' hfresh =>
    have hne : k ≠ k' := by
      rintro rfl
      rw [hfresh] at hc
      cases hc
    exact ⟨c, by rw [Function.update_of_ne hne, hc], hlen, hitems⟩
  | @write k' c' b' offset hc' hle =>
    by_cases heq : k' = k
    · subst heq
      obtain rfl : c' = c := Option.some.inj (hc'.symm.trans hc)
      refine ⟨_, Function.update_self .., ?_, ?_⟩
      · rw [length_overwriteAt hle]
        omega
      · rw [← hitems, List.length_take, List.length_drop, Nat.min_eq_left (by omega)]
        refine take_drop_congr fun j h1 h2 => ?_
        rw [getElem?_overwriteAt hle, if_neg]
        have := hop rfl
        omega
    · exact ⟨c, by rw [Function.update_of_ne (Ne.symm heq), hc], hlen, hitems⟩
  | @truncate k' c' len hc' hle =>
    by_cases heq : k' = k
    · subst heq
      obtain rfl : c' = c := Option.some.inj (hc'.symm.trans hc)
      have hlt := hop rfl
      refine ⟨_, Function.update_self .., ?_, ?_⟩
      · rw [List.length_take]
        omega
      · rw [← hitems, List.length_take, List.length_drop, Nat.min_eq_left (by omega)]
        refine take_drop_congr fun j h1 h2 => ?_
        rw [List.getElem?_take_of_lt (by omega)]
    · exact ⟨c, by rw [Function.update_of_ne (Ne.symm heq), hc], hlen, hitems⟩
  | other => exact ⟨c, hc, hlen, hitems⟩

/-- **Items that no operation of a run touches** are the same in the end. -/
theorem spared_of_run {ok : FileStore κ α → FileOp κ α → Prop} {s s' : FileStore κ α}
    {ops : List (FileOp κ α)} (hrun : (fileStore κ α).Run ok s ops s') {k : κ} {lo : Nat}
    {b : List α} (hops : ∀ op ∈ ops, op.Spares k lo (lo + b.length)) (hb : HasAt s k lo b) :
    HasAt s' k lo b := by
  induction hrun with
  | nil => exact hb
  | snoc _ _ hstep ih =>
    have hfirst := ih fun op hop => hops op (List.mem_append_left _ hop)
    exact FileStep.hasAt hstep (hops _ (by simp)) hfirst

end Stuos.Lib
