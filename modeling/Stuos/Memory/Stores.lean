import Mathlib.Tactic.IntervalCases
import Stuos.Lib.Bytes
import Stuos.Memory.Programs

/-!
# Bytes in memory

A frame as 4096 bytes, and stores to virtual addresses, for which the processor finds the frame
through `CR3`.  `byteAt m root a` is the byte at the address `a` of an address space, if it is
mapped.  In the lower half an address space is known by its bytes:

* `storeBytes_spec`: a store to mapped addresses changes these and no others.
* `allocatePages_spec`: new pages are added, and what was mapped stays as it was.
-/

namespace Stuos.Memory

open Stuos.Lib

/-! ### The bytes of a frame -/

/-- The word with these bit-fields. -/
def PageTableEntry.toWord (e : PageTableEntry) : BitVec 64 :=
  BitVec.ofBool e.nx ++ e.ignored2 ++ e.addr ++ e.ignored1 ++ BitVec.ofBool e.glob ++
    BitVec.ofBool e.huge ++ BitVec.ofBool e.dirty ++ BitVec.ofBool e.accessed ++
    BitVec.ofBool e.pcd ++ BitVec.ofBool e.pwt ++ BitVec.ofBool e.user ++
    BitVec.ofBool e.readWrite ++ BitVec.ofBool e.present

theorem PageTableEntry.toWord_ofWord (w : BitVec 64) : (ofWord w).toWord = w := by
  apply BitVec.eq_of_getLsbD_eq
  intro i hi
  simp only [toWord, ofWord, BitVec.getLsbD_append, BitVec.getLsbD_ofBool, BitVec.getLsbD_extractLsb']
  interval_cases i <;> simp

/-- The eight bytes of a word, the lowest first. -/
def wordBytes (e : PageTableEntry) : List UInt8 := leBytes 8 e.toWord.toNat

def ofWordBytes (bytes : List UInt8) : PageTableEntry := .ofWord (BitVec.ofNat 64 (leVal bytes))

theorem leBytes_leVal (bytes : List UInt8) : leBytes bytes.length (leVal bytes) = bytes := by
  induction bytes with
  | nil => rfl
  | cons b bytes ih =>
    have hb : b.toNat < 256 := b.toNat_lt
    have hdiv : (b.toNat + 256 * leVal bytes) / 256 = leVal bytes := by omega
    have hmod : UInt8.ofNat (b.toNat + 256 * leVal bytes) = b := by
      apply UInt8.toNat_inj.mp
      rw [UInt8.toNat_ofNat']
      omega
    rw [List.length_cons, leVal, leBytes, hdiv, hmod, ih]

theorem wordBytes_ofWordBytes {bytes : List UInt8} (h : bytes.length = 8) :
    wordBytes (ofWordBytes bytes) = bytes := by
  have hlt := leVal_lt bytes
  rw [h] at hlt
  rw [wordBytes, ofWordBytes, PageTableEntry.toWord_ofWord, BitVec.toNat_ofNat,
    Nat.mod_eq_of_lt (by omega), ← h, leBytes_leVal]

/-- The word that the byte at an offset is in. -/
def wordIndex (offset : Nat) : Fin 512 := ⟨offset / 8 % 512, Nat.mod_lt _ (by decide)⟩

def frameByte (content : Frame) (offset : Nat) : UInt8 :=
  (wordBytes (content (wordIndex offset))).getD (offset % 8) 0

def setFrameByte (content : Frame) (offset : Nat) (b : UInt8) : Frame :=
  Function.update content (wordIndex offset)
    (ofWordBytes ((wordBytes (content (wordIndex offset))).set (offset % 8) b))

theorem frameByte_setFrameByte (content : Frame) {i j : Nat} (b : UInt8) (hi : i < 4096)
    (hj : j < 4096) :
    frameByte (setFrameByte content i b) j = if j = i then b else frameByte content j := by
  have hlen : (wordBytes (content (wordIndex i))).length = 8 := leBytes_length _ _
  have hlen' : ((wordBytes (content (wordIndex i))).set (i % 8) b).length = 8 := by
    rw [List.length_set, hlen]
  by_cases hw : wordIndex j = wordIndex i
  · have hdiv : j / 8 = i / 8 := by
      have := congrArg Fin.val hw
      simp only [wordIndex] at this
      omega
    rw [frameByte, hw, setFrameByte, Function.update_self, wordBytes_ofWordBytes hlen',
      List.getD_eq_getElem?_getD, List.getElem?_set]
    by_cases hij : j = i
    · rw [if_pos hij, if_pos (by omega), if_pos (by omega)]
      rfl
    · rw [if_neg hij, if_neg (by omega), frameByte, hw, List.getD_eq_getElem?_getD]
  · have hij : j ≠ i := fun h => hw (h ▸ rfl)
    rw [if_neg hij, frameByte, setFrameByte, Function.update_of_ne hw]
    rfl

/-! ### Stores -/

/-- The frame that the processor finds for an address. -/
def translate (m : Machine) (virt : Nat) : Except Halt Nat := do
  let pdpt ← orHalt .pageFault (child m m.cr3 (pml4Index virt))
  let pd ← orHalt .pageFault (child m pdpt (pdptIndex virt))
  let pt ← orHalt .pageFault (child m pd (pdIndex virt))
  orHalt .pageFault (child m pt (ptIndex virt))

def storeByte (m : Machine) (virt : Nat) (b : UInt8) : Except Halt Machine := do
  let frame ← translate m virt
  .ok (m.setFrame frame (setFrameByte (m.frames frame) (pageOffset virt) b))

/-- Bytes one after the other, from an address on. -/
def storeBytes (m : Machine) (virt : Nat) : List UInt8 → Except Halt Machine
  | [] => .ok m
  | b :: bytes => do
    let m ← storeByte m virt b
    storeBytes m (u64 (virt + 1)) bytes

/-- The byte at an address of an address space. -/
def byteAt (m : Machine) (root a : Nat) : Option UInt8 :=
  (reach m root (pathOf a)).map fun f => frameByte (m.frames f) (pageOffset a)

variable {m m' : Machine} {live kernel : List Nat} {root a : Nat}

theorem byteAt_eq_none : byteAt m root a = none ↔ reach m root (pathOf a) = none := by
  rw [byteAt, Option.map_eq_none_iff]

theorem translate_eq (m : Machine) (a : Nat) :
    translate m a = orHalt .pageFault (reach m m.cr3 (pathOf a)) := by
  simp only [translate, reach, pathOf, follow_cons, follow_nil]
  cases h1 : child m m.cr3 (pml4Index a) with
  | none => rfl
  | some pdpt =>
    cases h2 : child m pdpt (pdptIndex a) with
    | none => simp [h2]
    | some pd =>
      cases h3 : child m pd (pdIndex a) with
      | none => simp [h2, h3]
      | some pt => cases h4 : child m pt (ptIndex a) <;> simp [h2, h3, h4]

theorem storeByte_unmapped {v : UInt8} (h : byteAt m m.cr3 a = none) :
    storeByte m a v = .error .pageFault := by
  rw [storeByte, translate_eq, byteAt_eq_none.mp h, orHalt_none, error_bind]

theorem storeBytes_error {bytes : List UInt8} {e : Halt}
    (h : storeBytes m a bytes = .error e) : e = .pageFault := by
  induction bytes generalizing m a with
  | nil => cases h
  | cons v bytes ih =>
    rw [storeBytes, bind_eq_error] at h
    rcases h with h | ⟨m₁, -, h⟩
    · rw [storeByte, translate_eq] at h
      cases hr : reach m m.cr3 (pathOf a) with
      | none =>
        rw [hr] at h
        exact (Except.error.inj h).symm
      | some f =>
        rw [hr] at h
        cases h
    · exact ih h

theorem lower_pathOf_lt (ha : a < 2 ^ 47) : Lower (pathOf a) := lower_pathOf (pml4Index_lt ha)

/-- `root` is the address space of a program that is being loaded, from the machine `m₀` on. -/
def Current (live kernel : List Nat) (root : Nat) (m₀ m : Machine) : Prop :=
  ∃ done, Loading live kernel m₀ root done m

namespace Current

variable {m₀ : Machine}

theorem accounted (h : Current live kernel root m₀ m) : Accounted m (root :: live) kernel := by
  obtain ⟨done, h⟩ := h
  exact h.accounted

theorem cr3 (h : Current live kernel root m₀ m) : m.cr3 = root := by
  obtain ⟨done, h⟩ := h
  exact h.cr3

theorem pages (h : Current live kernel root m₀ m) : m.pages = m₀.pages := by
  obtain ⟨done, h⟩ := h
  exact h.pages

theorem setPage {p : Path} {f : Nat} (h : Current live kernel root m₀ m) (hp : Lower p)
    (hlen : p.length = 4) (hf : reach m root p = some f) (content : Frame) :
    Current live kernel root m₀ (m.setFrame f content) := by
  obtain ⟨done, h⟩ := h
  obtain ⟨hacc, hreach⟩ := h.accounted.setPage List.mem_cons_self hp hlen hf content
  refine ⟨done, h.base, h.pages, h.original, h.cr3, hacc, ?_, ?_, h.free, ?_⟩
  · intro r hr q hq
    rw [hreach r (List.mem_cons_of_mem _ hr) q hq, h.others r hr q hq]
  · intro g hg
    have hgf : g ≠ f := by
      rintro rfl
      exact hg (h.sub p g hp hf).1
    rw [setFrame_other m content hgf, h.frames g hg]
  · intro q g hq hg
    rw [hreach root List.mem_cons_self q hq] at hg
    exact h.sub q g hq hg

end Current

/-- **A store to a mapped address** changes that byte and no other. -/
theorem storeByte_spec {m₀ : Machine} (h : Current live kernel root m₀ m) (ha : a < 2 ^ 47)
    (hmapped : byteAt m root a ≠ none) (v : UInt8) :
    ∃ m', storeByte m a v = .ok m' ∧ Current live kernel root m₀ m' ∧
      ∀ x < 2 ^ 47, byteAt m' root x = if x = a then some v else byteAt m root x := by
  obtain ⟨f, hf⟩ := Option.ne_none_iff_exists'.mp (mt byteAt_eq_none.mpr hmapped)
  have hroot : root ∈ root :: live := List.mem_cons_self
  obtain ⟨-, hreach⟩ := h.accounted.setPage hroot (lower_pathOf_lt ha) rfl hf
    (setFrameByte (m.frames f) (pageOffset a) v)
  refine ⟨m.setFrame f (setFrameByte (m.frames f) (pageOffset a) v), ?_,
    h.setPage (lower_pathOf_lt ha) rfl hf _, fun x hx => ?_⟩
  · rw [storeByte, translate_eq, h.cr3, hf, orHalt_some, ok_bind]
  · rw [byteAt, byteAt, hreach root hroot _ (lower_pathOf_lt hx)]
    have hoff : ∀ y, pageOffset y < 4096 := fun y => Nat.mod_lt _ (by decide)
    cases hg : reach m root (pathOf x) with
    | none =>
      have hne : x ≠ a := by
        rintro rfl
        rw [hf] at hg
        cases hg
      rw [if_neg hne, Option.map_none, Option.map_none]
    | some g =>
      rw [Option.map_some, Option.map_some]
      by_cases hgf : g = f
      · -- the same page
        subst hgf
        have hpath := (h.accounted.separate root _ root _ g ⟨hroot, lower_pathOf_lt hx⟩
          ⟨hroot, lower_pathOf_lt ha⟩ hg hf).2
        rw [pathOf_eq_iff (by omega) (by omega)] at hpath
        rw [setFrame_same, frameByte_setFrameByte _ _ (hoff a) (hoff x)]
        by_cases hxa : x = a
        · rw [if_pos hxa, if_pos (by rw [hxa])]
        · have hoffne : pageOffset x ≠ pageOffset a := by
            unfold pageOffset
            omega
          rw [if_neg hxa, if_neg hoffne]
      · have hne : x ≠ a := by
          rintro rfl
          exact hgf (Option.some.inj (hg.symm.trans hf))
        rw [if_neg hne, setFrame_other m _ hgf]

/-- **A store to mapped addresses** changes these and no others. -/
theorem storeBytes_spec {m₀ : Machine} (bytes : List UInt8) (h : Current live kernel root m₀ m)
    (ha : a + bytes.length ≤ 2 ^ 47)
    (hmapped : ∀ x, a ≤ x → x < a + bytes.length → byteAt m root x ≠ none) :
    ∃ m', storeBytes m a bytes = .ok m' ∧ Current live kernel root m₀ m' ∧
      ∀ x < 2 ^ 47, byteAt m' root x =
        if a ≤ x ∧ x < a + bytes.length then bytes[x - a]? else byteAt m root x := by
  induction bytes generalizing m a with
  | nil =>
    refine ⟨m, rfl, h, fun x _ => ?_⟩
    rw [if_neg (by simp)]
  | cons v bytes ih =>
    rw [List.length_cons] at ha hmapped
    obtain ⟨m₁, he1, h1, hbyte1⟩ := storeByte_spec h (a := a) (by omega)
      (hmapped a (le_refl _) (by omega)) v
    have hmapped1 : ∀ x, a + 1 ≤ x → x < a + 1 + bytes.length → byteAt m₁ root x ≠ none := by
      intro x hge hlt
      rw [hbyte1 x (by omega), if_neg (by omega)]
      exact hmapped x (by omega) (by omega)
    obtain ⟨m₂, he2, h2, hbyte2⟩ := ih h1 (a := a + 1) (by omega) hmapped1
    refine ⟨m₂, ?_, h2, fun x hx => ?_⟩
    · rw [storeBytes, he1, ok_bind, u64_of_lt (by omega), he2]
    · rw [hbyte2 x hx, hbyte1 x hx, List.length_cons]
      by_cases hin : a + 1 ≤ x ∧ x < a + 1 + bytes.length
      · have hidx : x - a = x - (a + 1) + 1 := by omega
        rw [if_pos hin, if_pos (by omega), hidx, List.getElem?_cons_succ]
      · rw [if_neg hin]
        by_cases hxa : x = a
        · rw [if_pos hxa, if_pos (by omega), hxa, Nat.sub_self, List.getElem?_cons_zero]
        · rw [if_neg hxa, if_neg (by omega)]

/-! ### New pages -/

/-- **A new page**: its addresses are mapped, and what was mapped stays as it was. -/
theorem allocateRamPage_bytes {m₀ : Machine} {page : Nat} {canExecute : Bool}
    (h : Current live kernel root m₀ m) (hpage : page < 2 ^ 47)
    (hok : allocateRamPage m page canExecute = .ok m') :
    Current live kernel root m₀ m' ∧
      ∀ x < 2 ^ 47, (byteAt m root x ≠ none → byteAt m' root x = byteAt m root x) ∧
        (byteAt m' root x ≠ none ↔ byteAt m root x ≠ none ∨ x / 4096 = page / 4096) := by
  have hlow := pml4Index_lt hpage
  have hr : m.cr3 ∈ root :: live := by simp [h.cr3]
  rcases allocateRamPage_spec canExecute h.accounted hr hlow with
    ⟨m₁, f, he, -, -, hacc, x, -, hself, -⟩ | ⟨he, -⟩ | ⟨he, -⟩
  · obtain rfl := Except.ok.inj (hok.symm.trans he)
    rw [h.cr3] at x hself
    obtain ⟨done, hload⟩ := h
    have hgrown : Loading live kernel m₀ root (done ++ [(page, canExecute)]) m' :=
      hload.extend hacc x
    refine ⟨⟨_, hgrown⟩, fun a ha => ?_⟩
    have hkept : ∀ g, reach m root (pathOf a) = some g →
        reach m' root (pathOf a) = some g ∧ m'.frames g = m.frames g := fun g hg =>
      ⟨x.kept _ g (lower_pathOf_lt ha) hg, x.leaves _ g rfl (lower_pathOf_lt ha) hg⟩
    constructor
    · intro hne
      obtain ⟨g, hg⟩ := Option.ne_none_iff_exists'.mp (mt byteAt_eq_none.mpr hne)
      obtain ⟨hg', hframe⟩ := hkept g hg
      rw [byteAt, byteAt, hg, hg', Option.map_some, Option.map_some, hframe]
    · rw [ne_eq, ne_eq, byteAt_eq_none, byteAt_eq_none, ← pathOf_eq_iff (by omega) (by omega)]
      constructor
      · intro hne
        obtain ⟨g, hg⟩ := Option.ne_none_iff_exists'.mp hne
        rcases x.new _ g (lower_pathOf_lt ha) hg with hold | ⟨hpre, -⟩
        · left
          rw [hold]
          simp
        · exact Or.inr (hpre.eq_of_length rfl)
      · rintro (hne | hpath)
        · obtain ⟨g, hg⟩ := Option.ne_none_iff_exists'.mp hne
          rw [(hkept g hg).1]
          simp
        · rw [hpath, hself]
          simp
  · rw [he] at hok
    cases hok
  · rw [he] at hok
    cases hok

/-- **New pages**, one after the other. -/
theorem allocatePages_spec {m₀ : Machine} {pages : List Nat} {canExecute : Bool}
    (h : Current live kernel root m₀ m) (hpages : ∀ p ∈ pages, p < 2 ^ 47)
    (hok : pages.foldlM (fun m p => allocateRamPage m p canExecute) m = .ok m') :
    Current live kernel root m₀ m' ∧
      ∀ x < 2 ^ 47, (byteAt m root x ≠ none → byteAt m' root x = byteAt m root x) ∧
        (byteAt m' root x ≠ none ↔
          byteAt m root x ≠ none ∨ ∃ p ∈ pages, x / 4096 = p / 4096) := by
  induction pages generalizing m with
  | nil =>
    obtain rfl := Except.ok.inj hok
    exact ⟨h, fun x _ => ⟨fun _ => rfl, by simp⟩⟩
  | cons p pages ih =>
    rw [List.foldlM_cons, bind_eq_ok] at hok
    obtain ⟨m₁, he1, he2⟩ := hok
    obtain ⟨h1, hbyte1⟩ := allocateRamPage_bytes h (hpages p (by simp)) he1
    obtain ⟨h2, hbyte2⟩ := ih h1 (fun q hq => hpages q (by simp [hq])) he2
    refine ⟨h2, fun x hx => ⟨fun hne => ?_, ?_⟩⟩
    · have hne1 : byteAt m₁ root x ≠ none := by
        rw [(hbyte1 x hx).1 hne]
        exact hne
      rw [(hbyte2 x hx).1 hne1, (hbyte1 x hx).1 hne]
    · rw [(hbyte2 x hx).2, (hbyte1 x hx).2, or_assoc]
      simp

/-- **New pages can be had** as long as memory lasts, if they are aligned and not mapped. -/
theorem allocatePages_total {m₀ : Machine} {pages : List Nat} {e : Halt} (canExecute : Bool)
    (h : Current live kernel root m₀ m) (hpages : ∀ p ∈ pages, p < 2 ^ 47 ∧ pageOffset p = 0)
    (hnodup : pages.Nodup) (hfresh : ∀ p ∈ pages, byteAt m root p = none)
    (herr : pages.foldlM (fun m p => allocateRamPage m p canExecute) m = .error e) :
    e = .outOfMemory := by
  induction pages generalizing m with
  | nil => cases herr
  | cons p pages ih =>
    obtain ⟨hp, hoff⟩ := hpages p (by simp)
    have hlow := pml4Index_lt hp
    have hr : m.cr3 ∈ root :: live := by simp [h.cr3]
    have hnone : reach m m.cr3 (pathOf p) = none := by
      rw [h.cr3]
      exact byteAt_eq_none.mp (hfresh p (by simp))
    rw [List.foldlM_cons] at herr
    rcases allocateRamPage_spec canExecute h.accounted hr hlow with
      ⟨m₁, f, he, -⟩ | ⟨he, hbad⟩ | ⟨he, -⟩
    · rw [he, ok_bind] at herr
      obtain ⟨h1, hbyte1⟩ := allocateRamPage_bytes h hp he
      rw [List.nodup_cons] at hnodup
      refine ih h1 (fun q hq => hpages q (by simp [hq])) hnodup.2 (fun q hq => ?_) herr
      obtain ⟨hq47, hqoff⟩ := hpages q (by simp [hq])
      by_contra hne
      rcases ((hbyte1 q hq47).2.mp hne) with hold | hsame
      · exact hold (hfresh q (by simp [hq]))
      · have : q = p := by
          unfold pageOffset at hoff hqoff
          omega
        exact hnodup.1 (this ▸ hq)
    · rcases hbad with hbad | hbad
      · exact absurd hoff hbad
      · exact absurd hnone hbad
    · rw [he] at herr
      exact (Except.error.inj herr).symm

theorem Generated.byteAt_eq_none (h : Generated live kernel m root m') (ha : a < 2 ^ 47) :
    byteAt m' root a = none := by
  rw [Memory.byteAt_eq_none, Option.eq_none_iff_forall_not_mem]
  intro g hg
  have := (h.empty _ g (lower_pathOf_lt ha) hg).1
  simp [pathOf] at this

end Stuos.Memory
