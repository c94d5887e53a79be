import Stuos.Elf.Loader

/-!
# The image of a program

What `instantiate_ELF` leaves in the new address space.

* `Loader.loadSegment_spec`: a segment is in its pages, the bytes of the file and then zeros.
* `Loader.place_spec`: what is placed by the first-fit search gets pages of its own.
* `setupArgs_spec`: the arguments are written to their own pages.
-/

namespace Stuos.Elf

open Stuos.Lib Stuos.Memory

/-- **`read_file`**: when it returns, it has stored the bytes of the file from the offset on, as many
as there are, and returns their number. -/
def ReadsFile (exe : Exe) (file : List UInt8) : Prop :=
  ∀ offset n r, offset < 2 ^ 64 → n < 2 ^ 64 → (exe offset n).returned = some r →
    (exe offset n).stored = (file.drop offset).take n ∧ r = ((file.drop offset).take n).length

namespace ElfProgramHeader

variable (h : ElfProgramHeader)

/-- The address is in the pages of the segment. -/
def InPages (a : Nat) : Prop := h.pageAllocStart ≤ a ∧ a < h.pageAllocEnd

/-- The segment is in bounds, and its pages are in the region that is kept track of. -/
def Tracked : Prop :=
  h.InBounds ∧ pageSize ≤ h.pageAllocStart ∧ h.pageAllocEnd ≤ 0x00007FFFFFFFFFFF

/-- The address space holds the segment: the bytes of the file, and then zeros. -/
def HeldBy (file : List UInt8) (m : Machine) (root : Nat) : Prop :=
  (∀ j < h.pFilesz.toNat, ∃ b, file[h.pOffset.toNat + j]? = some b ∧
    byteAt m root (h.pVaddr.toNat + j) = some b) ∧
  ∀ j, h.pFilesz.toNat ≤ j → j < h.pMemsz.toNat → byteAt m root (h.pVaddr.toNat + j) = some 0

end ElfProgramHeader

/-- The last string ends in the pages that are allocated for the arguments. -/
def Fits (argv : List (List UInt8)) : Prop :=
  8 * (argv.length + 1) + (argv.map fun arg => arg.length + 2).sum ≤ argsBytes argv + 1

instance (argv : List (List UInt8)) : Decidable (Fits argv) := inferInstanceAs (Decidable (_ ≤ _))

variable {live kernel : List Nat} {root s e : Nat} {m₀ : Machine} {l l' l₁ : Loader}
  {exe : Exe} {file : List UInt8} {h : ElfProgramHeader} {header : ElfFile}

namespace Loader

theorem Adds.store {m : Machine} (ha : Adds root s e l l₁) (hinv : Inv live kernel root m₀ l)
    (hbytes : ∀ x < 2 ^ 47, ¬ (s ≤ x ∧ x < e) → byteAt m root x = byteAt l₁.machine root x) :
    Adds root s e l ⟨m, l₁.regions⟩ where
  grows x hx := by
    have hlt := (hinv.lt hx).2
    have hout : ¬ (s ≤ x ∧ x < e) := fun hin => ha.fresh x hin.1 hin.2 hx
    obtain ⟨h1, h2⟩ := ha.grows x hx
    exact ⟨h1, (hbytes x (by omega) hout).trans h2⟩
  fresh := ha.fresh
  allocated := ha.allocated
  bounds := ha.bounds

/-! ### Segments -/

theorem storeSegment_spec (hinv : Inv live kernel root m₀ l) (ht : h.Tracked)
    (hin : ∀ x, h.InPages x → Allocated l.regions x) {bytes : List UInt8}
    (hlen : bytes.length = h.pFilesz.toNat) :
    ∃ m₁ m₂, storeBytes l.machine h.pVaddr.toNat bytes = .ok m₁ ∧
      storeBytes m₁ (h.pVaddr + h.pFilesz).toNat
        (List.replicate (h.pMemsz - h.pFilesz).toNat 0) = .ok m₂ ∧
      Inv live kernel root m₀ ⟨m₂, l.regions⟩ ∧
      (∀ x < 2 ^ 47, ¬ h.InPages x → byteAt m₂ root x = byteAt l.machine root x) ∧
      (∀ j < h.pFilesz.toNat, byteAt m₂ root (h.pVaddr.toNat + j) = bytes[j]?) ∧
      ∀ j, h.pFilesz.toNat ≤ j → j < h.pMemsz.toNat →
        byteAt m₂ root (h.pVaddr.toNat + j) = some 0 := by
  obtain ⟨hb, -, hhi⟩ := ht
  have hsize := hb.size_le
  obtain ⟨hstart, hend, -⟩ := hb.pages
  have hzeros := hb.toNat_sub
  obtain ⟨m₁, he1, hinv1, hb1⟩ := store_spec bytes hinv (a := h.pVaddr.toNat)
    (fun x hge hlt => hin x ⟨by omega, by omega⟩) (by omega)
  have hlen2 : (List.replicate (h.pMemsz - h.pFilesz).toNat (0 : UInt8)).length =
      h.pMemsz.toNat - h.pFilesz.toNat := by
    rw [List.length_replicate, hzeros]
  obtain ⟨m₂, he2, hinv2, hb2⟩ := store_spec
    (List.replicate (h.pMemsz - h.pFilesz).toNat (0 : UInt8)) hinv1
    (a := h.pVaddr.toNat + h.pFilesz.toNat)
    (fun x hge hlt => hin x ⟨by omega, by omega⟩) (by omega)
  refine ⟨m₁, m₂, he1, by rw [hb.toNat_add]; exact he2, hinv2, fun x hx hout => ?_, fun j hj => ?_,
    fun j hge hlt => ?_⟩
  · have hout' : ¬ (h.pageAllocStart ≤ x ∧ x < h.pageAllocEnd) := hout
    rw [hb2 x hx, if_neg (by omega), hb1 x hx, if_neg (by omega)]
  · rw [hb2 _ (by omega), if_neg (by omega), hb1 _ (by omega), if_pos (by omega),
      Nat.add_sub_cancel_left]
  · rw [hb2 _ (by omega), if_pos (by omega), List.getElem?_replicate, if_pos (by omega)]

/-- **A segment that is loaded** gets its own pages and is in them. -/
theorem loadSegment_spec (hinv : Inv live kernel root m₀ l) (ht : h.Tracked)
    (hread : ReadsFile exe file) (hok : l.loadSegment exe h = .ok l') :
    Inv live kernel root m₀ l' ∧ Adds root h.pageAllocStart h.pageAllocEnd l l' ∧
      h.HeldBy file l'.machine root := by
  simp only [loadSegment, bind_eq_ok, ensure_eq_ok, Except.ok.injEq] at hok
  obtain ⟨l₁, hal, m₁, hs1, _, hret, m₂, hs2, rfl⟩ := hok
  obtain ⟨hstored, hcount⟩ := hread _ _ _ h.pOffset.toNat_lt h.pFilesz.toNat_lt hret
  obtain ⟨hinv1, hadds⟩ := allocate_spec hinv ht.1.pages.2.2 hal
  have hin : ∀ x, h.InPages x → Allocated l₁.regions x := fun x hx =>
    (hadds.allocated x).mpr (Or.inr hx)
  rw [hstored] at hs1
  obtain ⟨m₁', m₂', hs1', hs2', hinv2, hout, hfile, hzero⟩ :=
    storeSegment_spec hinv1 ht hin hcount.symm
  obtain rfl := Except.ok.inj (hs1.symm.trans hs1')
  obtain rfl := Except.ok.inj (hs2.symm.trans hs2')
  refine ⟨hinv2, hadds.store hinv hout, fun j hj => ?_, hzero⟩
  have hlt : j < ((file.drop h.pOffset.toNat).take h.pFilesz.toNat).length := by
    rw [← hcount]
    exact hj
  have hget : ((file.drop h.pOffset.toNat).take h.pFilesz.toNat)[j]? =
      file[h.pOffset.toNat + j]? := by
    rw [List.getElem?_take_of_lt hj, List.getElem?_drop]
  refine ⟨_, ?_, (hfile j hj).trans (List.getElem?_eq_getElem hlt)⟩
  rw [← hget, List.getElem?_eq_getElem hlt]

end Loader

theorem ElfProgramHeader.HeldBy.grows (hh : h.HeldBy file l.machine root) (hb : h.InBounds)
    (hin : ∀ x, h.InPages x → Allocated l.regions x) (hg : Loader.Grows root l l') :
    h.HeldBy file l'.machine root := by
  have hsize := hb.size_le
  obtain ⟨hstart, hend, -⟩ := hb.pages
  have hkept : ∀ j < h.pMemsz.toNat, byteAt l'.machine root (h.pVaddr.toNat + j) =
      byteAt l.machine root (h.pVaddr.toNat + j) := fun j hj =>
    (hg _ (hin _ ⟨by omega, by omega⟩)).2
  constructor
  · intro j hj
    obtain ⟨b, hb, hbyte⟩ := hh.1 j hj
    exact ⟨b, hb, (hkept j (by omega)).trans hbyte⟩
  · intro j hge hlt
    exact (hkept j hlt).trans (hh.2 j hge hlt)

namespace Loader

/-! ### The loop -/

/-- The segments of `done` are loaded, and nothing else is allocated. -/
structure Holding (live kernel : List Nat) (root : Nat) (m₀ : Machine) (file : List UInt8)
    (done : List ElfProgramHeader) (l : Loader) : Prop where
  inv : Inv live kernel root m₀ l
  allocated : ∀ a, Allocated l.regions a ↔ ∃ h ∈ done, h.kind = .load ∧ h.InPages a
  held : ∀ h ∈ done, h.kind = .load → h.Tracked ∧ h.HeldBy file l.machine root

theorem Holding.mem {done : List ElfProgramHeader} (hh : Holding live kernel root m₀ file done l)
    (hmem : h ∈ done) (hk : h.kind = .load) {a : Nat} (ha : h.InPages a) :
    Allocated l.regions a :=
  (hh.allocated a).mpr ⟨h, hmem, hk, ha⟩

/-- **One turn.** -/
theorem Holding.step {done : List ElfProgramHeader}
    (hh : Holding live kernel root m₀ file done l) (hread : ReadsFile exe file)
    (hkind : h.kind = .load ∨ h.kind = .ignored) (ht : h.kind = .load → h.Tracked)
    (hok : l.step exe header h = .ok l') :
    Holding live kernel root m₀ file (done ++ [h]) l' := by
  rcases hkind with hk | hk
  · simp only [Loader.step, hk] at hok
    obtain ⟨hinv, hadds, hheld⟩ := loadSegment_spec hh.inv (ht hk) hread hok
    refine ⟨hinv, fun a => ?_, fun h' hmem hk' => ?_⟩
    · rw [hadds.allocated, hh.allocated]
      simp only [List.mem_append, List.mem_singleton]
      constructor
      · rintro (⟨h', hmem, hk', ha⟩ | ha)
        · exact ⟨h', Or.inl hmem, hk', ha⟩
        · exact ⟨h, Or.inr rfl, hk, ha⟩
      · rintro ⟨h', hmem | rfl, hk', ha⟩
        · exact Or.inl ⟨h', hmem, hk', ha⟩
        · exact Or.inr ha
    · rcases List.mem_append.mp hmem with hmem | hmem
      · obtain ⟨ht', hheld'⟩ := hh.held h' hmem hk'
        exact ⟨ht', hheld'.grows ht'.1 (fun x hx => hh.mem hmem hk' hx) hadds.grows⟩
      · obtain rfl := List.mem_singleton.mp hmem
        exact ⟨ht hk, hheld⟩
  · simp only [Loader.step, hk, Except.ok.injEq] at hok
    subst hok
    refine ⟨hh.inv, fun a => ?_, fun h' hmem hk' => ?_⟩
    · rw [hh.allocated]
      simp [hk, or_and_right, exists_or]
    · rcases List.mem_append.mp hmem with hmem | hmem
      · exact hh.held h' hmem hk'
      · obtain rfl := List.mem_singleton.mp hmem
        rw [hk] at hk'
        cases hk'

/-- **The loop.** -/
theorem Holding.fold {done headers : List ElfProgramHeader}
    (hh : Holding live kernel root m₀ file done l) (hread : ReadsFile exe file)
    (hheaders : ∀ h ∈ headers, (h.kind = .load ∨ h.kind = .ignored) ∧ (h.kind = .load → h.Tracked))
    (hok : headers.foldlM (Loader.step exe header) l = .ok l') :
    Holding live kernel root m₀ file (done ++ headers) l' := by
  induction headers generalizing l done with
  | nil =>
    obtain rfl := Except.ok.inj hok
    rw [List.append_nil]
    exact hh
  | cons h headers ih =>
    rw [List.foldlM_cons, bind_eq_ok] at hok
    obtain ⟨l₁, h1, h2⟩ := hok
    obtain ⟨hkind, ht⟩ := hheaders h (by simp)
    have hnext := ih (hh.step hread hkind ht h1) (fun h' hmem => hheaders h' (by simp [hmem])) h2
    rw [List.append_assoc] at hnext
    exact hnext

/-! ### Placing by search -/

/-- **What is placed by the search** gets pages of its own. -/
theorem place_spec {size : Nat} (hinv : Inv live kernel root m₀ l) (hsize : size < 2 ^ 64) :
    ∃ a, findContiguousVirtualRange l.regions size = .ok (a, l.regions) ∧
      ∀ l', Loader.allocateVirtualRange ⟨l.machine, l.regions⟩ a (u64 (a + size)) false = .ok l' →
        u64 (a + size) = a + size ∧ Inv live kernel root m₀ l' ∧ Adds root a (a + size) l l' := by
  obtain ⟨a, hfind, hspec⟩ := findContiguousVirtualRange_spec hinv.laid size
  refine ⟨a, hfind, fun l' hok => ?_⟩
  rcases hspec with ⟨r, hr, hfree, rfl, hroom, -⟩ | ⟨rfl, -⟩
  · have hhi := (hinv.laid.free_region hr hfree).2.2.1
    rw [u64_of_lt (by omega)] at hok ⊢
    exact ⟨rfl, allocate_spec hinv (by omega) hok⟩
  · -- nothing was found, and the first page is not in any region
    rw [Nat.zero_add, u64_of_lt hsize] at hok
    have hlow := (allocate_spec hinv (Nat.zero_le _) hok).2.bounds.1
    exact absurd hlow (by decide)

end Loader

/-! ### Arguments -/

theorem argsBytes_lt (argv : List (List UInt8)) : argsBytes argv < 2 ^ 64 :=
  lt_of_le_of_lt (alignDown_le _) (Nat.mod_lt _ (by decide))

theorem argsBytes_dvd (argv : List (List UInt8)) : pageSize ∣ argsBytes argv := alignDown_dvd _

theorem Fits.sizes {argv : List (List UInt8)} (hfits : Fits argv) :
    8 * (argv.length + 1) ≤ argsBytes argv ∧
      8 * (argv.length + 1) + (argv.map fun arg => arg.length + 2).sum ≤ argsBytes argv + 1 := by
  unfold Fits at hfits
  have hdvd : 8 ∣ argsBytes argv := Nat.dvd_trans (by decide) (argsBytes_dvd argv)
  omega

/-- **The loop over the arguments** writes to their pages only. -/
theorem storeArgs_spec (argv : List (List UInt8)) {i o : Nat}
    (hinv : Loader.Inv live kernel root m₀ l) (he : e ≤ 2 ^ 47)
    (hin : ∀ x, s ≤ x → x < e → Allocated l.regions x)
    (harray : s + 8 * (i + argv.length) ≤ e) (hoff : s ≤ o)
    (hfits : o + (argv.map fun arg => arg.length + 2).sum ≤ e + 1) :
    ∃ m, storeArgs s i o argv l.machine = .ok m ∧
      Loader.Inv live kernel root m₀ ⟨m, l.regions⟩ ∧
      ∀ x < 2 ^ 47, ¬ (s ≤ x ∧ x < e) → byteAt m root x = byteAt l.machine root x := by
  induction argv generalizing l i o with
  | nil => exact ⟨l.machine, rfl, hinv, fun _ _ _ => rfl⟩
  | cons arg argv ih =>
    rw [List.map_cons, List.sum_cons] at hfits
    rw [List.length_cons] at harray
    have hlen1 : (leBytes 8 o).length = 8 := leBytes_length _ _
    have hlen2 : (arg ++ [0]).length = arg.length + 1 := by simp
    obtain ⟨m₁, he1, hinv1, hb1⟩ := Loader.store_spec (leBytes 8 o) hinv
      (a := s + 8 * i) (fun x hge hlt => hin x (by omega) (by omega)) (by omega)
    obtain ⟨m₂, he2, hinv2, hb2⟩ := Loader.store_spec (arg ++ [0]) hinv1
      (a := o) (fun x hge hlt => hin x (by omega) (by omega)) (by omega)
    obtain ⟨m₃, he3, hinv3, hb3⟩ := ih (i := i + 1) (o := o + (arg.length + 2))
      hinv2 hin (by omega) (by omega) (by omega)
    refine ⟨m₃, ?_, hinv3, fun x hx hout => ?_⟩
    · rw [storeArgs, u64_of_lt (show s + 8 * i < 2 ^ 64 by omega), he1, ok_bind, he2, ok_bind,
        u64_of_lt (show o + (arg.length + 2) < 2 ^ 64 by omega), he3]
    · rw [hb3 x hx hout]
      dsimp only
      rw [hb2 x hx, if_neg (by omega)]
      dsimp only
      rw [hb1 x hx, if_neg (by omega)]

theorem writeArgs_spec {argv : List (List UInt8)} {a : Nat}
    (hinv : Loader.Inv live kernel root m₀ l) (hfits : Fits argv)
    (hin : ∀ x, a ≤ x → x < a + argsBytes argv → Allocated l.regions x)
    (hhi : a + argsBytes argv ≤ 0x00007FFFFFFFFFFF) :
    ∃ m₁ m₂, storeArgs a 0 (u64 (a + (argv.length + 1) * 8)) argv l.machine = .ok m₁ ∧
      storeBytes m₁ (u64 (a + 8 * argv.length)) (leBytes 8 0) = .ok m₂ ∧
      Loader.Inv live kernel root m₀ ⟨m₂, l.regions⟩ ∧
      ∀ x < 2 ^ 47, ¬ (a ≤ x ∧ x < a + argsBytes argv) →
        byteAt m₂ root x = byteAt l.machine root x := by
  obtain ⟨hroom, hsum⟩ := hfits.sizes
  obtain ⟨m₁, he1, hinv1, hb1⟩ := storeArgs_spec argv (i := 0) (o := a + (argv.length + 1) * 8) hinv
    (show a + argsBytes argv ≤ 2 ^ 47 by omega) hin (by omega) (by omega) (by omega)
  have hlen : (leBytes 8 0).length = 8 := leBytes_length _ _
  obtain ⟨m₂, he2, hinv2, hb2⟩ := Loader.store_spec (leBytes 8 0) hinv1 (a := a + 8 * argv.length)
    (fun x hge hlt => hin x (by omega) (by omega)) (by omega)
  refine ⟨m₁, m₂, ?_, ?_, hinv2, fun x hx hout => ?_⟩
  · rw [u64_of_lt (by omega), he1]
  · rw [u64_of_lt (by omega)]
    exact he2
  · rw [hb2 x hx, if_neg (by omega)]
    exact hb1 x hx hout

/-- **`setup_args_for_new_process`**, when it returns. -/
theorem setupArgs_spec {argv : List (List UInt8)} {r : Nat × Nat × Loader}
    (hinv : Loader.Inv live kernel root m₀ l) (hfits : Fits argv)
    (hok : setupArgsForNewProcess l argv = .ok r) :
    Loader.Inv live kernel root m₀ r.2.2 ∧
      Loader.Adds root r.2.1 (r.2.1 + argsBytes argv) l r.2.2 := by
  obtain ⟨a, hfind, hplace⟩ := Loader.place_spec hinv (argsBytes_lt argv)
  rw [setupArgsForNewProcess, hfind, ok_bind] at hok
  simp only [bind_eq_ok, Except.ok.injEq] at hok
  obtain ⟨l₁, hal, m₁, hargs, m₂, hlast, rfl⟩ := hok
  obtain ⟨-, hinv1, hadds⟩ := hplace l₁ hal
  obtain ⟨m₁', m₂', hargs', hlast', hinv2, hout⟩ := writeArgs_spec hinv1 hfits
    (fun x hge hlt => (hadds.allocated x).mpr (Or.inr ⟨hge, hlt⟩)) hadds.bounds.2
  obtain rfl := Except.ok.inj (hargs.symm.trans hargs')
  obtain rfl := Except.ok.inj (hlast.symm.trans hlast')
  exact ⟨hinv2, hadds.store hinv hout⟩

/-! ### The whole image -/

/-- Load segments, inside the region that is kept track of and in different pages, and headers that
are passed over. -/
structure WellPlaced (headers : List ElfProgramHeader) : Prop where
  kinds : ∀ h ∈ headers, h.kind = .load ∨ h.kind = .ignored
  tracked : ∀ h ∈ headers, h.kind = .load → h.Tracked
  apart : headers.Pairwise fun h h' =>
    h.kind = .load → h'.kind = .load → ∀ a, h.InPages a → ¬ h'.InPages a

/-- **The image of a program.** -/
structure ImageCorrect (file : List UInt8) (headers : List ElfProgramHeader)
    (argv envp : List (List UInt8)) (m : Machine) (program : LoadedProgram) (m' : Machine) :
    Prop where
  segments : ∀ h ∈ headers, h.kind = .load → h.HeldBy file m' program.pageTableRoot
  stack : ∀ a, program.initialState.rsp - stackSize ≤ a → a < program.initialState.rsp →
    byteAt m' program.pageTableRoot a ≠ none ∧ ∀ h ∈ headers, h.kind = .load → ¬ h.InPages a
  argv : ∀ a, program.initialState.rsi ≤ a → a < program.initialState.rsi + argsBytes argv →
    byteAt m' program.pageTableRoot a ≠ none ∧ ∀ h ∈ headers, h.kind = .load → ¬ h.InPages a
  envp : ∀ a, program.initialState.rdx ≤ a → a < program.initialState.rdx + argsBytes envp →
    byteAt m' program.pageTableRoot a ≠ none ∧ ∀ h ∈ headers, h.kind = .load → ¬ h.InPages a
  heap : program.heapStart ≠ 0 → ∀ a, program.heapStart ≤ a →
    a < program.heapStart + ramSizeBytes m → a < 2 ^ 47 ∧ byteAt m' program.pageTableRoot a = none
  cr3 : m'.cr3 = m.cr3

theorem Loader.heap_spec {size a : Nat} {regions : List VirtualMemoryRegion}
    (hinv : Inv live kernel root m₀ l)
    (hfind : findContiguousVirtualRange l.regions size = .ok (a, regions)) (ha : a ≠ 0) :
    ∀ x, a ≤ x → x < a + size → x < 2 ^ 47 ∧ byteAt l.machine root x = none := by
  intro x hge hlt
  obtain ⟨a', hfind', hspec⟩ := findContiguousVirtualRange_spec hinv.laid size
  obtain ⟨rfl, -⟩ := Prod.mk.inj (Except.ok.inj (hfind.symm.trans hfind'))
  rcases hspec with ⟨r, hr, hfree, rfl, hroom, -⟩ | ⟨h0, -⟩
  · obtain ⟨-, -, hhi, hnone⟩ := hinv.laid.free_region hr hfree
    have hx : x < 2 ^ 47 := by omega
    refine ⟨hx, ?_⟩
    by_contra hne
    exact hnone x hge (by omega) ((hinv.mapped x hx).mp hne)
  · exact absurd h0 ha

theorem Loader.Holding.of_generated {m m₁ : Machine} (hgen : Generated live kernel m root m₁)
    (file : List UInt8) :
    Loader.Holding live kernel root m file [] ⟨m₁.setPml4Phys root, initialRegions⟩ := by
  have hnone : ∀ a, ¬ Allocated initialRegions a := fun a => by
    simp [initialRegions]
  refine ⟨⟨⟨[], hgen.loading⟩, laid_initialRegions, fun a ha => ?_⟩, fun a => ?_,
    fun h hmem => by cases hmem⟩
  · have hbyte : byteAt (m₁.setPml4Phys root) root a = none := hgen.byteAt_eq_none ha
    exact iff_of_false (fun hne => hne hbyte) (hnone a)
  · exact iff_of_false (hnone a) (by simp)

/-! ### The steps of `instantiate_ELF` -/

section

variable {m : Machine} {exe : Exe} {header : ElfFile} {headers : List ElfProgramHeader}
  {argv envp : List (List UInt8)}

/-- **A program that is loaded**: all steps have succeeded, from a new address space on. -/
theorem instantiateElf_eq_ok {r : LoadedProgram × Machine} (hacc : Accounted m live kernel)
    (hh : readHeader exe = .ok header) (hp : readProgramHeaders exe header = .ok headers)
    (hok : instantiateElf m exe argv envp = .ok r) :
    ∃ root m₁ l₁ stack l₂ args env heap, Generated live kernel m root m₁ ∧
      headers.foldlM (Loader.step exe header) ⟨m₁.setPml4Phys root, initialRegions⟩ = .ok l₁ ∧
      findContiguousVirtualRange l₁.regions stackSize = .ok stack ∧
      Loader.allocateVirtualRange ⟨l₁.machine, stack.2⟩ stack.1 (u64 (stack.1 + stackSize)) false =
        .ok l₂ ∧
      setupArgsForNewProcess l₂ argv = .ok args ∧
      setupArgsForNewProcess args.2.2 envp = .ok env ∧
      findContiguousVirtualRange env.2.2.regions (ramSizeBytes env.2.2.machine) = .ok heap ∧
      r = (⟨heap.1, root, { rip := header.entryOffset, rbp := u64 (stack.1 + stackSize)
                            rsp := u64 (stack.1 + stackSize), rsi := args.2.1, rdi := args.1
                            rdx := env.2.1 }⟩, env.2.2.machine.setPml4Phys m.cr3) := by
  rw [instantiateElf, hh, ok_bind] at hok
  rcases generate_spec hacc with ⟨root, m₁, hg, hgen⟩ | ⟨hg, -⟩
  swap
  · rw [hg] at hok
    cases hok
  rw [hg, ok_bind] at hok
  dsimp only at hok
  rw [hp, ok_bind, bind_eq_ok] at hok
  obtain ⟨l₁, hfold, hok⟩ := hok
  rw [bind_eq_ok] at hok
  obtain ⟨stack, hfind, hok⟩ := hok
  rw [bind_eq_ok] at hok
  obtain ⟨l₂, hstack, hok⟩ := hok
  rw [bind_eq_ok] at hok
  obtain ⟨args, hargs, hok⟩ := hok
  rw [bind_eq_ok] at hok
  obtain ⟨env, henv, hok⟩ := hok
  rw [bind_eq_ok] at hok
  obtain ⟨heap, hheap, hok⟩ := hok
  exact ⟨root, m₁, l₁, stack, l₂, args, env, heap, hgen, hfold, hfind, hstack, hargs, henv, hheap,
    (Except.ok.inj hok).symm⟩

/-- **A program that is not loaded**: there is no memory for its address space, or a step fails. -/
theorem instantiateElf_eq_error {halt : Halt} (hacc : Accounted m live kernel)
    (hh : readHeader exe = .ok header) (hp : readProgramHeaders exe header = .ok headers)
    (herr : instantiateElf m exe argv envp = .error halt) :
    halt = .outOfMemory ∨ ∃ root m₁, Generated live kernel m root m₁ ∧
      (headers.foldlM (Loader.step exe header) ⟨m₁.setPml4Phys root, initialRegions⟩ = .error halt ∨
      ∃ l₁, headers.foldlM (Loader.step exe header) ⟨m₁.setPml4Phys root, initialRegions⟩ = .ok l₁ ∧
        (findContiguousVirtualRange l₁.regions stackSize = .error halt ∨
        ∃ stack, findContiguousVirtualRange l₁.regions stackSize = .ok stack ∧
          (Loader.allocateVirtualRange ⟨l₁.machine, stack.2⟩ stack.1 (u64 (stack.1 + stackSize))
            false = .error halt ∨
          ∃ l₂, Loader.allocateVirtualRange ⟨l₁.machine, stack.2⟩ stack.1
              (u64 (stack.1 + stackSize)) false = .ok l₂ ∧
            (setupArgsForNewProcess l₂ argv = .error halt ∨
            ∃ args, setupArgsForNewProcess l₂ argv = .ok args ∧
              (setupArgsForNewProcess args.2.2 envp = .error halt ∨
              ∃ env, setupArgsForNewProcess args.2.2 envp = .ok env ∧
                findContiguousVirtualRange env.2.2.regions (ramSizeBytes env.2.2.machine) =
                  .error halt))))) := by
  rw [instantiateElf, hh, ok_bind] at herr
  rcases generate_spec hacc with ⟨root, m₁, hg, hgen⟩ | ⟨hg, -⟩
  swap
  · rw [hg] at herr
    exact Or.inl (Except.error.inj herr).symm
  rw [hg, ok_bind] at herr
  dsimp only at herr
  rw [hp, ok_bind] at herr
  simp only [bind_eq_error, reduceCtorEq, and_false, exists_false, or_false] at herr
  exact Or.inr ⟨root, m₁, hgen, herr⟩

end

end Stuos.Elf
