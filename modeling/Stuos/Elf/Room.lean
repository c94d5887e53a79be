import Stuos.Elf.Image

/-!
# Room for a program

When `instantiate_ELF` gets to its end.  `Hole l a n` are `n` free addresses from `a` on.  What the
first-fit search places in front of them, or at their start, leaves a hole that is shorter by what
was placed; so a hole for the stack and the arguments is enough.

* `Loader.place_total`, `setupArgs_total`: one placement.
* `Loader.Holding.fold_total`: the loop over the program headers.
-/

namespace Stuos.Elf

open Stuos.Lib Stuos.Memory

variable {live kernel : List Nat} {root s e : Nat} {m₀ : Machine} {l l' : Loader}
  {exe : Exe} {file : List UInt8} {h : ElfProgramHeader} {header : ElfFile}

namespace Loader

/-- `n` free addresses from `a` on, in a list without empty allocated regions. -/
structure Hole (l : Loader) (a n : Nat) : Prop where
  noneEmpty : NoneEmpty l.regions
  lower : pageSize ≤ a
  upper : a + n ≤ 0x00007FFFFFFFFFFF
  free : ∀ x, a ≤ x → x < a + n → ¬ Allocated l.regions x

theorem allocate_noneEmpty {canExecute : Bool} (hne : NoneEmpty l.regions) (hse : s < e)
    (hok : l.allocateVirtualRange s e canExecute = .ok l') : NoneEmpty l'.regions := by
  simp only [allocateVirtualRange, bind_eq_ok, Except.ok.injEq] at hok
  obtain ⟨_, -, regions, hsplit, m, -, rfl⟩ := hok
  exact splitRegion_noneEmpty hne hse hsplit

/-- **One placement**: it only fails if memory runs out, and it takes no more of the hole than it
needs. -/
theorem place_total {a n k : Nat} (hinv : Inv live kernel root m₀ l) (hhole : Hole l a (n + k))
    (hn : 0 < n) (hd : pageSize ∣ n) :
    ∃ b, findContiguousVirtualRange l.regions n = .ok (b, l.regions) ∧ u64 (b + n) = b + n ∧
      (∀ err, l.allocateVirtualRange b (b + n) false = .error err → err = .outOfMemory) ∧
      ∀ l', l.allocateVirtualRange b (b + n) false = .ok l' → Hole l' (a + n) k := by
  obtain ⟨b, hfind, hspec⟩ := findContiguousVirtualRange_spec hinv.laid n
  have hupper := hhole.upper
  rcases hspec with ⟨r, hr, hfree, rfl, hroom, -⟩ | ⟨-, hfull⟩
  · obtain ⟨hdr, -, hhi, -⟩ := hinv.laid.free_region hr hfree
    have hrange : FreeRange l.regions r.startAddr (r.startAddr + n) :=
      ⟨r, hr, hfree, le_refl _, hroom⟩
    refine ⟨r.startAddr, hfind, u64_of_lt (by omega), fun err herr => ?_, fun l' hok => ?_⟩
    · exact allocate_total hinv hdr (Nat.dvd_add hdr hd) (by omega)
        (splitRegion_total hinv.laid (by omega) hrange) herr
    · obtain ⟨-, hadds⟩ := allocate_spec hinv (by omega) hok
      have hlow := hhole.lower
      refine ⟨allocate_noneEmpty hhole.noneEmpty (by omega) hok, by omega, by omega,
        fun x hge hlt hx => ?_⟩
      rcases (hadds.allocated x).mp hx with hold | hnew
      · exact hhole.free x (by omega) (by omega) hold
      · -- the placed range would start inside the hole, behind an allocated address
        refine hhole.free (r.startAddr - 1) (by omega) (by omega) ?_
        exact hinv.laid.allocated_before hhole.noneEmpty hr hfree (by omega)
  · obtain ⟨r, hr, hfree, h1, h2⟩ := hinv.laid.freeRange hhole.noneEmpty
      (show a < a + (n + k) by omega) hhole.lower hhole.upper hhole.free
    have := hfull r hr hfree
    omega

/-! ### Segments -/

/-- A segment whose bytes are all in the file is loaded if its pages can be had. -/
theorem loadSegment_total {err : Halt} (hinv : Inv live kernel root m₀ l) (ht : h.Tracked)
    (hread : ReadsFile exe file)
    (hfull : (exe h.pOffset.toNat h.pFilesz.toNat).returned = some h.pFilesz.toNat)
    (hsplit : ∃ regions, splitRegion l.regions h.pageAllocStart h.pageAllocEnd = .ok regions)
    (herr : l.loadSegment exe h = .error err) : err = .outOfMemory := by
  obtain ⟨hstored, hcount⟩ := hread _ _ _ h.pOffset.toNat_lt h.pFilesz.toNat_lt hfull
  have hpages := ht.1.pages.2.2
  cases hal : l.allocateVirtualRange h.pageAllocStart h.pageAllocEnd (h.flags % 2 = 1) with
  | error err' =>
    rw [loadSegment, hal, error_bind] at herr
    obtain rfl := Except.error.inj herr
    exact allocate_total hinv (alignDown_dvd _) (alignDown_dvd _) hpages hsplit hal
  | ok l₁ =>
    obtain ⟨hinv1, hadds⟩ := allocate_spec hinv hpages hal
    obtain ⟨m₁, m₂, hs1, hs2, -⟩ := storeSegment_spec hinv1 ht
      (fun x hx => (hadds.allocated x).mpr (Or.inr hx)) hcount.symm
    rw [loadSegment, hal, ok_bind] at herr
    dsimp only at herr
    rw [hstored, hs1, ok_bind, ensure_of hfull, ok_bind, hs2, ok_bind] at herr
    cases herr

theorem loadSegment_noneEmpty (hne : NoneEmpty l.regions)
    (hpages : h.pageAllocStart < h.pageAllocEnd) (hok : l.loadSegment exe h = .ok l') :
    NoneEmpty l'.regions := by
  simp only [loadSegment, bind_eq_ok, Except.ok.injEq] at hok
  obtain ⟨l₁, hal, m₁, -, _, -, m₂, -, rfl⟩ := hok
  have hne₁ : NoneEmpty l₁.regions := allocate_noneEmpty hne hpages hal
  exact hne₁

/-- The segment is not empty, and the file has all its bytes. -/
def Complete (exe : Exe) (h : ElfProgramHeader) : Prop :=
  h.pageAllocStart < h.pageAllocEnd ∧
    (exe h.pOffset.toNat h.pFilesz.toNat).returned = some h.pFilesz.toNat

/-- **The loop over the program headers** only fails if memory runs out. -/
theorem Holding.fold_total {done headers : List ElfProgramHeader}
    (hh : Holding live kernel root m₀ file done l) (hne : NoneEmpty l.regions)
    (hread : ReadsFile exe file) (hw : WellPlaced (done ++ headers))
    (hcomplete : ∀ h ∈ headers, h.kind = .load → Complete exe h) :
    (∀ err, headers.foldlM (Loader.step exe header) l = .error err → err = .outOfMemory) ∧
      ∀ l', headers.foldlM (Loader.step exe header) l = .ok l' → NoneEmpty l'.regions := by
  induction headers generalizing l done with
  | nil =>
    refine ⟨fun err herr => ?_, fun l' hok => ?_⟩
    · cases herr
    · obtain rfl := Except.ok.inj hok
      exact hne
  | cons h headers ih =>
    have hmem : h ∈ done ++ h :: headers := by simp
    have hkind := hw.kinds h hmem
    have hstep : (∀ err, l.step exe header h = .error err → err = .outOfMemory) ∧
        ∀ l₁, l.step exe header h = .ok l₁ → NoneEmpty l₁.regions := by
      rcases hkind with hk | hk
      · obtain ⟨hpages, hfull⟩ := hcomplete h (by simp) hk
        simp only [Loader.step, hk]
        have ht := hw.tracked h hmem hk
        refine ⟨fun err => ?_, fun l₁ => loadSegment_noneEmpty hne hpages⟩
        refine loadSegment_total hh.inv ht hread hfull (splitRegion_total hh.inv.laid hpages
          (hh.inv.laid.freeRange hne hpages ht.2.1 ht.2.2 fun x hge hlt hall => ?_))
        obtain ⟨h', hmem', hk', hx'⟩ := (hh.allocated x).mp hall
        exact (List.pairwise_append.mp hw.apart).2.2 h' hmem' h (by simp) hk' hk x hx' ⟨hge, hlt⟩
      · simp only [Loader.step, hk]
        refine ⟨fun err herr => ?_, fun l₁ hok => ?_⟩
        · cases herr
        · obtain rfl := Except.ok.inj hok
          exact hne
    have happ : done ++ h :: headers = done ++ [h] ++ headers := by simp
    rw [happ] at hw
    cases hs : l.step exe header h with
    | error err' =>
      rw [List.foldlM_cons, hs, error_bind]
      refine ⟨fun err herr => ?_, fun l' hok => ?_⟩
      · obtain rfl := Except.error.inj herr
        exact hstep.1 _ hs
      · cases hok
    | ok l₁ =>
      rw [List.foldlM_cons, hs, ok_bind]
      exact ih (hh.step hread hkind (fun hk => hw.tracked h (by simp) hk) hs) (hstep.2 l₁ hs) hw
        fun h' hmem' => hcomplete h' (by simp [hmem'])

end Loader

/-! ### Arguments -/

theorem argsBytes_pos {argv : List (List UInt8)} (hfits : Fits argv) : 0 < argsBytes argv := by
  unfold Fits at hfits
  omega

/-- **`setup_args_for_new_process`** only fails if memory runs out. -/
theorem setupArgs_total {argv : List (List UInt8)} {a k : Nat}
    (hinv : Loader.Inv live kernel root m₀ l) (hfits : Fits argv)
    (hhole : l.Hole a (argsBytes argv + k)) :
    (∀ err, setupArgsForNewProcess l argv = .error err → err = .outOfMemory) ∧
      ∀ r, setupArgsForNewProcess l argv = .ok r → r.2.2.Hole (a + argsBytes argv) k := by
  obtain ⟨b, hfind, hb, herr, hnext⟩ :=
    Loader.place_total hinv hhole (argsBytes_pos hfits) (argsBytes_dvd argv)
  have heq : (⟨l.machine, l.regions⟩ : Loader) = l := rfl
  cases hal : l.allocateVirtualRange b (b + argsBytes argv) false with
  | error err' =>
    rw [setupArgsForNewProcess, hfind, ok_bind]
    dsimp only
    rw [hb, heq, hal, error_bind]
    refine ⟨fun err he => ?_, fun r hok => ?_⟩
    · obtain rfl := Except.error.inj he
      exact herr _ hal
    · cases hok
  | ok l₁ =>
    obtain ⟨hinv1, hadds⟩ := Loader.allocate_spec hinv (Nat.le_add_right _ _) hal
    obtain ⟨m₁, m₂, hs1, hs2, -⟩ := writeArgs_spec hinv1 hfits
      (fun x hge hlt => (hadds.allocated x).mpr (Or.inr ⟨hge, hlt⟩)) hadds.bounds.2
    have hhole1 := hnext l₁ hal
    rw [setupArgsForNewProcess, hfind, ok_bind]
    dsimp only
    rw [hb, heq, hal, ok_bind, hs1, ok_bind, hs2, ok_bind]
    refine ⟨fun err he => ?_, fun r hok => ?_⟩
    · cases he
    · obtain rfl := Except.ok.inj hok
      exact ⟨hhole1.noneEmpty, hhole1.lower, hhole1.upper, hhole1.free⟩

end Stuos.Elf
