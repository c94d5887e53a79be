import Mathlib.Data.List.Pairwise
import Stuos.Elf.Gaps
import Stuos.Elf.Room
import Stuos.Elf.Segments

/-!
# Reserving the pages of segments

The loop over the program headers of a static executable, in any order and with any layout.  It
reserves whole pages for every header of its own, also for the one that describes the program
headers, which falls through to the load segments although it lies in one of them.

* `Loader.step_ok`, `Loader.step_error`: one turn.
* `Reserved.fold_ok`, `Reserved.fold_error`: the loop gets to its end if the segments are `Mappable`,
  unless memory runs out.
* `Reserved.kind_ne`: it never does if the program headers are in a segment.
-/

namespace Stuos.Elf

open Stuos.Lib Stuos.Memory

namespace ElfProgramHeader

variable (h : ElfProgramHeader)

def pages : Nat × Nat := (h.pageAllocStart, h.pageAllocEnd)

/-- The address is one of the segment. -/
def InBytes (a : Nat) : Prop := h.pVaddr.toNat ≤ a ∧ a < h.pVaddr.toNat + h.pMemsz.toNat

end ElfProgramHeader

/-- **A static executable**, behind its header: the load segments are in the file and in the lower
half, no shorter than their parts of the file and in different places, and the program headers, if
they are in memory, are in one of them. -/
structure StaticExecutable (exe : Exe) (headers : List ElfProgramHeader) : Prop where
  static : ∀ h ∈ headers, h.kind ≠ .interpreter
  complete : ∀ h ∈ headers, h.kind = .load →
    (exe h.pOffset.toNat h.pFilesz.toNat).returned = some h.pFilesz.toNat
  size : ∀ h ∈ headers, h.kind = .load → h.pFilesz ≤ h.pMemsz
  lower : ∀ h ∈ headers, h.kind = .load → h.pVaddr.toNat + h.pMemsz.toNat ≤ 2 ^ 47
  apart : headers.Pairwise fun h h' =>
    h.kind = .load → h'.kind = .load → ∀ a, h.InBytes a → ¬ h'.InBytes a
  covered : ∀ h ∈ headers, h.kind = .programHeaders → ∃ h' ∈ headers, h'.kind = .load ∧
    h'.pVaddr.toNat ≤ h.pVaddr.toNat ∧
    h.pVaddr.toNat + h.pMemsz.toNat ≤ h'.pVaddr.toNat + h'.pMemsz.toNat

/-- Load segments, with pages that are kept track of and clear of those of the segments in front of
them, and headers that are passed over. -/
structure Mappable (headers : List ElfProgramHeader) : Prop where
  kinds : ∀ h ∈ headers, h.kind = .load ∨ h.kind = .ignored
  bounds : ∀ h ∈ headers, h.kind = .load →
    pageSize ≤ h.pageAllocStart ∧ h.pageAllocEnd ≤ 0x00007FFFFFFFFFFF
  clear : headers.Pairwise fun h h' =>
    h.kind = .load → h'.kind = .load → Clear h.pages h'.pageAllocStart h'.pageAllocEnd

variable {live kernel : List Nat} {root s e : Nat} {m m₀ : Machine} {l l' : Loader} {exe : Exe}
  {file : List UInt8} {h : ElfProgramHeader} {header : ElfFile}
  {done headers : List ElfProgramHeader} {halt : Halt}

/-- A header that is loaded is in bounds, and the file has its bytes. -/
def Loadable (exe : Exe) (header : ElfFile) (h : ElfProgramHeader) : Prop :=
  h.IsLoad → (h.kind = .programHeaders → h.DescribesTable header) →
    h.InBounds ∧ (exe h.pOffset.toNat h.pFilesz.toNat).returned = some h.pFilesz.toNat

theorem StaticExecutable.loadable (hs : StaticExecutable exe headers)
    (hh : readHeader exe = .ok header) (hp : readProgramHeaders exe header = .ok headers) :
    ∀ h ∈ headers, Loadable exe header h := by
  intro h hmem hk hd
  rcases hk with hk | hk
  · have hlow := hs.lower h hmem hk
    exact ⟨⟨hs.size h hmem hk, by omega⟩, hs.complete h hmem hk⟩
  · -- its bytes are those that the program headers were read from
    obtain ⟨-, hoff, hsize, hmemsz⟩ := hd hk
    obtain ⟨h', hmem', hk', -, hend⟩ := hs.covered h hmem hk
    have hlow := hs.lower h' hmem' hk'
    refine ⟨⟨UInt64.le_iff_toNat_le.mpr (by rw [hmemsz]), by omega⟩, ?_⟩
    simp only [readHeader, bind_eq_ok, ensure_eq_ok, Except.ok.injEq] at hh
    obtain ⟨_, -, _, hvalid, rfl⟩ := hh
    simp only [readProgramHeaders, bind_eq_ok, ensure_eq_ok] at hp
    obtain ⟨_, hret, -⟩ := hp
    rw [hvalid.programHeaderTableEntrySize, Nat.mul_comm, ← hsize, ← hoff] at hret
    exact hret

/-! ### The loop -/

namespace Loader

theorem allocate_split {canExecute : Bool} (hok : l.allocateVirtualRange s e canExecute = .ok l') :
    splitRegion l.regions s e = .ok l'.regions := by
  simp only [allocateVirtualRange, bind_eq_ok, Except.ok.injEq] at hok
  obtain ⟨_, -, regions, hsplit, m, -, rfl⟩ := hok
  exact hsplit

/-- **`allocate_virtual_range`**, when it halts. -/
theorem allocate_error {canExecute : Bool} (hinv : Inv live kernel root m₀ l) (hs : pageSize ∣ s)
    (he : pageSize ∣ e) (hse : s ≤ e)
    (herr : l.allocateVirtualRange s e canExecute = .error halt) :
    halt = .outOfMemory ∨
      halt = .hcf ∧ ¬ ∃ regions, splitRegion l.regions s e = .ok regions := by
  by_cases hsplit : ∃ regions, splitRegion l.regions s e = .ok regions
  · exact Or.inl (allocate_total hinv hs he hse hsplit herr)
  · refine Or.inr ⟨?_, hsplit⟩
    rw [allocateVirtualRange, ensure_of ⟨Nat.mod_eq_zero_of_dvd hs, Nat.mod_eq_zero_of_dvd he⟩,
      ok_bind, bind_eq_error] at herr
    rcases herr with herr | ⟨regions, hok, -⟩
    · obtain ⟨e₁, rest, hne⟩ := hinv.laid.head
      exact splitRegion_error (by simp [hne]) herr
    · exact absurd ⟨regions, hok⟩ hsplit

theorem tracked_of_split {regions : List VirtualMemoryRegion} (hinv : Inv live kernel root m₀ l)
    (hb : h.InBounds)
    (hsplit : splitRegion l.regions h.pageAllocStart h.pageAllocEnd = .ok regions) : h.Tracked := by
  obtain ⟨-, hlo, hhi, -⟩ := splitRegion_spec hinv.laid hb.pages.2.2 (alignDown_dvd _) hsplit
  exact ⟨hb, hlo, hhi⟩

theorem loadSegment_ok (hinv : Inv live kernel root m₀ l) (hb : h.InBounds)
    (hread : ReadsFile exe file) (hok : l.loadSegment exe h = .ok l') :
    Inv live kernel root m₀ l' ∧
      splitRegion l.regions h.pageAllocStart h.pageAllocEnd = .ok l'.regions := by
  have hsplit : splitRegion l.regions h.pageAllocStart h.pageAllocEnd = .ok l'.regions := by
    simp only [loadSegment, bind_eq_ok, Except.ok.injEq] at hok
    obtain ⟨l₁, hal, m₁, -, _, -, m₂, -, rfl⟩ := hok
    have h₁ := allocate_split hal
    exact h₁
  exact ⟨(loadSegment_spec hinv (tracked_of_split hinv hb hsplit) hread hok).1, hsplit⟩

theorem loadSegment_error (hinv : Inv live kernel root m₀ l) (hb : h.InBounds)
    (hread : ReadsFile exe file)
    (hfull : (exe h.pOffset.toNat h.pFilesz.toNat).returned = some h.pFilesz.toNat)
    (herr : l.loadSegment exe h = .error halt) :
    halt = .outOfMemory ∨ halt = .hcf ∧
      ¬ ∃ regions, splitRegion l.regions h.pageAllocStart h.pageAllocEnd = .ok regions := by
  by_cases hsplit : ∃ regions, splitRegion l.regions h.pageAllocStart h.pageAllocEnd = .ok regions
  · obtain ⟨regions, hok⟩ := hsplit
    exact Or.inl (loadSegment_total hinv (tracked_of_split hinv hb hok) hread hfull ⟨_, hok⟩ herr)
  · rw [loadSegment, bind_eq_error] at herr
    rcases herr with herr | ⟨l₁, hal, -⟩
    · exact allocate_error hinv (alignDown_dvd _) (alignDown_dvd _) hb.pages.2.2 herr
    · exact absurd ⟨_, allocate_split hal⟩ hsplit

/-- The header is passed over, or it is a load segment whose pages can be had. -/
def Accepts (l : Loader) (h : ElfProgramHeader) : Prop :=
  h.kind = .ignored ∨ h.kind = .load ∧
    ∃ regions, splitRegion l.regions h.pageAllocStart h.pageAllocEnd = .ok regions

/-- **One turn** that goes on. -/
theorem step_ok (hinv : Inv live kernel root m₀ l) (hread : ReadsFile exe file)
    (hl : Loadable exe header h) (hok : l.step exe header h = .ok l') :
    Inv live kernel root m₀ l' ∧ (h.kind = .ignored ∧ l' = l ∨
      h.IsLoad ∧ (h.kind = .programHeaders → h.DescribesTable header) ∧
        splitRegion l.regions h.pageAllocStart h.pageAllocEnd = .ok l'.regions) := by
  cases hk : h.kind with
  | programHeaders =>
    simp only [Loader.step, hk, bind_eq_ok, ensure_eq_ok] at hok
    obtain ⟨_, hd, hok⟩ := hok
    obtain ⟨hb, -⟩ := hl (Or.inr hk) fun _ => hd
    obtain ⟨hinv', hsplit⟩ := loadSegment_ok hinv hb hread hok
    exact ⟨hinv', Or.inr ⟨Or.inr hk, fun _ => hd, hsplit⟩⟩
  | load =>
    simp only [Loader.step, hk] at hok
    obtain ⟨hb, -⟩ := hl (Or.inl hk) fun hk' => by simp [hk] at hk'
    obtain ⟨hinv', hsplit⟩ := loadSegment_ok hinv hb hread hok
    exact ⟨hinv', Or.inr ⟨Or.inl hk, fun hk' => by simp at hk', hsplit⟩⟩
  | ignored =>
    simp only [Loader.step, hk, Except.ok.injEq] at hok
    subst hok
    exact ⟨hinv, Or.inl ⟨rfl, rfl⟩⟩
  | interpreter => simp [Loader.step, hk] at hok
  | unknown => simp [Loader.step, hk] at hok

/-- **One turn** that halts. -/
theorem step_error (hinv : Inv live kernel root m₀ l) (hread : ReadsFile exe file)
    (hl : Loadable exe header h) (herr : l.step exe header h = .error halt) :
    halt = .outOfMemory ∨ halt = .hcf ∧ ¬ l.Accepts h := by
  cases hk : h.kind with
  | programHeaders =>
    have hnot : ¬ l.Accepts h := by simp [Accepts, hk]
    simp only [Loader.step, hk, bind_eq_error] at herr
    rcases herr with herr | ⟨_, hd, herr⟩
    · exact Or.inr ⟨(ensure_eq_error.mp herr).2.symm, hnot⟩
    · obtain ⟨hb, hfull⟩ := hl (Or.inr hk) fun _ => ensure_eq_ok.mp hd
      exact (loadSegment_error hinv hb hread hfull herr).imp_right fun hhcf => ⟨hhcf.1, hnot⟩
  | load =>
    simp only [Loader.step, hk] at herr
    obtain ⟨hb, hfull⟩ := hl (Or.inl hk) fun hk' => by simp [hk] at hk'
    rcases loadSegment_error hinv hb hread hfull herr with hmem | ⟨hhcf, hno⟩
    · exact Or.inl hmem
    · exact Or.inr ⟨hhcf, by simpa [Accepts, hk] using hno⟩
  | ignored => simp [Loader.step, hk] at herr
  | interpreter =>
    simp only [Loader.step, hk, Except.error.injEq] at herr
    exact Or.inr ⟨herr.symm, by simp [Accepts, hk]⟩
  | unknown =>
    simp only [Loader.step, hk, Except.error.injEq] at herr
    exact Or.inr ⟨herr.symm, by simp [Accepts, hk]⟩

end Loader

/-- The headers of `done` are done, and the pages of those that are loaded are what is allocated. -/
structure Reserved (live kernel : List Nat) (root : Nat) (m₀ : Machine) (header : ElfFile)
    (done : List ElfProgramHeader) (l : Loader) : Prop where
  inv : Loader.Inv live kernel root m₀ l
  kinds : ∀ h ∈ done, h.kind = .ignored ∨ h.IsLoad
  describes : ∀ h ∈ done, h.kind = .programHeaders → h.DescribesTable header
  bounds : ∀ h ∈ done, h.IsLoad →
    pageSize ≤ h.pageAllocStart ∧ h.pageAllocEnd ≤ 0x00007FFFFFFFFFFF
  clear : done.Pairwise fun h h' =>
    h.IsLoad → h'.IsLoad → Clear h.pages h'.pageAllocStart h'.pageAllocEnd
  ranges : rangesOf l.regions = {r | ∃ h ∈ done, h.IsLoad ∧ r = h.pages}

namespace Reserved

/-- What the pages of the next header have to be clear of. -/
theorem split_iff (hr : Reserved live kernel root m₀ header done l) (hb : h.InBounds) :
    (∃ regions, splitRegion l.regions h.pageAllocStart h.pageAllocEnd = .ok regions) ↔
      pageSize ≤ h.pageAllocStart ∧ h.pageAllocEnd ≤ 0x00007FFFFFFFFFFF ∧
        ∀ h' ∈ done, h'.IsLoad → Clear h'.pages h.pageAllocStart h.pageAllocEnd := by
  rw [splitRegion_isOk_iff hr.inv.laid hb.pages.2.2]
  refine and_congr_right fun _ => and_congr_right fun _ => ?_
  have hmem : ∀ r, r ∈ allocatedRanges l.regions ↔ ∃ h' ∈ done, h'.IsLoad ∧ r = h'.pages :=
    fun r => Set.ext_iff.mp hr.ranges r
  constructor
  · exact fun hall h' hmem' hk' => hall _ ((hmem _).mpr ⟨h', hmem', hk', rfl⟩)
  · intro hall r hr'
    obtain ⟨h', hmem', hk', rfl⟩ := (hmem r).mp hr'
    exact hall h' hmem' hk'

theorem step (hr : Reserved live kernel root m₀ header done l) (hread : ReadsFile exe file)
    (hl : Loadable exe header h) (hok : l.step exe header h = .ok l') :
    Reserved live kernel root m₀ header (done ++ [h]) l' := by
  obtain ⟨hinv, ⟨hk, rfl⟩ | ⟨hk, hd, hsplit⟩⟩ := Loader.step_ok hr.inv hread hl hok
  · have hnot : ¬ h.IsLoad := by simp [ElfProgramHeader.IsLoad, hk]
    refine ⟨hinv, ?_, ?_, ?_, ?_, ?_⟩
    · exact List.forall_mem_append.mpr ⟨hr.kinds, List.forall_mem_singleton.mpr (Or.inl hk)⟩
    · exact List.forall_mem_append.mpr
        ⟨hr.describes, List.forall_mem_singleton.mpr fun hk' => by simp [hk] at hk'⟩
    · exact List.forall_mem_append.mpr
        ⟨hr.bounds, List.forall_mem_singleton.mpr fun hk' => absurd hk' hnot⟩
    · refine List.pairwise_append.mpr ⟨hr.clear, List.pairwise_singleton _ _, ?_⟩
      intro h' _ h'' hmem'' _ hk''
      obtain rfl := List.mem_singleton.mp hmem''
      exact absurd hk'' hnot
    · rw [hr.ranges]
      simp [or_and_right, exists_or, hnot]
  · obtain ⟨hb, -⟩ := hl hk hd
    obtain ⟨hlo, hhi, hclear⟩ := (hr.split_iff hb).mp ⟨_, hsplit⟩
    refine ⟨hinv, ?_, ?_, ?_, ?_, ?_⟩
    · exact List.forall_mem_append.mpr ⟨hr.kinds, List.forall_mem_singleton.mpr (Or.inr hk)⟩
    · exact List.forall_mem_append.mpr ⟨hr.describes, List.forall_mem_singleton.mpr hd⟩
    · exact List.forall_mem_append.mpr
        ⟨hr.bounds, List.forall_mem_singleton.mpr fun _ => ⟨hlo, hhi⟩⟩
    · refine List.pairwise_append.mpr ⟨hr.clear, List.pairwise_singleton _ _, ?_⟩
      intro h' hmem' h'' hmem'' hk' _
      obtain rfl := List.mem_singleton.mp hmem''
      exact hclear h' hmem' hk'
    · rw [rangesOf_split hsplit, hr.ranges]
      ext r
      simp [or_and_right, exists_or, hk, or_comm, ElfProgramHeader.pages]

/-- **The loop**, if it gets to its end. -/
theorem fold_ok (hr : Reserved live kernel root m₀ header done l) (hread : ReadsFile exe file)
    (hl : ∀ h ∈ headers, Loadable exe header h)
    (hok : headers.foldlM (Loader.step exe header) l = .ok l') :
    Reserved live kernel root m₀ header (done ++ headers) l' := by
  induction headers generalizing l done with
  | nil =>
    obtain rfl := Except.ok.inj hok
    rw [List.append_nil]
    exact hr
  | cons h headers ih =>
    rw [List.foldlM_cons, bind_eq_ok] at hok
    obtain ⟨l₁, h1, h2⟩ := hok
    have hnext := ih (hr.step hread (hl h (by simp)) h1) (fun h' hmem => hl h' (by simp [hmem])) h2
    rw [List.append_assoc] at hnext
    exact hnext

theorem not_mappable (hr : Reserved live kernel root m₀ header done l)
    (hl : Loadable exe header h) (hnot : ¬ l.Accepts h) : ¬ Mappable (done ++ h :: headers) := by
  intro hm
  have hmem : h ∈ done ++ h :: headers := by simp
  refine hnot ?_
  rcases hm.kinds h hmem with hk | hk
  · obtain ⟨hb, -⟩ := hl (Or.inl hk) fun hk' => by simp [hk] at hk'
    obtain ⟨hlo, hhi⟩ := hm.bounds h hmem hk
    refine Or.inr ⟨hk, (hr.split_iff hb).mpr ⟨hlo, hhi, fun h' hmem' hload => ?_⟩⟩
    have hk' : h'.kind = .load := by
      rcases hload with hk' | hk'
      · exact hk'
      · have := hm.kinds h' (List.mem_append_left _ hmem')
        simp [hk'] at this
    exact (List.pairwise_append.mp hm.clear).2.2 h' hmem' h List.mem_cons_self hk' hk
  · exact Or.inl hk

/-- **The loop**, if it halts. -/
theorem fold_error (hr : Reserved live kernel root m₀ header done l) (hread : ReadsFile exe file)
    (hl : ∀ h ∈ headers, Loadable exe header h)
    (herr : headers.foldlM (Loader.step exe header) l = .error halt) :
    halt = .outOfMemory ∨ halt = .hcf ∧ ¬ Mappable (done ++ headers) := by
  induction headers generalizing l done with
  | nil => cases herr
  | cons h headers ih =>
    rw [List.foldlM_cons, bind_eq_error] at herr
    have hlh := hl h (by simp)
    rcases herr with herr | ⟨l₁, h1, h2⟩
    · exact (Loader.step_error hr.inv hread hlh herr).imp_right fun ⟨hhcf, hnot⟩ =>
        ⟨hhcf, hr.not_mappable hlh hnot⟩
    · have hnext := ih (hr.step hread hlh h1) (fun h' hmem => hl h' (by simp [hmem])) h2
      rw [List.append_assoc] at hnext
      exact hnext

theorem apart {h' : ElfProgramHeader} (hr : Reserved live kernel root m₀ header done l)
    (hmem : h ∈ done) (hmem' : h' ∈ done) (hne : h ≠ h') (hk : h.IsLoad) (hk' : h'.IsLoad)
    {a : Nat} (ha : h.InPages a) : ¬ h'.InPages a := by
  let R : ElfProgramHeader → ElfProgramHeader → Prop := fun h h' =>
    h.IsLoad → h'.IsLoad → ∀ a, h.InPages a → ¬ h'.InPages a
  have hsymm : Std.Symm R := ⟨fun h h' hR hk' hk a ha' ha => hR hk hk' a ha ha'⟩
  have hapart : done.Pairwise R := by
    refine hr.clear.imp fun {h h'} hclear hk hk' a ⟨h1, h2⟩ ⟨h3, h4⟩ => ?_
    have hno := hclear hk hk'
    simp only [Clear, ElfProgramHeader.pages] at hno
    omega
  exact hapart.forall hmem hmem' hne hk hk' a ha

/-- **The program headers are never loaded** on their own, since they are in a load segment. -/
theorem kind_ne (hr : Reserved live kernel root m₀ header headers l)
    (hs : StaticExecutable exe headers) (hh : readHeader exe = .ok header)
    (hp : readProgramHeaders exe header = .ok headers) :
    ∀ h ∈ headers, h.kind ≠ .programHeaders := by
  intro h hmem hk
  obtain ⟨h', hmem', hk', hstart, hend⟩ := hs.covered h hmem hk
  have hload := hs.loadable hh hp
  have hd := hr.describes h hmem
  obtain ⟨hb, -⟩ := hload h hmem (Or.inr hk) hd
  obtain ⟨hb', -⟩ := hload h' hmem' (Or.inl hk') (hr.describes h' hmem')
  obtain ⟨-, -, hsize, hmemsz⟩ := hd hk
  -- the table has at least this entry
  have hpos : 0 < h.pMemsz.toNat := by
    have hlen : headers.length = header.programHeaderTableNumEntries := by
      simp only [readProgramHeaders, bind_eq_ok, Except.ok.injEq] at hp
      obtain ⟨_, -, rfl⟩ := hp
      simp
    have := List.length_pos_of_mem hmem
    rw [hmemsz, hsize]
    unfold sizeofElfProgramHeader
    omega
  have hne : h ≠ h' := by
    rintro rfl
    rw [hk] at hk'
    cases hk'
  have hpages := hb.pages
  have hpages' := hb'.pages
  exact hr.apart hmem hmem' hne (Or.inr hk) (Or.inl hk') (a := h.pVaddr.toNat)
    ⟨by omega, by omega⟩ ⟨by omega, by omega⟩

/-- **Segments that have been loaded** can be mapped. -/
theorem mappable (hr : Reserved live kernel root m₀ header headers l)
    (hne : ∀ h ∈ headers, h.kind ≠ .programHeaders) : Mappable headers where
  kinds h hmem := by
    rcases hr.kinds h hmem with hk | hk | hk
    · exact Or.inr hk
    · exact Or.inl hk
    · exact absurd hk (hne h hmem)
  bounds h hmem hk := hr.bounds h hmem (Or.inl hk)
  clear := hr.clear.imp fun hclear hk hk' => hclear (Or.inl hk) (Or.inl hk')

theorem ranges_eq (hr : Reserved live kernel root m₀ header headers l)
    (hne : ∀ h ∈ headers, h.kind ≠ .programHeaders) :
    rangesOf l.regions = {r | ∃ h ∈ headers, h.kind = .load ∧ r = h.pages} := by
  rw [hr.ranges]
  ext r
  refine exists_congr fun h => and_congr_right fun hmem => and_congr_left fun _ => ?_
  simp [ElfProgramHeader.IsLoad, hne h hmem]

end Reserved

end Stuos.Elf
