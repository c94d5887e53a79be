import Stuos.Elf.Room

/-!
# `instantiate_ELF`

* `elf_image_correct`: a program that is loaded has its segments in memory, its stack and arguments
  in pages of their own and free addresses behind the start of its heap, and `CR3` is what it was;
  and it is loaded, unless memory runs out, if no segment is empty, the file has all their bytes and
  there is room for the stack and the arguments in one place.
* `instantiateElf_loaded`: the loader keeps to what `Memory.Loaded` says of a program.
-/

namespace Stuos.Elf

open Stuos.Lib Stuos.Memory

variable {live kernel : List Nat} {m m' : Machine} {exe : Exe} {file : List UInt8}
  {header : ElfFile} {headers : List ElfProgramHeader} {argv envp : List (List UInt8)}
  {program : LoadedProgram}

/-- The loader at its five stations: an empty address space, and then with the segments, the stack,
the arguments and the environment. -/
structure Stations (live kernel : List Nat) (m : Machine) (file : List UInt8)
    (headers : List ElfProgramHeader) (argv envp : List (List UInt8)) (program : LoadedProgram)
    (m' : Machine) (l₁ l₂ l₃ l₄ : Loader) : Prop where
  fresh : Free m program.pageTableRoot
  holding : Loader.Holding live kernel program.pageTableRoot m file headers l₁
  rsp : stackSize ≤ program.initialState.rsp
  inv : Loader.Inv live kernel program.pageTableRoot m l₄
  stack : Loader.Adds program.pageTableRoot (program.initialState.rsp - stackSize)
    program.initialState.rsp l₁ l₂
  argv : Loader.Adds program.pageTableRoot program.initialState.rsi
    (program.initialState.rsi + argsBytes argv) l₂ l₃
  envp : Loader.Adds program.pageTableRoot program.initialState.rdx
    (program.initialState.rdx + argsBytes envp) l₃ l₄
  heap : ∃ regions,
    findContiguousVirtualRange l₄.regions (ramSizeBytes m) = .ok (program.heapStart, regions)
  machine : m' = l₄.machine.setPml4Phys m.cr3

/-- **A program that is loaded** has gone through its stations. -/
theorem instantiateElf_stations (hacc : Accounted m live kernel) (hread : ReadsFile exe file)
    (hh : readHeader exe = .ok header) (hp : readProgramHeaders exe header = .ok headers)
    (hw : WellPlaced headers) (hargv : Fits argv) (henvp : Fits envp)
    (hok : instantiateElf m exe argv envp = .ok (program, m')) :
    ∃ l₁ l₂ l₃ l₄, Stations live kernel m file headers argv envp program m' l₁ l₂ l₃ l₄ := by
  obtain ⟨root, m₁, l₁, stack, l₂, args, env, heap, hgen, hfold, hfind, hstack, hargs, henv, hheap,
    hr⟩ := instantiateElf_eq_ok hacc hh hp hok
  obtain ⟨rfl, rfl⟩ := Prod.mk.inj hr
  have hinit := Loader.Holding.of_generated hgen file
  have hholding := hinit.fold hread (fun h hmem => ⟨hw.kinds h hmem, hw.tracked h hmem⟩) hfold
  rw [List.nil_append] at hholding
  obtain ⟨base, hbase, hplace⟩ :=
    Loader.place_spec hholding.inv (show stackSize < 2 ^ 64 by decide)
  obtain rfl := Except.ok.inj (hbase.symm.trans hfind)
  obtain ⟨hrsp, hinv2, hadds2⟩ := hplace l₂ hstack
  obtain ⟨hinv3, hadds3⟩ := setupArgs_spec hinv2 hargv hargs
  obtain ⟨hinv4, hadds4⟩ := setupArgs_spec hinv3 henvp henv
  refine ⟨l₁, l₂, args.2.2, env.2.2, hgen.fresh, hholding, ?_, hinv4, ?_, hadds3, hadds4, ?_, rfl⟩
  · dsimp only
    omega
  · dsimp only
    rw [hrsp, Nat.add_sub_cancel]
    exact hadds2
  · refine ⟨heap.2, ?_⟩
    have hram : ramSizeBytes env.2.2.machine = ramSizeBytes m := by
      rw [ramSizeBytes, ramSizeBytes, hinv4.current.pages]
    rw [← hram]
    exact hheap

/-- What is added to an address space with these segments is in none of their pages. -/
theorem Loader.Adds.apart {root s e : Nat} {m₀ : Machine} {l l₁ l' : Loader}
    (hh : Loader.Holding live kernel root m₀ file headers l) (hg : Loader.Grows root l l₁)
    (hadds : Loader.Adds root s e l₁ l') {a : Nat} (h1 : s ≤ a) (h2 : a < e) :
    ∀ h ∈ headers, h.kind = .load → ¬ h.InPages a := by
  intro h hmem hk hin
  exact hadds.fresh a h1 h2 (hg a (hh.mem hmem hk hin)).1

theorem Stations.image {l₁ l₂ l₃ l₄ : Loader}
    (hs : Stations live kernel m file headers argv envp program m' l₁ l₂ l₃ l₄) :
    ImageCorrect file headers argv envp m program m' := by
  obtain ⟨regions, hheap⟩ := hs.heap
  have hbyte : ∀ a, byteAt m' program.pageTableRoot a =
      byteAt l₄.machine program.pageTableRoot a := fun a => by
    rw [hs.machine]
    rfl
  have h23 := hs.stack.grows.trans hs.argv.grows
  have h24 := h23.trans hs.envp.grows
  have h34 := hs.argv.grows.trans hs.envp.grows
  -- what is allocated in the end is mapped
  have hmapped : ∀ a, Allocated l₄.regions a → byteAt m' program.pageTableRoot a ≠ none := by
    intro a ha
    have := (hs.inv.lt ha).2
    rw [hbyte, hs.inv.mapped a (by omega)]
    exact ha
  refine ⟨fun h hmem hk => ?_, fun a h1 h2 => ?_, fun a h1 h2 => ?_, fun a h1 h2 => ?_,
    fun h0 a h1 h2 => ?_, by rw [hs.machine]; rfl⟩
  · obtain ⟨ht, hheld⟩ := hs.holding.held h hmem hk
    have hfinal := hheld.grows ht.1 (fun x hx => hs.holding.mem hmem hk hx) h24
    exact ⟨fun j hj => by rw [hbyte]; exact hfinal.1 j hj,
      fun j hge hlt => by rw [hbyte]; exact hfinal.2 j hge hlt⟩
  · refine ⟨hmapped a (h34 a ((hs.stack.allocated a).mpr (Or.inr ⟨h1, h2⟩))).1, ?_⟩
    exact Loader.Adds.apart hs.holding (Loader.Grows.refl _ _) hs.stack h1 h2
  · refine ⟨hmapped a (hs.envp.grows a ((hs.argv.allocated a).mpr (Or.inr ⟨h1, h2⟩))).1, ?_⟩
    exact Loader.Adds.apart hs.holding hs.stack.grows hs.argv h1 h2
  · refine ⟨hmapped a ((hs.envp.allocated a).mpr (Or.inr ⟨h1, h2⟩)), ?_⟩
    exact Loader.Adds.apart hs.holding h23 hs.envp h1 h2
  · rw [hbyte]
    exact Loader.heap_spec hs.inv hheap h0 a h1 h2

/-- **The loader changes nothing else**: the new address space is in fresh frames, and all other
address spaces and frames are as they were. -/
theorem instantiateElf_loaded (hacc : Accounted m live kernel) (hread : ReadsFile exe file)
    (hh : readHeader exe = .ok header) (hp : readProgramHeaders exe header = .ok headers)
    (hw : WellPlaced headers) (hargv : Fits argv) (henvp : Fits envp)
    (hok : instantiateElf m exe argv envp = .ok (program, m')) :
    Loaded live kernel m program.pageTableRoot m' := by
  obtain ⟨l₁, l₂, l₃, l₄, hs⟩ := instantiateElf_stations hacc hread hh hp hw hargv henvp hok
  obtain ⟨done, hload⟩ := hs.inv.current
  rw [hs.machine]
  exact hload.loaded hs.fresh

/-- There is a place for the stack and the arguments behind one another that is in no segment. -/
def Roomy (headers : List ElfProgramHeader) (argv envp : List (List UInt8)) : Prop :=
  ∃ a, pageSize ≤ a ∧
    a + (stackSize + (argsBytes argv + argsBytes envp)) ≤ 0x00007FFFFFFFFFFF ∧
    ∀ x, a ≤ x → x < a + (stackSize + (argsBytes argv + argsBytes envp)) →
      ∀ h ∈ headers, h.kind = .load → ¬ h.InPages x

/-- **The loader gets to its end**, unless memory runs out. -/
theorem instantiateElf_total {halt : Halt} (hacc : Accounted m live kernel)
    (hread : ReadsFile exe file) (hh : readHeader exe = .ok header)
    (hp : readProgramHeaders exe header = .ok headers) (hw : WellPlaced headers)
    (hargv : Fits argv) (henvp : Fits envp)
    (hcomplete : ∀ h ∈ headers, h.kind = .load → Loader.Complete exe h)
    (hroom : Roomy headers argv envp)
    (herr : instantiateElf m exe argv envp = .error halt) : halt = .outOfMemory := by
  rcases instantiateElf_eq_error hacc hh hp herr with hmem | ⟨root, m₁, hgen, herr⟩
  · exact hmem
  have hinit := Loader.Holding.of_generated hgen file
  have hempty : NoneEmpty initialRegions := by
    intro r hr hfree
    obtain rfl := List.mem_singleton.mp hr
    cases hfree
  obtain ⟨hfolderr, hfoldok⟩ := hinit.fold_total hempty hread hw hcomplete
  rcases herr with herr | ⟨l₁, hfold, herr⟩
  · exact hfolderr halt herr
  have hholding := hinit.fold hread (fun h hmem => ⟨hw.kinds h hmem, hw.tracked h hmem⟩) hfold
  rw [List.nil_append] at hholding
  -- the hole for the stack and the arguments
  obtain ⟨a, hlow, hhigh, hout⟩ := hroom
  have hhole1 : l₁.Hole a (stackSize + (argsBytes argv + argsBytes envp)) := by
    refine ⟨hfoldok l₁ hfold, hlow, hhigh, fun x hge hlt hall => ?_⟩
    obtain ⟨h, hmem, hk, hin⟩ := (hholding.allocated x).mp hall
    exact hout x hge hlt h hmem hk hin
  obtain ⟨b, hfind, hb, hstackerr, hnext⟩ := Loader.place_total hholding.inv hhole1
    (show 0 < stackSize by decide) (show pageSize ∣ stackSize by decide)
  rcases herr with herr | ⟨stack, hstackAt, herr⟩
  · rw [hfind] at herr
    cases herr
  obtain rfl := Except.ok.inj (hfind.symm.trans hstackAt)
  dsimp only at herr
  rw [hb] at herr
  rcases herr with herr | ⟨l₂, hstack, herr⟩
  · exact hstackerr halt herr
  have hinv2 := (Loader.allocate_spec hholding.inv (Nat.le_add_right _ _) hstack).1
  obtain ⟨hargserr, hargsok⟩ := setupArgs_total hinv2 hargv (hnext l₂ hstack)
  rcases herr with herr | ⟨args, hargs, herr⟩
  · exact hargserr halt herr
  have hinv3 := (setupArgs_spec hinv2 hargv hargs).1
  have hhole3 : args.2.2.Hole (a + stackSize + argsBytes argv) (argsBytes envp + 0) := by
    rw [Nat.add_zero]
    exact hargsok args hargs
  obtain ⟨henverr, -⟩ := setupArgs_total hinv3 henvp hhole3
  rcases herr with herr | ⟨env, henv, herr⟩
  · exact henverr halt herr
  have hinv4 := (setupArgs_spec hinv3 henvp henv).1
  obtain ⟨heap, hheap, -⟩ :=
    findContiguousVirtualRange_spec hinv4.laid (ramSizeBytes env.2.2.machine)
  rw [hheap] at herr
  cases herr

/-- **The image of a program is correct**, for every executable with segments in different pages, in
every state of the machine; and the program is loaded unless memory runs out, if no segment is empty,
their bytes can be read and there is room for the stack and the arguments. -/
theorem elf_image_correct {s : Spaces} (hs : spaces.Reachable s) (hread : ReadsFile exe file)
    (hh : readHeader exe = .ok header) (hp : readProgramHeaders exe header = .ok headers)
    (hw : WellPlaced headers) (hargv : Fits argv) (henvp : Fits envp) :
    (∀ program m', instantiateElf s.machine exe argv envp = .ok (program, m') →
      ImageCorrect file headers argv envp s.machine program m') ∧
    ((∀ h ∈ headers, h.kind = .load → Loader.Complete exe h) → Roomy headers argv envp →
      ∀ halt, instantiateElf s.machine exe argv envp = .error halt → halt = .outOfMemory) := by
  have hacc := (reachable_spaces_inv hs).accounted
  constructor
  · intro program m' hok
    obtain ⟨l₁, l₂, l₃, l₄, hstations⟩ :=
      instantiateElf_stations hacc hread hh hp hw hargv henvp hok
    exact hstations.image
  · intro hcomplete hroom halt herr
    exact instantiateElf_total hacc hread hh hp hw hargv henvp hcomplete hroom herr

theorem readsFile_exeOf (file : List UInt8) : ReadsFile (exeOf file) file := by
  intro offset n r _ _ hret
  exact ⟨rfl, (Option.some.inj hret).symm⟩

/-- Five bytes of text and three zeros behind them. -/
def textHeader : ElfProgramHeader := ⟨1, 5, 120, 0x401000, 5, 8⟩

/-- A machine without address spaces, and the program with one argument. -/
theorem elf_image_correct_text :
    ∃ program m', instantiateElf ⟨fun _ _ => .ofWord 0, fun _ => false, 16, 64, 0, 0, []⟩
        (exeOf (elfBytes [textHeader] [1, 2, 3, 4, 5])) [[0x61]] [] = .ok (program, m') ∧
      ImageCorrect (elfBytes [textHeader] [1, 2, 3, 4, 5]) [textHeader] [[0x61]] []
        ⟨fun _ _ => .ofWord 0, fun _ => false, 16, 64, 0, 0, []⟩ program m' := by
  have hinit : Spaces.Init
      ⟨⟨fun _ _ => .ofWord 0, fun _ => false, 16, 64, 0, 0, []⟩, [], []⟩ :=
    ⟨by decide, rfl, List.nodup_nil, by simp, by simp, fun hslab => absurd hslab.1 (by decide),
      fun _ _ => rfl, rfl⟩
  have hheaders : (readHeader (exeOf (elfBytes [textHeader] [1, 2, 3, 4, 5])) >>=
      readProgramHeaders (exeOf (elfBytes [textHeader] [1, 2, 3, 4, 5]))) = .ok [textHeader] := by
    decide +kernel
  obtain ⟨header, hh, hp⟩ := bind_eq_ok.mp hheaders
  have hw : WellPlaced [textHeader] := by
    refine ⟨fun h hmem => ?_, fun h hmem _ => ?_, List.pairwise_singleton _ _⟩
    · obtain rfl := List.mem_singleton.mp hmem
      exact Or.inl rfl
    · obtain rfl := List.mem_singleton.mp hmem
      exact ⟨⟨by decide, by decide⟩, by decide, by decide⟩
  have hisok : (instantiateElf ⟨fun _ _ => .ofWord 0, fun _ => false, 16, 64, 0, 0, []⟩
      (exeOf (elfBytes [textHeader] [1, 2, 3, 4, 5])) [[0x61]] []).isOk = true := by
    decide +kernel
  obtain ⟨⟨program, m'⟩, hok⟩ := exists_of_isOk hisok
  refine ⟨program, m', hok, ?_⟩
  exact (elf_image_correct (.init hinit) (readsFile_exeOf _) hh hp hw (by decide) (by decide)).1
    program m' hok

end Stuos.Elf
