import Stuos.Elf.Arguments
import Stuos.Elf.Instantiate
import Stuos.Elf.Reservation

/-!
# The executables that are accepted

Which static executables `instantiate_ELF` loads, for any arguments, also those that do not fit in
their block.

* `Loader.place_gap`: what is placed by the search goes to the first gap.
* `setupArgs_ok`, `setupArgs_error`: the arguments.
* `static_executable_iff`: no `HCF` is reached if and only if the executable is `Acceptable`.
* `static_executable_headers`: the layout of a linker that puts the headers into the first segment.
-/

namespace Stuos.Elf

open Stuos.Lib Stuos.Memory

/-- The array and the strings, which the kernel has copied to its half of memory. -/
def InMemory (argv : List (List UInt8)) : Prop :=
  (argv.map fun arg => 8 + (arg.length + 1)).sum + 8 ≤ 2 ^ 47

/-- **What the loader accepts**: segments that can be mapped, and gaps for the stack, the arguments
and the environment. -/
structure Acceptable (headers : List ElfProgramHeader) (argv envp : List (List UInt8)) : Prop
    extends Mappable headers where
  room : Room {r | ∃ h ∈ headers, h.kind = .load ∧ r = h.pages}
    [stackSize, argsBytes argv, argsBytes envp]

variable {live kernel : List Nat} {root s e : Nat} {m m₀ : Machine} {l : Loader} {exe : Exe}
  {file : List UInt8} {header : ElfFile} {headers : List ElfProgramHeader}
  {argv envp : List (List UInt8)} {halt : Halt}

/-! ### Placing in a gap -/

/-- **One placement**: in the first gap, or an `HCF` if there is none. -/
theorem Loader.place_gap {n : Nat} (hinv : Loader.Inv live kernel root m₀ l) (hn : 0 < n)
    (hlt : n < 2 ^ 64) (hd : pageSize ∣ n) :
    ∃ a, findContiguousVirtualRange l.regions n = .ok (a, l.regions) ∧
      (∀ l', l.allocateVirtualRange a (u64 (a + n)) false = .ok l' →
        u64 (a + n) = a + n ∧ IsLeast {a | Gap (rangesOf l.regions) n a} a ∧
          Loader.Inv live kernel root m₀ l' ∧ Loader.Adds root a (a + n) l l' ∧
          rangesOf l'.regions = insert (a, a + n) (rangesOf l.regions)) ∧
      ∀ halt, l.allocateVirtualRange a (u64 (a + n)) false = .error halt →
        halt = .outOfMemory ∨ halt = .hcf ∧ ∀ x, ¬ Gap (rangesOf l.regions) n x := by
  obtain ⟨a, hfind, hspec⟩ := find_gap hinv.laid hn
  refine ⟨a, hfind, fun l' hok => ?_, fun halt herr => ?_⟩
  · obtain ⟨a', hfind', hplace⟩ := Loader.place_spec hinv hlt
    obtain ⟨rfl, -⟩ := Prod.mk.inj (Except.ok.inj (hfind.symm.trans hfind'))
    obtain ⟨hadd, hinv', hadds⟩ := hplace l' hok
    have hsplit := allocate_split hok
    rw [hadd] at hsplit
    refine ⟨hadd, hspec.resolve_right fun ⟨h0, _⟩ => ?_, hinv', hadds, rangesOf_split hsplit⟩
    have := hadds.bounds.1
    unfold pageSize at this
    omega
  · have ha : pageSize ∣ a := by
      obtain ⟨a', hfind', hspec'⟩ := findContiguousVirtualRange_spec hinv.laid n
      obtain ⟨rfl, -⟩ := Prod.mk.inj (Except.ok.inj (hfind.symm.trans hfind'))
      rcases hspec' with ⟨r, hr, hfree, rfl, -⟩ | ⟨rfl, -⟩
      · exact (hinv.laid.free_region hr hfree).1
      · exact Nat.dvd_zero _
    have hadd : u64 (a + n) = a + n := by
      rcases hspec with hleast | ⟨rfl, -⟩
      · have := hleast.1.2.1
        exact u64_of_lt (by omega)
      · exact u64_of_lt (by omega)
    rw [hadd] at herr
    refine (allocate_error hinv ha (Nat.dvd_add ha hd) (Nat.le_add_right _ _) herr).imp_right
      fun ⟨hhcf, hno⟩ => ⟨hhcf, ?_⟩
    rcases hspec with hleast | ⟨-, hnone⟩
    · exact absurd ((splitRegion_isOk_iff hinv.laid (Nat.le_add_right a n)).mpr hleast.1) hno
    · exact hnone

/-! ### Arguments -/

/-- **A store that does not fault** is to what is allocated, if it starts there or right behind. -/
theorem Loader.Inv.stored {bytes : List UInt8} {a : Nat} (hinv : Loader.Inv live kernel root m₀ l)
    (ha : a ≤ 0x00007FFFFFFFF000 + 1) (hok : storeBytes l.machine a bytes = .ok m) :
    Loader.Inv live kernel root m₀ ⟨m, l.regions⟩ ∧
      (bytes ≠ [] → a + bytes.length ≤ 0x00007FFFFFFFF000) := by
  induction bytes generalizing l a with
  | nil =>
    obtain rfl := Except.ok.inj hok
    exact ⟨hinv, fun hne => absurd rfl hne⟩
  | cons v bytes ih =>
    have hall : Allocated l.regions a := by
      rw [← hinv.mapped a (by omega)]
      intro hnone
      rw [storeBytes, storeByte_unmapped (hinv.current.cr3 ▸ hnone)] at hok
      cases hok
    have hlt : a < 0x00007FFFFFFFF000 := hinv.laid.allocated_lt hall
    obtain ⟨m₁, he1, hinv1, -⟩ := Loader.store_spec [v] hinv (a := a) (fun x hge hx => by
      obtain rfl : x = a := by
        rw [List.length_singleton] at hx
        omega
      exact hall) (by rw [List.length_singleton]; omega)
    rw [storeBytes] at he1
    simp only [storeBytes, bind_ok] at he1
    rw [storeBytes, he1, ok_bind, u64_of_lt (by omega)] at hok
    obtain ⟨hinv2, hend⟩ := ih hinv1 (by omega) hok
    refine ⟨hinv2, fun _ => ?_⟩
    rw [List.length_cons]
    by_cases hne : bytes = []
    · rw [hne, List.length_nil]
      omega
    · have := hend hne
      omega

/-- **The loop over the arguments**, if it does not fault: also if the arguments do not fit, nothing
is stored to but what is allocated. -/
theorem storeArgs_ok (argv : List (List UInt8)) {i o : Nat}
    (hinv : Loader.Inv live kernel root m₀ l) (he : e ≤ 2 ^ 47)
    (hin : ∀ x, s ≤ x → x < e → Allocated l.regions x) (harray : s + 8 * (i + argv.length) ≤ e)
    (ho : o ≤ 0x00007FFFFFFFF000 + 1) (hok : storeArgs s i o argv l.machine = .ok m) :
    Loader.Inv live kernel root m₀ ⟨m, l.regions⟩ := by
  induction argv generalizing l i o with
  | nil =>
    obtain rfl := Except.ok.inj hok
    exact hinv
  | cons arg argv ih =>
    rw [List.length_cons] at harray
    have hlen : (leBytes 8 o).length = 8 := leBytes_length _ _
    obtain ⟨m₁, he1, hinv1, -⟩ := Loader.store_spec (leBytes 8 o) hinv (a := s + 8 * i)
      (fun x hge hlt => hin x (by omega) (by omega)) (by omega)
    rw [storeArgs, u64_of_lt (show s + 8 * i < 2 ^ 64 by omega), he1, ok_bind, bind_eq_ok] at hok
    obtain ⟨m₂, he2, hok⟩ := hok
    obtain ⟨hinv2, hend⟩ := hinv1.stored ho he2
    have hnext := hend (by simp)
    rw [List.length_append, List.length_singleton] at hnext
    rw [u64_of_lt (by omega)] at hok
    have hinv3 := ih hinv2 hin (i := i + 1) (by omega) (by omega) hok
    exact hinv3

theorem InMemory.sizes (hm : InMemory argv) :
    8 * (argv.length + 1) ≤ argsBytes argv ∧ 0 < argsBytes argv := by
  unfold InMemory at hm
  have hlen : 8 * argv.length ≤ (argv.map fun arg => 8 + (arg.length + 1)).sum := by
    clear hm
    induction argv with
    | nil => simp
    | cons arg argv ih =>
      rw [List.map_cons, List.sum_cons, List.length_cons]
      omega
  have heq : argsBytes argv =
      ((argv.map fun arg => 8 + (arg.length + 1)).sum + 8 + 4095) / 4096 * 4096 := by
    have hlt : (argv.map fun arg => 8 + (arg.length + 1)).sum + 8 < 2 ^ 64 := by omega
    rw [argsBytes, u64_of_lt hlt, u64_of_lt (by omega)]
    rfl
  omega

/-- **`setup_args_for_new_process`**, when it returns. -/
theorem setupArgs_ok {r : Nat × Nat × Loader} (hinv : Loader.Inv live kernel root m₀ l)
    (hm : InMemory argv) (hok : setupArgsForNewProcess l argv = .ok r) :
    Loader.Inv live kernel root m₀ r.2.2 ∧
      ∃ a, IsLeast {a | Gap (rangesOf l.regions) (argsBytes argv) a} a ∧
        rangesOf r.2.2.regions = insert (a, a + argsBytes argv) (rangesOf l.regions) := by
  obtain ⟨harray, hpos⟩ := hm.sizes
  obtain ⟨a, hfind, hplace, -⟩ := Loader.place_gap hinv hpos (argsBytes_lt argv) (argsBytes_dvd argv)
  rw [setupArgsForNewProcess, hfind, ok_bind] at hok
  simp only [bind_eq_ok, Except.ok.injEq] at hok
  obtain ⟨l₁, hal, m₁, hargs, m₂, hlast, rfl⟩ := hok
  obtain ⟨-, hleast, hinv1, hadds, hranges⟩ := hplace l₁ hal
  have hhi := hadds.bounds.2
  have hin : ∀ x, a ≤ x → x < a + argsBytes argv → Allocated l₁.regions x := fun x h1 h2 =>
    (hadds.allocated x).mpr (Or.inr ⟨h1, h2⟩)
  have hlast' : a + argsBytes argv - 1 < 0x00007FFFFFFFF000 :=
    hinv1.laid.allocated_lt (hin _ (by omega) (by omega))
  rw [u64_of_lt (by omega)] at hargs
  have hinv2 := storeArgs_ok argv hinv1 (show a + argsBytes argv ≤ 2 ^ 47 by omega) hin
    (by omega) (by omega) hargs
  rw [u64_of_lt (by omega)] at hlast
  exact ⟨(hinv2.stored (by omega) hlast).1, a, hleast, hranges⟩

/-- **`setup_args_for_new_process`**, when it halts. -/
theorem setupArgs_error (hinv : Loader.Inv live kernel root m₀ l) (hm : InMemory argv)
    (herr : setupArgsForNewProcess l argv = .error halt) :
    halt = .outOfMemory ∨
      (halt = .hcf ∧ ∀ x, ¬ Gap (rangesOf l.regions) (argsBytes argv) x) ∨
      (halt = .pageFault ∧ ¬ Fits argv) := by
  obtain ⟨harray, hpos⟩ := hm.sizes
  obtain ⟨a, hfind, hplace, hfail⟩ :=
    Loader.place_gap hinv hpos (argsBytes_lt argv) (argsBytes_dvd argv)
  cases hal : l.allocateVirtualRange a (u64 (a + argsBytes argv)) false with
  | error halt' =>
    have heq : setupArgsForNewProcess l argv = .error halt' := by
      rw [setupArgsForNewProcess, hfind, ok_bind]
      dsimp only
      rw [hal, error_bind]
    obtain rfl := Except.error.inj (herr.symm.trans heq)
    exact (hfail _ hal).imp_right Or.inl
  | ok l₁ =>
    have hp : Placed l argv a l₁ := ⟨l.regions, hfind, hal⟩
    refine Or.inr (Or.inr ⟨?_, fun hfits => ?_⟩)
    · rw [setupArgs_eq hp, bind_eq_error] at herr
      rcases herr with herr | ⟨m₁, -, herr⟩
      · exact stores_error herr
      · cases herr
    · obtain ⟨hin, hapart⟩ := argStores_spec hfits (hp.le hinv)
      obtain ⟨m₁, hrun, -⟩ := stores_spec (argStores a argv) (hp.spec hinv).1 (hp.le hinv)
        (hp.allocated hinv) hin hapart
      rw [setupArgs_eq hp, hrun, ok_bind] at herr
      cases herr

/-! ### The program -/

theorem Reserved.of_generated {m₁ : Machine} (hgen : Generated live kernel m root m₁) :
    Reserved live kernel root m header [] ⟨m₁.setPml4Phys root, initialRegions⟩ where
  inv := (Loader.Holding.of_generated hgen []).inv
  kinds _ hmem := by cases hmem
  describes _ hmem := by cases hmem
  bounds _ hmem := by cases hmem
  clear := List.Pairwise.nil
  ranges := by
    rw [rangesOf_initialRegions]
    simp

theorem stackSize_facts : 0 < stackSize ∧ stackSize < 2 ^ 64 ∧ pageSize ∣ stackSize := by decide

/-- **What is loaded is acceptable.** -/
theorem instantiateElf_ok {r : LoadedProgram × Machine} (hacc : Accounted m live kernel)
    (hread : ReadsFile exe file) (hh : readHeader exe = .ok header)
    (hp : readProgramHeaders exe header = .ok headers) (hs : StaticExecutable exe headers)
    (hargv : InMemory argv) (henvp : InMemory envp)
    (hok : instantiateElf m exe argv envp = .ok r) : Acceptable headers argv envp := by
  obtain ⟨root, m₁, l₁, stack, l₂, args, env, heap, hgen, hfold, hstackAt, hstack, hargs, henv, -⟩ :=
    instantiateElf_eq_ok hacc hh hp hok
  have hr := (Reserved.of_generated hgen).fold_ok hread (hs.loadable hh hp) hfold
  rw [List.nil_append] at hr
  have hne := hr.kind_ne hs hh hp
  obtain ⟨hpos, hlt, hdvd⟩ := stackSize_facts
  obtain ⟨a, hfind, hplace, -⟩ := Loader.place_gap hr.inv hpos hlt hdvd
  obtain rfl := Except.ok.inj (hfind.symm.trans hstackAt)
  obtain ⟨-, hleast, hinv2, -, hranges2⟩ := hplace l₂ hstack
  obtain ⟨hinv3, b, hleast3, hranges3⟩ := setupArgs_ok hinv2 hargv hargs
  obtain ⟨-, c, hleast4, -⟩ := setupArgs_ok hinv3 henvp henv
  rw [hranges3, hranges2] at hleast4
  rw [hranges2] at hleast3
  refine ⟨hr.mappable hne, ?_⟩
  rw [← hr.ranges_eq hne]
  exact ⟨a, hleast, b, hleast3, c, hleast4, trivial⟩

/-- **Where the loader halts**: out of memory, on what is not acceptable, or on arguments that do not
fit. -/
theorem instantiateElf_error (hacc : Accounted m live kernel) (hread : ReadsFile exe file)
    (hh : readHeader exe = .ok header) (hp : readProgramHeaders exe header = .ok headers)
    (hs : StaticExecutable exe headers) (hargv : InMemory argv) (henvp : InMemory envp)
    (herr : instantiateElf m exe argv envp = .error halt) :
    halt = .outOfMemory ∨ (halt = .hcf ∧ ¬ Acceptable headers argv envp) ∨
      (halt = .pageFault ∧ ¬ (Fits argv ∧ Fits envp)) := by
  rcases instantiateElf_eq_error hacc hh hp herr with hmem | ⟨root, m₁, hgen, herr⟩
  · exact Or.inl hmem
  have hinit : Reserved live kernel root m header [] ⟨m₁.setPml4Phys root, initialRegions⟩ :=
    .of_generated hgen
  rcases herr with herr | ⟨l₁, hfold, herr⟩
  · rcases hinit.fold_error hread (hs.loadable hh hp) herr with hmem | ⟨hhcf, hnot⟩
    · exact Or.inl hmem
    · exact Or.inr (Or.inl ⟨hhcf, fun hacceptable => hnot hacceptable.toMappable⟩)
  have hr := hinit.fold_ok hread (hs.loadable hh hp) hfold
  rw [List.nil_append] at hr
  have hranges := hr.ranges_eq (hr.kind_ne hs hh hp)
  obtain ⟨hpos, hlt, hdvd⟩ := stackSize_facts
  obtain ⟨a, hfind, hplace, hfail⟩ := Loader.place_gap hr.inv hpos hlt hdvd
  rcases herr with herr | ⟨stack, hstackAt, herr⟩
  · rw [hfind] at herr
    cases herr
  obtain rfl := Except.ok.inj (hfind.symm.trans hstackAt)
  rcases herr with herr | ⟨l₂, hstack, herr⟩
  · rcases hfail halt herr with hmem | ⟨hhcf, hnone⟩
    · exact Or.inl hmem
    · exact Or.inr (Or.inl
        ⟨hhcf, fun hacceptable => not_room hnone (hranges ▸ hacceptable.room)⟩)
  obtain ⟨-, hleast, hinv2, -, hranges2⟩ := hplace l₂ hstack
  have hroom2 : Acceptable headers argv envp →
      Room (rangesOf l₂.regions) [argsBytes argv, argsBytes envp] := fun hacceptable => by
    rw [hranges2]
    exact (hranges ▸ hacceptable.room).of_isLeast hleast
  rcases herr with herr | ⟨args, hargs, herr⟩
  · rcases setupArgs_error hinv2 hargv herr with hmem | ⟨hhcf, hnone⟩ | ⟨hfault, hfits⟩
    · exact Or.inl hmem
    · exact Or.inr (Or.inl ⟨hhcf, fun hacceptable => not_room hnone (hroom2 hacceptable)⟩)
    · exact Or.inr (Or.inr ⟨hfault, fun hboth => hfits hboth.1⟩)
  obtain ⟨hinv3, b, hleast3, hranges3⟩ := setupArgs_ok hinv2 hargv hargs
  have hroom3 : Acceptable headers argv envp →
      Room (rangesOf args.2.2.regions) [argsBytes envp] := fun hacceptable => by
    rw [hranges3]
    exact (hroom2 hacceptable).of_isLeast hleast3
  rcases herr with herr | ⟨env, henv, herr⟩
  · rcases setupArgs_error hinv3 henvp herr with hmem | ⟨hhcf, hnone⟩ | ⟨hfault, hfits⟩
    · exact Or.inl hmem
    · exact Or.inr (Or.inl ⟨hhcf, fun hacceptable => not_room hnone (hroom3 hacceptable)⟩)
    · exact Or.inr (Or.inr ⟨hfault, fun hboth => hfits hboth.2⟩)
  -- the search for the heap only returns
  obtain ⟨hinv4, -⟩ := setupArgs_ok hinv3 henvp henv
  obtain ⟨heap, hheap, -⟩ :=
    findContiguousVirtualRange_spec hinv4.laid (ramSizeBytes env.2.2.machine)
  rw [hheap] at herr
  cases herr

/-- **The executables that are accepted**: for every static executable, in every state of the
machine, and unless memory runs out or the arguments cause a fault, no `HCF` is reached if and only
if the executable is acceptable; arguments that fit cause none. -/
theorem static_executable_iff {s : Spaces} (hs : spaces.Reachable s) (hread : ReadsFile exe file)
    (hh : readHeader exe = .ok header) (hp : readProgramHeaders exe header = .ok headers)
    (hstatic : StaticExecutable exe headers) (hargv : InMemory argv) (henvp : InMemory envp) :
    (instantiateElf s.machine exe argv envp ≠ .error .outOfMemory →
      instantiateElf s.machine exe argv envp ≠ .error .pageFault →
        (instantiateElf s.machine exe argv envp ≠ .error .hcf ↔ Acceptable headers argv envp)) ∧
    (Fits argv → Fits envp → instantiateElf s.machine exe argv envp ≠ .error .pageFault) := by
  have hacc := (reachable_spaces_inv hs).accounted
  have herror : ∀ halt, instantiateElf s.machine exe argv envp = .error halt →
      halt = .outOfMemory ∨ (halt = .hcf ∧ ¬ Acceptable headers argv envp) ∨
        (halt = .pageFault ∧ ¬ (Fits argv ∧ Fits envp)) :=
    fun halt => instantiateElf_error hacc hread hh hp hstatic hargv henvp
  constructor
  · intro hmemory hfault
    constructor
    · intro hhcf
      cases hrun : instantiateElf s.machine exe argv envp with
      | ok r => exact instantiateElf_ok hacc hread hh hp hstatic hargv henvp hrun
      | error halt =>
        rcases herror halt hrun with rfl | ⟨rfl, -⟩ | ⟨rfl, -⟩
        · exact absurd hrun hmemory
        · exact absurd hrun hhcf
        · exact absurd hrun hfault
    · intro hacceptable hrun
      rcases herror .hcf hrun with h | ⟨-, hnot⟩ | ⟨h, -⟩
      · cases h
      · exact hnot hacceptable
      · cases h
  · intro hfits hfits' hrun
    rcases herror .pageFault hrun with h | ⟨h, -⟩ | ⟨-, hnot⟩
    · cases h
    · cases h
    · exact hnot ⟨hfits, hfits'⟩

theorem static_textHeader :
    StaticExecutable (exeOf (elfBytes [textHeader] [1, 2, 3, 4, 5])) [textHeader] where
  static := by decide
  complete := by decide +kernel
  size := by decide
  lower := by decide
  apart := List.pairwise_singleton _ _
  covered := by decide

/-- The program of five bytes, with one argument. -/
theorem static_executable_text : Acceptable [textHeader] [[0x61]] [] := by
  have hheaders : (readHeader (exeOf (elfBytes [textHeader] [1, 2, 3, 4, 5])) >>=
      readProgramHeaders (exeOf (elfBytes [textHeader] [1, 2, 3, 4, 5]))) = .ok [textHeader] := by
    decide +kernel
  obtain ⟨header, hh, hp⟩ := bind_eq_ok.mp hheaders
  have hisok : (instantiateElf smallMachine (exeOf (elfBytes [textHeader] [1, 2, 3, 4, 5]))
      [[0x61]] []).isOk = true := by
    decide +kernel
  obtain ⟨r, hok⟩ := exists_of_isOk hisok
  refine ((static_executable_iff reachable_smallMachine (readsFile_exeOf _) hh hp static_textHeader
    (by unfold InMemory; decide) (by unfold InMemory; decide)).1 ?_ ?_).mp ?_
  all_goals
    rw [hok]
    rintro ⟨⟩

/-- Where a computation halts. -/
def haltOf {α : Type} : Except Halt α → Option Halt
  | .ok _ => none
  | .error halt => some halt

theorem error_of_haltOf {α : Type} {x : Except Halt α} (h : haltOf x = some halt) :
    x = .error halt := by
  cases x with
  | ok _ => cases h
  | error halt' =>
    obtain rfl := Option.some.inj h
    rfl

/-- The program headers behind the header of the file, and the segment that holds them both and five
bytes of text. -/
def tableHeader : ElfProgramHeader := ⟨6, 4, 64, 0x400040, 112, 112⟩

def firstHeader : ElfProgramHeader := ⟨1, 5, 0, 0x400000, 181, 181⟩

/-- **The usual layout of a linker is not accepted**: the pages of the program headers are reserved,
and then those of the segment that they are in. -/
theorem static_executable_headers :
    StaticExecutable (exeOf (elfBytes [tableHeader, firstHeader] [1, 2, 3, 4, 5]))
        [tableHeader, firstHeader] ∧
      (readHeader (exeOf (elfBytes [tableHeader, firstHeader] [1, 2, 3, 4, 5])) >>=
        readProgramHeaders (exeOf (elfBytes [tableHeader, firstHeader] [1, 2, 3, 4, 5]))) =
          .ok [tableHeader, firstHeader] ∧
      instantiateElf smallMachine (exeOf (elfBytes [tableHeader, firstHeader] [1, 2, 3, 4, 5]))
        [] [] = .error .hcf := by
  refine ⟨⟨by decide, by decide +kernel, by decide, by decide, ?_, by decide⟩, by decide +kernel, ?_⟩
  · exact List.pairwise_cons.mpr
      ⟨fun h' _ hk => absurd hk (by decide), List.pairwise_singleton _ _⟩
  · refine error_of_haltOf ?_
    decide +kernel

end Stuos.Elf
