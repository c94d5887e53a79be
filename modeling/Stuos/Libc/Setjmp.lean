import Stuos.Lib.Amd64

/-!
# `setjmp` and `longjmp`

`setjmp.asm`: ten words of the environment hold the registers that a function has to keep,
`rsi` and `rdi`, and the return address.

* `setjmp_eq`: what `setjmp` leaves in the environment.
* `longjmp_returns_from_setjmp`: `longjmp` goes back to where `setjmp` returned, with the
  registers of that time and a value that is not 0.
-/

namespace Stuos.Libc

open Stuos.Lib

def setjmp (s : State) : State :=
  let s := s.store (s.regs .rdi) (s.regs .rsi)
  let s := s.store (s.regs .rdi + 8) (s.regs .rdi)
  let s := s.store (s.regs .rdi + 16) (s.regs .rbx)
  let s := s.store (s.regs .rdi + 24) (s.regs .r12)
  let s := s.store (s.regs .rdi + 32) (s.regs .r13)
  let s := s.store (s.regs .rdi + 40) (s.regs .r14)
  let s := s.store (s.regs .rdi + 48) (s.regs .r15)
  -- copy return address
  let s := s.set .rax (loadWord s.mem (s.regs .rsp).toNat)
  let s := s.store (s.regs .rdi + 56) (s.regs .rax)
  let s := s.store (s.regs .rdi + 64) (s.regs .rbp)
  let s := s.store (s.regs .rdi + 72) (s.regs .rsp)
  (s.set .rax 0).ret

/-- The low half of a register, as `mov` to a 32-bit register extends it. -/
def low32 (v : Word) : Word := (v.setWidth 32).setWidth 64

/-- `longjmp` up to `mov eax, esi`: the value that `setjmp` is to return. -/
def longjmpValue (s : State) : State :=
  let s := if low32 (s.regs .rsi) = 0 then s.set .rsi 1 else s
  s.set .rax (low32 (s.regs .rsi))

/-- The loads of `longjmp` from `mov rbx, [rdi + 2*8]` on. -/
def envLoads : List (Reg × Word) :=
  [(.rbx, 16), (.r12, 24), (.r13, 32), (.r14, 40), (.r15, 48), (.rbp, 64), (.rsp, 72), (.rcx, 56)]

def longjmp (s : State) : State :=
  let s := longjmpValue s
  let s := s.set .rsi (loadWord s.mem (s.regs .rdi).toNat)
  let s := s.set .rdi (loadWord s.mem (s.regs .rdi + 8).toNat)
  -- from here on the environment is the one that `setjmp` was called with
  let s := s.loads .rdi envLoads
  -- restore return address
  let s := s.store (s.regs .rsp) (s.regs .rcx)
  s.ret

/-- What `setjmp` puts into the environment. -/
def environment (s : State) : List Word :=
  [s.regs .rsi, s.regs .rdi, s.regs .rbx, s.regs .r12, s.regs .r13, s.regs .r14, s.regs .r15,
    loadWord s.mem (s.regs .rsp).toNat, s.regs .rbp, s.regs .rsp]

/-- The environment lies in memory, apart from the return address. -/
structure Env (s : State) : Prop where
  bound : (s.regs .rdi).toNat + 80 < 2 ^ 64
  apart : (s.regs .rdi).toNat + 80 ≤ (s.regs .rsp).toNat ∨
    (s.regs .rsp).toNat + 8 ≤ (s.regs .rdi).toNat

theorem toNat_add {w : Word} {k : Nat} (h : w.toNat + k < 2 ^ 64) :
    (w + BitVec.ofNat 64 k).toNat = w.toNat + k := by
  rw [BitVec.toNat_add, BitVec.toNat_ofNat, Nat.mod_eq_of_lt (by omega : k < 2 ^ 64),
    Nat.mod_eq_of_lt h]

theorem env_addresses {w : Word} (h : w.toNat + 80 < 2 ^ 64) :
    (w + 8#64).toNat = w.toNat + 8 ∧ (w + 16#64).toNat = w.toNat + 16 ∧ (w + 24#64).toNat = w.toNat + 24 ∧
    (w + 32#64).toNat = w.toNat + 32 ∧ (w + 40#64).toNat = w.toNat + 40 ∧
    (w + 48#64).toNat = w.toNat + 48 ∧ (w + 56#64).toNat = w.toNat + 56 ∧
    (w + 64#64).toNat = w.toNat + 64 ∧ (w + 72#64).toNat = w.toNat + 72 := by
  have hadd : ∀ k, k ≤ 80 → (w + BitVec.ofNat 64 k).toNat = w.toNat + k := fun k hk =>
    toNat_add (by omega)
  exact ⟨hadd 8 (by decide), hadd 16 (by decide), hadd 24 (by decide), hadd 32 (by decide),
    hadd 40 (by decide), hadd 48 (by decide), hadd 56 (by decide), hadd 64 (by decide),
    hadd 72 (by decide)⟩

section

variable {s t : State}

/-- **What `setjmp` does**: it fills the environment and returns 0. -/
theorem setjmp_eq (h : Env s) :
    (setjmp s).mem = storeWords s.mem (s.regs .rdi).toNat (environment s) ∧
    (setjmp s).rip = loadWord s.mem (s.regs .rsp).toNat ∧
    (setjmp s).regs = Function.update (Function.update s.regs .rax 0) .rsp (s.regs .rsp + 8) := by
  have hb := h.bound
  have ha := h.apart
  obtain ⟨h8, h16, h24, h32, h40, h48, h56, h64, h72⟩ := env_addresses hb
  -- none of the stores hits the return address
  have hret : ∀ vs : List Word, vs.length ≤ 10 →
      loadWord (storeWords s.mem (s.regs .rdi).toNat vs) (s.regs .rsp).toNat =
        loadWord s.mem (s.regs .rsp).toNat := by
    intro vs hvs
    apply loadWord_congr
    intro i h1 h2
    by_cases hlt : i < (s.regs .rdi).toNat
    · exact storeWords_of_lt hlt
    · exact storeWords_of_ge (by omega)
  have hret₇ := hret [s.regs .rsi, s.regs .rdi, s.regs .rbx, s.regs .r12, s.regs .r13, s.regs .r14,
    s.regs .r15] (by simp)
  have hret₁₀ := hret (environment s) (Nat.le_refl 10)
  simp only [storeWords, environment, Nat.add_assoc, Nat.reduceAdd] at hret₇ hret₁₀
  have hmem : (setjmp s).mem = storeWords s.mem (s.regs .rdi).toNat (environment s) := by
    simp [setjmp, State.ret, storeWords, environment, -BitVec.toNat_add, h8, h16, h24, h32, h40,
      h48, h56, h64, h72, hret₇, Nat.add_assoc]
  refine ⟨hmem, ?_, ?_⟩
  · simp [setjmp, State.ret, -BitVec.toNat_add, h8, h16, h24, h32, h40, h48, h56, h64, h72, hret₇,
      hret₁₀]
  · simp [setjmp, State.ret]

/-- **`longjmp`**, with an environment that `setjmp` has filled. -/
theorem longjmp_eq (hb : (s.regs .rdi).toNat + 80 < 2 ^ 64) (hrdi : t.regs .rdi = s.regs .rdi)
    (henv : words t.mem (t.regs .rdi).toNat 10 = environment s) :
    (longjmp t).rip = loadWord s.mem (s.regs .rsp).toNat ∧
    (longjmp t).regs .rax = (if low32 (t.regs .rsi) = 0 then 1 else low32 (t.regs .rsi)) ∧
    (longjmp t).regs .rsp = s.regs .rsp + 8 ∧
    (∀ r ∈ [Reg.rsi, .rdi, .rbx, .rbp, .r12, .r13, .r14, .r15],
      (longjmp t).regs r = s.regs r) ∧
    (longjmp t).mem = storeWord t.mem (s.regs .rsp).toNat (loadWord s.mem (s.regs .rsp).toNat) := by
  rw [hrdi] at henv
  obtain ⟨h8, h16, h24, h32, h40, h48, h56, h64, h72⟩ := env_addresses hb
  simp only [words, environment, List.cons.injEq, and_true, Nat.add_assoc, Nat.reduceAdd] at henv
  obtain ⟨e0, e8, e16, e24, e32, e40, e48, e56, e64, e72⟩ := henv
  -- the value of the call, before the registers are loaded
  have hvalue : (longjmpValue t).regs .rax =
      if low32 (t.regs .rsi) = 0 then 1 else low32 (t.regs .rsi) := by
    rw [longjmpValue]
    split <;> simp [low32]
  have hmem : (longjmpValue t).mem = t.mem := by
    rw [longjmpValue]
    split <;> rfl
  have hdi : (longjmpValue t).regs .rdi = s.regs .rdi := by
    rw [longjmpValue, ← hrdi]
    split <;> simp
  rw [← hvalue, longjmp]
  generalize longjmpValue t = t' at hmem hdi
  -- the two loads that lead to the environment of `setjmp`
  obtain ⟨u, hu⟩ : ∃ u, u = (t'.set .rsi (loadWord t'.mem (t'.regs .rdi).toNat)).set .rdi
      (loadWord t'.mem (t'.regs .rdi + 8#64).toNat) := ⟨_, rfl⟩
  have hurdi : u.regs .rdi = s.regs .rdi := by
    rw [hu, State.set_regs, Function.update_self, hmem, hdi, h8, e8]
  have hursi : u.regs .rsi = s.regs .rsi := by
    rw [hu, State.set_regs, Function.update_of_ne (by decide), State.set_regs,
      Function.update_self, hmem, hdi, e0]
  have hurax : u.regs .rax = t'.regs .rax := by
    rw [hu, State.set_regs, Function.update_of_ne (by decide), State.set_regs,
      Function.update_of_ne (by decide)]
  have humem : u.mem = t.mem := by
    rw [hu, State.set_mem, State.set_mem, hmem]
  have hstep : ((t'.set .rsi (loadWord t'.mem (t'.regs .rdi).toNat)).set .rdi
      (loadWord (t'.set .rsi (loadWord t'.mem (t'.regs .rdi).toNat)).mem
        ((t'.set .rsi (loadWord t'.mem (t'.regs .rdi).toNat)).regs .rdi + 8#64).toNat)) = u := by
    rw [hu, State.set_mem, State.set_regs, Function.update_of_ne (by decide)]
  simp only [BitVec.ofNat_eq_ofNat] at hstep ⊢
  rw [hstep]
  -- the other loads
  have hload : ∀ p ∈ envLoads, (u.loads .rdi envLoads).regs p.1 =
      loadWord t.mem (s.regs .rdi + p.2).toNat := by
    intro p hp
    rw [State.loads_of_mem (by decide) (by decide) hp, humem, hurdi]
  have hother : ∀ r, (∀ p ∈ envLoads, p.1 ≠ r) → (u.loads .rdi envLoads).regs r = u.regs r :=
    fun r hr => State.loads_of_not_mem hr
  have hvmem : (u.loads .rdi envLoads).mem = t.mem := by
    rw [State.loads_mem, humem]
  have hrbx := (hload (.rbx, 16) (by decide)).trans ((congrArg _ h16).trans e16)
  have hr12 := (hload (.r12, 24) (by decide)).trans ((congrArg _ h24).trans e24)
  have hr13 := (hload (.r13, 32) (by decide)).trans ((congrArg _ h32).trans e32)
  have hr14 := (hload (.r14, 40) (by decide)).trans ((congrArg _ h40).trans e40)
  have hr15 := (hload (.r15, 48) (by decide)).trans ((congrArg _ h48).trans e48)
  have hrbp := (hload (.rbp, 64) (by decide)).trans ((congrArg _ h64).trans e64)
  have hrsp := (hload (.rsp, 72) (by decide)).trans ((congrArg _ h72).trans e72)
  have hrcx := (hload (.rcx, 56) (by decide)).trans ((congrArg _ h56).trans e56)
  have hrsi := (hother .rsi (by decide)).trans hursi
  have hrdi' := (hother .rdi (by decide)).trans hurdi
  have hrax := (hother .rax (by decide)).trans hurax
  generalize u.loads .rdi envLoads = v at *
  refine ⟨?_, ?_, ?_, ?_, ?_⟩
  · simp [State.ret, hrsp, hrcx]
  · simp [State.ret, hrax]
  · simp [State.ret, hrsp]
  · simp [State.ret, hrsi, hrdi', hrbx, hrbp, hr12, hr13, hr14, hr15]
  · simp [State.ret, hrsp, hrcx, hvmem]

/-- **`longjmp` returns from `setjmp`**: with an environment that nobody has written to since, it
goes back to the same place with the registers that `setjmp` left, except for its own value,
which is not 0; of the memory it changes the slot of the return address only. -/
theorem longjmp_returns_from_setjmp (s t : State) (h : Env s) (hrdi : t.regs .rdi = s.regs .rdi)
    (henv : words t.mem (t.regs .rdi).toNat 10 = words (setjmp s).mem (s.regs .rdi).toNat 10) :
    (longjmp t).rip = (setjmp s).rip ∧
    (∀ r ∈ [Reg.rsi, .rdi] ++ calleeSaved, (longjmp t).regs r = (setjmp s).regs r) ∧
    (setjmp s).regs .rax = 0 ∧
    (longjmp t).regs .rax = (if low32 (t.regs .rsi) = 0 then 1 else low32 (t.regs .rsi)) ∧
    (longjmp t).regs .rax ≠ 0 ∧
    Set.EqOn (longjmp t).mem t.mem
      (Set.Ico (s.regs .rsp).toNat ((s.regs .rsp).toNat + 8))ᶜ := by
  obtain ⟨hmem, hrip, hregs⟩ := setjmp_eq h
  rw [hmem, show (10 : Nat) = (environment s).length from rfl, words_storeWords] at henv
  obtain ⟨lrip, lrax, lrsp, lregs, lmem⟩ := longjmp_eq h.bound hrdi henv
  refine ⟨lrip.trans hrip.symm, ?_, by simp [hregs], lrax, ?_, ?_⟩
  · intro r hr
    rw [hregs]
    by_cases hrsp : r = .rsp
    · subst hrsp
      rw [lrsp, Function.update_self]
    · have hrax : r ≠ .rax := by
        rintro rfl
        simp [calleeSaved] at hr
      rw [Function.update_of_ne hrsp, Function.update_of_ne hrax]
      refine lregs r ?_
      simp only [calleeSaved, List.mem_append, List.mem_cons, List.not_mem_nil, or_false] at hr ⊢
      tauto
  · rw [lrax]
    split
    · decide
    · assumption
  · rw [lmem]
    intro i hi
    rw [Set.mem_compl_iff, Set.mem_Ico] at hi
    exact storeWord_other _ _ (by omega)

/-- `longjmp(env, 5)` right after `setjmp(env)`. -/
theorem longjmp_returns_from_setjmp_five : ∃ s t : State, Env s ∧ t.regs .rsi = 5 ∧
    (longjmp t).rip = (setjmp s).rip ∧ (longjmp t).regs .rax = 5 := by
  obtain ⟨s, hs⟩ : ∃ s : State, s =
      { regs := fun r => if r = .rdi then 0x1000 else if r = .rsp then 0x8000 else 7
        rip := 0
        cs := 0
        rflags := 0
        ss := 0
        mem := fun _ => 0 } := ⟨_, rfl⟩
  have h : Env s := by
    rw [hs]
    exact ⟨by decide, by decide⟩
  obtain ⟨-, -, hregs⟩ := setjmp_eq h
  have hrdi : ((setjmp s).set .rsi 5).regs .rdi = s.regs .rdi := by
    simp [hregs]
  obtain ⟨hrip, -, -, hrax, -⟩ := longjmp_returns_from_setjmp s ((setjmp s).set .rsi 5) h hrdi
    (by rw [hrdi, State.set_mem])
  refine ⟨s, (setjmp s).set .rsi 5, h, by simp, hrip, ?_⟩
  rw [hrax, State.set_regs, Function.update_self, if_neg (by decide)]
  decide

end

end Stuos.Libc
