import Mathlib.Data.Set.Function
import Mathlib.Logic.Function.Basic
import Mathlib.Order.Interval.Set.Basic
import Stuos.Lib.Bytes

/-!
# Registers and stack of an x86-64 processor

The part of the processor that code which switches between stacks relies on: the general
registers, what an interrupt saves, and a byte memory.  `State.push` and `State.pop` are the
two instructions.

* `State.pushAll_words`: values that are pushed lie in the memory as a list of words, the last
  one first.
* `State.popRegs_words`: popping into registers reads such a list back.
* `Called`: what the System V calling convention promises of a call.
-/

namespace Stuos.Lib

/-- A 64-bit value. -/
abbrev Word := BitVec 64

/-! ### Words in memory -/

/-- The word at `a`. -/
def loadWord (m : Mem) (a : Nat) : Word := BitVec.ofNat 64 (leVal (m.read a 8))

/-- The memory with the word `v` at `a`. -/
def storeWord (m : Mem) (a : Nat) (v : Word) : Mem := m.write a (leBytes 8 v.toNat)

/-- The `n` words from `a` on. -/
def words (m : Mem) (a : Nat) : Nat → List Word
  | 0 => []
  | n + 1 => loadWord m a :: words m (a + 8) n

theorem loadWord_congr {m m' : Mem} {a : Nat} (h : ∀ i, a ≤ i → i < a + 8 → m i = m' i) :
    loadWord m a = loadWord m' a := by
  rw [loadWord, loadWord, Mem.read_congr h]

/-- **A word that is stored is loaded back.** -/
@[simp] theorem loadWord_storeWord (m : Mem) (a : Nat) (v : Word) :
    loadWord (storeWord m a v) a = v := by
  have hread := Mem.read_write_self m a (leBytes 8 v.toNat)
  rw [leBytes_length] at hread
  rw [loadWord, storeWord, hread, leVal_leBytes 8 v.toNat (by have := v.isLt; omega),
    BitVec.ofNat_toNat, BitVec.setWidth_eq]

theorem storeWord_of_lt (m : Mem) {a i : Nat} (v : Word) (h : i < a) :
    storeWord m a v i = m i :=
  Mem.write_of_lt m _ h

theorem storeWord_of_ge (m : Mem) {a i : Nat} (v : Word) (h : a + 8 ≤ i) :
    storeWord m a v i = m i :=
  Mem.write_of_ge m _ (by rwa [leBytes_length])

theorem storeWord_other (m : Mem) {a i : Nat} (v : Word) (h : i < a ∨ a + 8 ≤ i) :
    storeWord m a v i = m i := by
  rcases h with h | h
  · exact storeWord_of_lt m v h
  · exact storeWord_of_ge m v h

theorem words_congr {m m' : Mem} {n a : Nat} (h : ∀ i, a ≤ i → i < a + 8 * n → m i = m' i) :
    words m a n = words m' a n := by
  induction n generalizing a with
  | zero => rfl
  | succ n ih =>
    rw [words, words, loadWord_congr fun i h1 h2 => h i h1 (by omega),
      ih fun i h1 h2 => h i (by omega) (by omega)]

theorem words_add (m : Mem) (a n k : Nat) :
    words m a (n + k) = words m a n ++ words m (a + 8 * n) k := by
  induction n generalizing a with
  | zero => simp [words]
  | succ n ih =>
    rw [show n + 1 + k = (n + k) + 1 by omega, words, words, ih, List.cons_append,
      show a + 8 + 8 * n = a + 8 * (n + 1) by omega]

/-- The memory with the words `vs` from `a` on. -/
def storeWords (m : Mem) (a : Nat) : List Word → Mem
  | [] => m
  | v :: vs => storeWords (storeWord m a v) (a + 8) vs

theorem storeWords_of_lt {m : Mem} {vs : List Word} {a i : Nat} (h : i < a) :
    storeWords m a vs i = m i := by
  induction vs generalizing m a with
  | nil => rfl
  | cons v vs ih => rw [storeWords, ih (by omega), storeWord_of_lt m v h]

theorem storeWords_of_ge {m : Mem} {vs : List Word} {a i : Nat} (h : a + 8 * vs.length ≤ i) :
    storeWords m a vs i = m i := by
  induction vs generalizing m a with
  | nil => rfl
  | cons v vs ih =>
    rw [List.length_cons] at h
    rw [storeWords, ih (by omega), storeWord_of_ge m v (by omega)]

/-- **Words that are stored are read back.** -/
@[simp] theorem words_storeWords (m : Mem) (a : Nat) (vs : List Word) :
    words (storeWords m a vs) a vs.length = vs := by
  induction vs generalizing m a with
  | nil => rfl
  | cons v vs ih =>
    have hhead : loadWord (storeWords (storeWord m a v) (a + 8) vs) a = v := by
      rw [loadWord_congr fun i _ hi => storeWords_of_lt hi, loadWord_storeWord]
    rw [List.length_cons, words, storeWords, ih, hhead]

/-! ### Registers -/

/-- The general registers. -/
inductive Reg
  | rax | rbx | rcx | rdx | rbp | rsp | rdi | rsi
  | r8 | r9 | r10 | r11 | r12 | r13 | r14 | r15
  deriving DecidableEq, Repr

/-- What a running program sees of the processor. -/
@[ext] structure State where
  regs : Reg → Word
  rip : Word
  cs : Word
  rflags : Word
  ss : Word
  mem : Mem

namespace State

/-- `mov r, v`. -/
def set (s : State) (r : Reg) (v : Word) : State :=
  { s with regs := Function.update s.regs r v }

/-- `mov [a], v`. -/
def store (s : State) (a v : Word) : State := { s with mem := storeWord s.mem a.toNat v }

/-- Instructions `mov r, [base + k]`, one after the other, for the pairs `(r, k)`. -/
def loads (s : State) (base : Reg) (ps : List (Reg × Word)) : State :=
  ps.foldl (fun s p => s.set p.1 (loadWord s.mem (s.regs base + p.2).toNat)) s

/-- `push v`. -/
def push (s : State) (v : Word) : State :=
  { s with
    regs := Function.update s.regs .rsp (s.regs .rsp - 8)
    mem := storeWord s.mem (s.regs .rsp - 8).toNat v }

/-- `pop r`. -/
def pop (s : State) (r : Reg) : State :=
  (s.set .rsp (s.regs .rsp + 8)).set r (loadWord s.mem (s.regs .rsp).toNat)

/-- Pushes of the values `vs`, one after the other. -/
def pushAll (s : State) (vs : List Word) : State := vs.foldl push s

/-- Pushes of the registers `rs`, one after the other. -/
def pushRegs (s : State) (rs : List Reg) : State := rs.foldl (fun s r => s.push (s.regs r)) s

/-- Pops into the registers `rs`, one after the other. -/
def popRegs (s : State) (rs : List Reg) : State := rs.foldl pop s

/-- `iretq`: the five words that an interrupt pushes are taken from the stack. -/
def iretq (s : State) : State :=
  let top := (s.regs .rsp).toNat
  { s with
    rip := loadWord s.mem top
    cs := loadWord s.mem (top + 8)
    rflags := loadWord s.mem (top + 16)
    regs := Function.update s.regs .rsp (loadWord s.mem (top + 24))
    ss := loadWord s.mem (top + 32) }

/-- `ret`. -/
def ret (s : State) : State :=
  { s with
    rip := loadWord s.mem (s.regs .rsp).toNat
    regs := Function.update s.regs .rsp (s.regs .rsp + 8) }

@[simp] theorem set_regs (s : State) (r : Reg) (v : Word) :
    (s.set r v).regs = Function.update s.regs r v := rfl

@[simp] theorem set_mem (s : State) (r : Reg) (v : Word) : (s.set r v).mem = s.mem := rfl

@[simp] theorem store_regs (s : State) (a v : Word) : (s.store a v).regs = s.regs := rfl

@[simp] theorem store_mem (s : State) (a v : Word) :
    (s.store a v).mem = storeWord s.mem a.toNat v := rfl

@[simp] theorem loads_mem (s : State) (base : Reg) (ps : List (Reg × Word)) :
    (s.loads base ps).mem = s.mem := by
  induction ps generalizing s with
  | nil => rfl
  | cons p ps ih => exact ih _

theorem loads_of_not_mem {base r : Reg} {ps : List (Reg × Word)} {s : State}
    (h : ∀ p ∈ ps, p.1 ≠ r) : (s.loads base ps).regs r = s.regs r := by
  induction ps generalizing s with
  | nil => rfl
  | cons p ps ih =>
    have hstep : s.loads base (p :: ps) =
        (s.set p.1 (loadWord s.mem (s.regs base + p.2).toNat)).loads base ps := rfl
    rw [hstep, ih fun q hq => h q (List.mem_cons_of_mem _ hq), set_regs,
      Function.update_of_ne (h p List.mem_cons_self).symm]

/-- **What loads read**, if no register is loaded twice and the base is not loaded. -/
theorem loads_of_mem {base : Reg} {ps : List (Reg × Word)} {s : State}
    (hnd : (ps.map Prod.fst).Nodup) (hbase : ∀ p ∈ ps, p.1 ≠ base) {p : Reg × Word} (hp : p ∈ ps) :
    (s.loads base ps).regs p.1 = loadWord s.mem (s.regs base + p.2).toNat := by
  induction ps generalizing s with
  | nil => simp at hp
  | cons q ps ih =>
    have hstep : s.loads base (q :: ps) =
        (s.set q.1 (loadWord s.mem (s.regs base + q.2).toNat)).loads base ps := rfl
    rw [List.map_cons, List.nodup_cons] at hnd
    rw [hstep]
    rcases List.mem_cons.mp hp with rfl | hp
    · rw [loads_of_not_mem, set_regs, Function.update_self]
      rintro q' hq' he
      exact hnd.1 (List.mem_map.mpr ⟨q', hq', he⟩)
    · rw [ih hnd.2 (fun q' hq' => hbase q' (List.mem_cons_of_mem _ hq')) hp, set_mem, set_regs,
        Function.update_of_ne (hbase q List.mem_cons_self).symm]

@[simp] theorem push_mem (s : State) (v : Word) :
    (s.push v).mem = storeWord s.mem (s.regs .rsp - 8).toNat v := rfl

@[simp] theorem push_rsp (s : State) (v : Word) : (s.push v).regs .rsp = s.regs .rsp - 8 := by
  simp [push]

theorem push_regs (s : State) (v : Word) {r : Reg} (hr : r ≠ .rsp) :
    (s.push v).regs r = s.regs r := by
  simp [push, hr]

@[simp] theorem pop_mem (s : State) (r : Reg) : (s.pop r).mem = s.mem := rfl

/-- Room for `n` words below the top of the stack. -/
def Room (s : State) (n : Nat) : Prop := 8 * n ≤ (s.regs .rsp).toNat

theorem toNat_sub_eight {w : Word} (h : 8 ≤ w.toNat) : (w - 8).toNat = w.toNat - 8 := by
  bv_omega

theorem toNat_add_eight {w : Word} (h : w.toNat + 8 < 2 ^ 64) : (w + 8).toNat = w.toNat + 8 := by
  bv_omega

@[simp] theorem pushAll_cons (s : State) (v : Word) (vs : List Word) :
    s.pushAll (v :: vs) = (s.push v).pushAll vs := rfl

/-- **What pushes leave**: the values are in the memory, the last one first, and everything at
or above the old top of the stack, and below the new one, is as before. -/
theorem pushAll_words {vs : List Word} {s : State} (h : s.Room vs.length) :
    ((s.pushAll vs).regs .rsp).toNat = (s.regs .rsp).toNat - 8 * vs.length ∧
    words (s.pushAll vs).mem ((s.pushAll vs).regs .rsp).toNat vs.length = vs.reverse ∧
    Set.EqOn (s.pushAll vs).mem s.mem
      (Set.Ico ((s.regs .rsp).toNat - 8 * vs.length) (s.regs .rsp).toNat)ᶜ := by
  induction vs generalizing s with
  | nil => exact ⟨rfl, rfl, fun _ _ => rfl⟩
  | cons v vs ih =>
    rw [Room, List.length_cons] at h
    have hsp : ((s.push v).regs .rsp).toNat = (s.regs .rsp).toNat - 8 := by
      rw [push_rsp, toNat_sub_eight (by omega)]
    obtain ⟨h1, h2, h3⟩ := ih (s := s.push v) (by rw [Room, hsp]; omega)
    rw [hsp] at h1 h3
    rw [pushAll_cons, List.length_cons]
    refine ⟨by omega, ?_, ?_⟩
    · rw [words_add, h2, List.reverse_cons, h1]
      -- the first value lies above all the others
      have haddr : (s.regs .rsp).toNat - 8 - 8 * vs.length + 8 * vs.length =
          (s.regs .rsp - 8).toNat := by
        rw [toNat_sub_eight (by omega)]
        omega
      have hkept : loadWord ((s.push v).pushAll vs).mem (s.regs .rsp - 8).toNat =
          loadWord (s.push v).mem (s.regs .rsp - 8).toNat := by
        refine loadWord_congr fun i hi _ => ?_
        rw [toNat_sub_eight (by omega)] at hi
        exact h3 (by rw [Set.mem_compl_iff, Set.mem_Ico]; omega)
      rw [haddr, words, words, hkept, push_mem, loadWord_storeWord]
    · intro i hi
      rw [Set.mem_compl_iff, Set.mem_Ico] at hi
      rw [h3 (by rw [Set.mem_compl_iff, Set.mem_Ico]; omega), push_mem,
        toNat_sub_eight (by omega)]
      exact storeWord_other _ _ (by omega)

theorem pushAll_regs {vs : List Word} {s : State} {r : Reg} (hr : r ≠ .rsp) :
    (s.pushAll vs).regs r = s.regs r := by
  induction vs generalizing s with
  | nil => rfl
  | cons v vs ih => rw [pushAll_cons, ih, push_regs s v hr]

@[simp] theorem pushAll_rip (s : State) (vs : List Word) : (s.pushAll vs).rip = s.rip := by
  induction vs generalizing s with
  | nil => rfl
  | cons v vs ih => rw [pushAll_cons, ih]; rfl

@[simp] theorem pushAll_append (s : State) (vs ws : List Word) :
    s.pushAll (vs ++ ws) = (s.pushAll vs).pushAll ws := List.foldl_append

theorem pushRegs_eq {rs : List Reg} {s : State} (h : Reg.rsp ∉ rs) :
    s.pushRegs rs = s.pushAll (rs.map s.regs) := by
  induction rs generalizing s with
  | nil => rfl
  | cons r rs ih =>
    rw [List.mem_cons, not_or] at h
    rw [pushRegs, List.foldl_cons, List.map_cons, pushAll_cons]
    refine (ih h.2).trans ?_
    congr 1
    apply List.map_congr_left
    intro r' hr'
    exact push_regs s _ (by rintro rfl; exact h.2 hr')

/-- **What pops read**: the registers get the words from the top of the stack on, every other
one keeps its value. -/
theorem popRegs_words {rs : List Reg} {s : State} (hrsp : Reg.rsp ∉ rs) (hnd : rs.Nodup)
    (h : (s.regs .rsp).toNat + 8 * rs.length < 2 ^ 64) :
    rs.map (s.popRegs rs).regs = words s.mem (s.regs .rsp).toNat rs.length ∧
    ((s.popRegs rs).regs .rsp).toNat = (s.regs .rsp).toNat + 8 * rs.length ∧
    (∀ r, r ∉ rs → r ≠ .rsp → (s.popRegs rs).regs r = s.regs r) ∧
    (s.popRegs rs).mem = s.mem := by
  induction rs generalizing s with
  | nil => exact ⟨rfl, rfl, fun _ _ _ => rfl, rfl⟩
  | cons r rs ih =>
    rw [List.mem_cons, not_or] at hrsp
    rw [List.nodup_cons] at hnd
    rw [List.length_cons] at h
    have hsp : ((s.pop r).regs .rsp).toNat = (s.regs .rsp).toNat + 8 := by
      rw [pop, set_regs, Function.update_of_ne hrsp.1, set_regs, Function.update_self,
        toNat_add_eight (by omega)]
    obtain ⟨h1, h2, h3, h4⟩ := ih (s := s.pop r) hrsp.2 hnd.2 (by omega)
    have hstep : s.popRegs (r :: rs) = (s.pop r).popRegs rs := rfl
    rw [hstep]
    refine ⟨?_, by rw [h2, List.length_cons]; omega, ?_, h4⟩
    · rw [List.map_cons, h1, hsp, List.length_cons, words, pop_mem,
        h3 r hnd.1 (Ne.symm hrsp.1)]
      simp [pop]
    · intro r' hr' hne
      rw [List.mem_cons, not_or] at hr'
      rw [h3 r' hr'.2 hne]
      simp [pop, hr'.1, hne]

end State

/-! ### Calls -/

/-- The registers that a function has to give back as it found them. -/
def calleeSaved : List Reg := [.rbx, .rbp, .rsp, .r12, .r13, .r14, .r15]

/-- **The System V calling convention**: after a call the callee-saved registers and the
segments are as before, and only the memory in `written` may have changed. -/
structure Called (written : Set Nat) (s s' : State) : Prop where
  saved : ∀ r ∈ calleeSaved, s'.regs r = s.regs r
  cs : s'.cs = s.cs
  ss : s'.ss = s.ss
  mem : Set.EqOn s'.mem s.mem writtenᶜ

theorem Called.rsp {written : Set Nat} {s s' : State} (h : Called written s s') :
    s'.regs .rsp = s.regs .rsp :=
  h.saved .rsp (by simp [calleeSaved])

end Stuos.Lib
