import Mathlib.Algebra.Order.Ring.Int
import Mathlib.Data.Nat.Bits

/-!
# The timer interrupt

`apic.c` measures how long its interrupts are apart with the ACPI timer, which counts modulo `2 ^ 24`:
it reads the timer at the interrupts 100 and 101 and subtracts, modulo `2 ^ 32`.

* `interrupts_eq`: the state after any number of interrupts.
* `calibration_iff`: **the measure is right exactly if the timer does not wrap between the two**.
-/

namespace Stuos.Apic

/-! ### The source -/

/-- The static variables of `apic_timer_counter`. -/
structure Timer where
  totalInterrupts : UInt64
  microsecondsPerInterrupt : UInt64
  trainingTemp : UInt32
  deriving DecidableEq

def Timer.boot : Timer where
  totalInterrupts := 0
  microsecondsPerInterrupt := 0
  trainingTemp := 0

/-- `register` is what the port or the mapped register holds. -/
def readPmTimer (register : UInt32) : UInt32 := register &&& 0xFFFFFF

/-- `read_pm_timer() - training_temp` -/
def timerTicksBetweenInterrupts (register trainingTemp : UInt32) : UInt64 :=
  (readPmTimer register - trainingTemp).toUInt64

def apicTimerCounter (register : UInt32) (t : Timer) : Timer :=
  let trainingTemp := if t.totalInterrupts = 100 then readPmTimer register else t.trainingTemp
  { totalInterrupts := t.totalInterrupts + 1
    microsecondsPerInterrupt :=
      if t.totalInterrupts = 101 then
        1000000 * timerTicksBetweenInterrupts register trainingTemp / 3579545
      else t.microsecondsPerInterrupt
    trainingTemp := trainingTemp }

def getUptimeMs (t : Timer) : UInt64 := t.totalInterrupts * t.microsecondsPerInterrupt / 1000

/-- After so many interrupts; `register i` is what the timer holds at interrupt `i`. -/
def interrupts (register : Nat → UInt32) : Nat → Timer
  | 0 => Timer.boot
  | k + 1 => apicTimerCounter (register k) (interrupts register k)

/-! ### All interrupts -/

variable {register : Nat → UInt32} {k : Nat}

/-- The ticks that the code takes to lie between the interrupts 100 and 101. -/
def measuredTicks (register : Nat → UInt32) : UInt64 :=
  timerTicksBetweenInterrupts (register 101) (readPmTimer (register 100))

/-- What the interrupts have left behind. -/
structure After (register : Nat → UInt32) (k : Nat) (t : Timer) : Prop where
  total : t.totalInterrupts.toNat = k
  training : 100 < k → t.trainingTemp = readPmTimer (register 100)
  measured : 101 < k → t.microsecondsPerInterrupt = 1000000 * measuredTicks register / 3579545

theorem After.step {t : Timer} (h : After register k t) (hk : k + 1 < 2 ^ 64) :
    After register (k + 1) (apicTimerCounter (register k) t) := by
  have htotal : ∀ n : UInt64, t.totalInterrupts = n ↔ k = n.toNat := by
    intro n
    rw [← UInt64.toNat_inj, h.total]
  have h100 := htotal 100
  have h101 := htotal 101
  have htraining : 100 < k + 1 →
      (apicTimerCounter (register k) t).trainingTemp = readPmTimer (register 100) := by
    intro hlt
    rw [apicTimerCounter]
    dsimp only
    by_cases hnow : k = 100
    · rw [if_pos (h100.mpr hnow), hnow]
    · rw [if_neg (fun he => hnow (h100.mp he)), h.training (by omega)]
  refine ⟨?_, htraining, fun hlt => ?_⟩
  · show (t.totalInterrupts + 1).toNat = k + 1
    rw [UInt64.toNat_add, h.total, UInt64.toNat_one, Nat.mod_eq_of_lt hk]
  · have htemp := htraining (by omega)
    rw [apicTimerCounter] at htemp ⊢
    dsimp only at htemp ⊢
    by_cases hnow : k = 101
    · rw [if_pos (h101.mpr hnow), htemp, hnow, measuredTicks]
    · rw [if_neg (fun he => hnow (h101.mp he)), h.measured (by omega)]

/-- **The state after any number of interrupts.** -/
theorem interrupts_eq (register : Nat → UInt32) (hk : k < 2 ^ 64) :
    After register k (interrupts register k) := by
  induction k with
  | zero => exact ⟨rfl, fun h => absurd h (by decide), fun h => absurd h (by decide)⟩
  | succ k ih => exact (ih (by omega)).step hk

/-! ### The measure -/

theorem toNat_readPmTimer (r : UInt32) : (readPmTimer r).toNat = r.toNat % 2 ^ 24 := by
  rw [readPmTimer, UInt32.toNat_and]
  exact Nat.and_two_pow_sub_one_eq_mod r.toNat 24

/-- The difference wraps at `2 ^ 32`, where the timer wraps at `2 ^ 24`. -/
theorem toNat_timerTicks (r : UInt32) (t0 : UInt32) :
    (timerTicksBetweenInterrupts r t0).toNat =
      (2 ^ 32 - t0.toNat + (readPmTimer r).toNat) % 2 ^ 32 := by
  rw [timerTicksBetweenInterrupts, UInt32.toNat_toUInt64, UInt32.toNat_sub]

/-- The product does not overflow. -/
theorem toNat_microseconds (ticks : UInt64) (h : ticks.toNat < 2 ^ 32) :
    (1000000 * ticks / 3579545).toNat = 1000000 * ticks.toNat / 3579545 := by
  rw [UInt64.toNat_div, UInt64.toNat_mul]
  show 1000000 * ticks.toNat % 2 ^ 64 / 3579545 = _
  rw [Nat.mod_eq_of_lt (by omega)]

theorem measuredTicks_lt (register : Nat → UInt32) : (measuredTicks register).toNat < 2 ^ 32 := by
  rw [measuredTicks, toNat_timerTicks]
  exact Nat.mod_lt _ (by decide)

/-- **The uptime** is the number of interrupts times the measure. -/
theorem getUptimeMs_eq (register : Nat → UInt32) (h101 : 101 < k) (hk : k < 2 ^ 64) :
    (getUptimeMs (interrupts register k)).toNat =
      k * (1000000 * (measuredTicks register).toNat / 3579545) % 2 ^ 64 / 1000 := by
  have hafter := interrupts_eq register hk
  rw [getUptimeMs, UInt64.toNat_div, UInt64.toNat_mul, hafter.total, hafter.measured h101,
    toNat_microseconds _ (measuredTicks_lt register)]
  rfl

section

-- `ticks i` goes on counting where the timer wraps
variable {ticks : Nat → Nat}

theorem elapsed_eq (hreg : ∀ i, (readPmTimer (register i)).toNat = ticks i % 2 ^ 24)
    (hle : ticks 100 ≤ ticks 101) (hlt : ticks 101 < ticks 100 + 2 ^ 24) :
    ((readPmTimer (register 101)).toNat + 2 ^ 24 - (readPmTimer (register 100)).toNat) % 2 ^ 24 =
      ticks 101 - ticks 100 := by
  rw [hreg 100, hreg 101]
  omega

theorem measuredTicks_of_noWrap (hreg : ∀ i, (readPmTimer (register i)).toNat = ticks i % 2 ^ 24)
    (hle : ticks 100 ≤ ticks 101) (hwrap : ticks 100 / 2 ^ 24 = ticks 101 / 2 ^ 24) :
    (measuredTicks register).toNat = ticks 101 - ticks 100 := by
  rw [measuredTicks, toNat_timerTicks, hreg 100, hreg 101]
  omega

/-- **Across a wrap** the measure is too large by the difference of the two moduli. -/
theorem measuredTicks_of_wrap (hreg : ∀ i, (readPmTimer (register i)).toNat = ticks i % 2 ^ 24)
    (hle : ticks 100 ≤ ticks 101) (hlt : ticks 101 < ticks 100 + 2 ^ 24)
    (hwrap : ticks 100 / 2 ^ 24 ≠ ticks 101 / 2 ^ 24) :
    (measuredTicks register).toNat = ticks 101 - ticks 100 + (2 ^ 32 - 2 ^ 24) := by
  rw [measuredTicks, toNat_timerTicks, hreg 100, hreg 101]
  omega

/-- **When the calibration is right**: the timer does not wrap between the two samples. -/
theorem calibration_iff (hreg : ∀ i, (readPmTimer (register i)).toNat = ticks i % 2 ^ 24)
    (hle : ticks 100 ≤ ticks 101) (hlt : ticks 101 < ticks 100 + 2 ^ 24) (h101 : 101 < k)
    (hk : k < 2 ^ 64) :
    ((measuredTicks register).toNat =
        ((readPmTimer (register 101)).toNat + 2 ^ 24 - (readPmTimer (register 100)).toNat) % 2 ^ 24 ↔
      ticks 100 / 2 ^ 24 = ticks 101 / 2 ^ 24) ∧
    ((interrupts register k).microsecondsPerInterrupt.toNat =
        1000000 * (ticks 101 - ticks 100) / 3579545 ↔
      ticks 100 / 2 ^ 24 = ticks 101 / 2 ^ 24) := by
  rw [elapsed_eq hreg hle hlt, (interrupts_eq register hk).measured h101,
    toNat_microseconds _ (measuredTicks_lt register)]
  by_cases hwrap : ticks 100 / 2 ^ 24 = ticks 101 / 2 ^ 24
  · have hright := measuredTicks_of_noWrap hreg hle hwrap
    rw [hright]
    exact ⟨iff_of_true rfl hwrap, iff_of_true rfl hwrap⟩
  · have hwrong := measuredTicks_of_wrap hreg hle hlt hwrap
    rw [hwrong]
    constructor
    · exact iff_of_false (by omega) hwrap
    · exact iff_of_false (by omega) hwrap

end

/-- One interrupt every 3580 ticks: a millisecond each. -/
theorem calibration_iff_millisecond :
    (measuredTicks fun i => UInt32.ofNat (3580 * i)).toNat = 3580 ∧
      (interrupts (fun i => UInt32.ofNat (3580 * i)) 102).microsecondsPerInterrupt.toNat = 1000 := by
  have hreg : ∀ i, (readPmTimer (UInt32.ofNat (3580 * i))).toNat = 3580 * i % 2 ^ 24 := by
    intro i
    rw [toNat_readPmTimer, UInt32.toNat_ofNat']
    omega
  obtain ⟨hticks, hmicroseconds⟩ :=
    @calibration_iff (fun i => UInt32.ofNat (3580 * i)) 102 (fun i => 3580 * i) hreg
      (by decide) (by decide) (by decide) (by decide)
  refine ⟨(hticks.mpr (by decide)).trans ?_, (hmicroseconds.mpr (by decide)).trans (by decide)⟩
  rw [hreg 100, hreg 101]
  decide

/-- The timer is read at its last tick, and again 3580 ticks later. -/
def wrapping (i : Nat) : UInt32 := if i ≤ 100 then 0xFFFFFF else 3579

theorem calibration_wrapping : (measuredTicks wrapping).toNat = 4278193660 ∧
    ((readPmTimer (wrapping 101)).toNat + 2 ^ 24 - (readPmTimer (wrapping 100)).toNat) % 2 ^ 24 =
      3580 ∧
    (interrupts wrapping 102).microsecondsPerInterrupt ≠ 1000000 * 3580 / 3579545 := by
  have hafter := interrupts_eq wrapping (show 102 < 2 ^ 64 by decide)
  refine ⟨by decide, by decide, ?_⟩
  rw [hafter.measured (by decide)]
  decide

end Stuos.Apic
