import Mathlib.Algebra.GroupWithZero.Nat
import Mathlib.Logic.Function.Iterate
import Mathlib.Tactic.SplitIfs

/-!
# The tick counters

`src/firmware/systick_driver.cpp`, where `unsigned long` has 32 bits. The seconds are counted at the ticks
at which the counter of the 10 ms ticks is a multiple of 100. That counter starts again at zero after
`2 ^ 32` ticks, 96 ticks after a full second, and zero counts as a full second. So the second counter runs
ahead of the time, from `2 ^ 32` ticks on, by the number of seconds in `drift` (`secCounter_eq`).
-/

namespace CodingForFun.SystickDriver

/-- `systick_mscounter` and `systick_seccounter` -/
structure Counters where
  mscounter : UInt32
  seccounter : UInt32

/-- The counters after `SysTickInit`. -/
def sysTickInit : Counters := ⟨0, 0⟩

def sysTickHandler (c : Counters) : Counters :=
  let mscounter := c.mscounter + 1
  ⟨mscounter, if mscounter % 100 = 0 then c.seccounter + 1 else c.seccounter⟩

/-- The counters after `t` ticks. -/
def afterTicks (t : ℕ) : Counters := sysTickHandler^[t] sysTickInit

/-- The condition of the loop of `systick_secdelay(secs)`. -/
def secDelayGoesOn (current_secs secs : UInt32) (c : Counters) : Bool :=
  c.seccounter - current_secs < secs

theorem afterTicks_succ (t : ℕ) : afterTicks (t + 1) = sysTickHandler (afterTicks t) :=
  Function.iterate_succ_apply' ..

theorem msCounter_eq (t : ℕ) : (afterTicks t).mscounter.toNat = t % 2 ^ 32 := by
  induction t with
  | zero => rfl
  | succ t ih =>
    rw [afterTicks_succ, sysTickHandler, UInt32.toNat_add, ih]
    simp

theorem isSecond_iff (t : ℕ) :
    ((afterTicks t).mscounter + 1) % 100 = 0 ↔ (t + 1) % 2 ^ 32 % 100 = 0 := by
  rw [← UInt32.toNat_inj, UInt32.toNat_mod, UInt32.toNat_add, msCounter_eq]
  simp

/-- The seconds counted in `t` ticks: one more for every `2 ^ 32` ticks. -/
def counted (t : ℕ) : ℕ := t / 2 ^ 32 * 42949673 + t % 2 ^ 32 / 100

theorem counted_succ (t : ℕ) :
    counted (t + 1) = if (t + 1) % 2 ^ 32 % 100 = 0 then counted t + 1 else counted t := by
  have hmod := Nat.mod_lt t (show 2 ^ 32 > 0 by decide)
  rw [counted, counted]
  rcases Nat.lt_or_ge (t % 2 ^ 32 + 1) (2 ^ 32) with hlt | hge
  · have hdiv : (t + 1) / 2 ^ 32 = t / 2 ^ 32 := by omega
    have hrem : (t + 1) % 2 ^ 32 = t % 2 ^ 32 + 1 := by omega
    rw [hdiv, hrem]
    split_ifs <;> omega
  · -- The tick counter starts again.
    have hlast : t % 2 ^ 32 = 2 ^ 32 - 1 := by omega
    have hdiv : (t + 1) / 2 ^ 32 = t / 2 ^ 32 + 1 := by omega
    have hrem : (t + 1) % 2 ^ 32 = 0 := by omega
    rw [hdiv, hrem, hlast, if_pos (Nat.zero_mod 100)]
    omega

theorem secCounter_counted (t : ℕ) : (afterTicks t).seccounter.toNat = counted t % 2 ^ 32 := by
  induction t with
  | zero => rfl
  | succ t ih =>
    have hzero := isSecond_iff t
    rw [afterTicks_succ, sysTickHandler, counted_succ]
    by_cases hsecond : (t + 1) % 2 ^ 32 % 100 = 0
    · rw [if_pos hsecond]
      simp only [if_pos (hzero.mpr hsecond)]
      rw [UInt32.toNat_add, ih, UInt32.toNat_one, Nat.mod_add_mod]
    · rw [if_neg hsecond]
      simp only [if_neg fun h => hsecond (hzero.mp h)]
      exact ih

/-- How many seconds the second counter is ahead after `t` ticks. -/
def drift (t : ℕ) : ℕ := (4 * (t / 2 ^ 32) + 99 - t % 2 ^ 32 % 100) / 100

theorem secCounter_eq (t : ℕ) :
    (afterTicks t).seccounter.toNat = (t / 100 + drift t) % 2 ^ 32 := by
  rw [secCounter_counted, counted, drift]
  congr 1
  omega

/-- The second counter is right exactly when it is ahead by a multiple of `2 ^ 32`: always in the first
`2 ^ 32` ticks, and not right after them. -/
theorem secCounter_iff (t : ℕ) :
    (afterTicks t).seccounter.toNat = t / 100 % 2 ^ 32 ↔ drift t % 2 ^ 32 = 0 := by
  rw [secCounter_eq]
  omega

/-- At the tick at which the tick counter starts again, one second too many has been counted. -/
theorem secCounter_wrap : (afterTicks (2 ^ 32)).seccounter.toNat ≠ 2 ^ 32 / 100 % 2 ^ 32 := by
  rw [secCounter_counted]
  decide

/-! ### The delay -/

/-- What `systick_secdelay` waits for, less than `2 ^ 32` ticks after it was called: as many seconds as
it was called for, less the ones by which the counter ran ahead in the meantime. -/
theorem secDelayGoesOn_iff {t₀ t₁ : ℕ} (hle : t₀ ≤ t₁) (hlt : t₁ - t₀ < 2 ^ 32) (secs : UInt32) :
    secDelayGoesOn (afterTicks t₀).seccounter secs (afterTicks t₁) = true ↔
      t₁ / 100 + drift t₁ < t₀ / 100 + drift t₀ + secs.toNat := by
  rw [secDelayGoesOn, decide_eq_true_iff, UInt32.lt_iff_toNat_lt, UInt32.toNat_sub, secCounter_eq,
    secCounter_eq, drift, drift]
  omega

end CodingForFun.SystickDriver
