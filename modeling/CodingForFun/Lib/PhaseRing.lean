import CodingForFun.Lib.Ring
import Mathlib.Algebra.Order.Group.Nat

/-!
# Rings with a phase tag

A producer writes the entries numbered `0, 1, 2, …` into `n` slots and never says how far it is. Each
entry carries a bit instead, the tag of its lap around the ring, and the tag changes from lap to lap
(`lap_add`). A consumer that knows the number of the entry it expects looks at the tag in its slot:
the entry is there if and only if the tag is that of the lap (`PhaseHolds.ready_iff`), as long as the
producer is not a whole lap ahead.
-/

namespace CodingForFun.Lib

/-- The tag of the lap that entry `i` belongs to. The first lap has the tag `true`. -/
def lap (n i : ℕ) : Bool := decide (i / n % 2 = 0)

theorem lap_zero (n : ℕ) : lap n 0 = true := by
  simp [lap]

theorem lap_add (n i : ℕ) (hn : 0 < n) : lap n (i + n) = !lap n i := by
  unfold lap
  rw [Nat.add_div_right i hn]
  rcases Nat.mod_two_eq_zero_or_one (i / n) with h | h <;> simp [Nat.succ_mod_two_eq_zero_iff, h]

theorem lap_succ (n i : ℕ) (hn : 0 < n) :
    lap n (i + 1) = if i % n + 1 = n then !lap n i else lap n i := by
  have hlt : i % n < n := Nat.mod_lt i hn
  have hi : i = n * (i / n) + i % n := (Nat.div_add_mod i n).symm
  unfold lap
  split
  case isTrue hlast =>
    have hdiv : (i + 1) / n = i / n + 1 := by
      have hmul : i + 1 = n * (i / n + 1) := by
        rw [Nat.mul_add, Nat.mul_one]
        omega
      rw [hmul, Nat.mul_div_cancel_left _ hn]
    rw [hdiv]
    rcases Nat.mod_two_eq_zero_or_one (i / n) with h | h <;>
      simp [Nat.succ_mod_two_eq_zero_iff, h]
  case isFalse hlast =>
    have hdiv : (i + 1) / n = i / n := by
      have hmul : i + 1 = (i % n + 1) + n * (i / n) := by omega
      rw [hmul, Nat.add_mul_div_left _ _ hn, Nat.div_eq_of_lt (by omega), Nat.zero_add]
    rw [hdiv]

variable {α : Type} {phase : α → Bool} {buf : ℕ → α} {n lo : ℕ} {log : List α}

/-- `buf` holds the last `n` entries of `log`, which carry the tags of their laps; the slots of the
next lap still have the tag of the lap before. -/
structure PhaseHolds (phase : α → Bool) (buf : ℕ → α) (n : ℕ) (log : List α) : Prop where
  slot : ∀ i (hi : i < log.length), log.length ≤ i + n → buf (i % n) = log[i]
  tag : ∀ i (hi : i < log.length), phase log[i] = lap n i
  old : ∀ i, log.length ≤ i → i < log.length + n → phase (buf (i % n)) = !lap n i

theorem PhaseHolds.nil (hbuf : ∀ i, phase (buf i) = false) : PhaseHolds phase buf n [] := by
  refine ⟨fun i hi => absurd hi (Nat.not_lt_zero i), fun i hi => absurd hi (Nat.not_lt_zero i), ?_⟩
  intro i _ hi
  have hdiv : i / n = 0 := Nat.div_eq_of_lt (by simpa using hi)
  rw [hbuf, lap, hdiv]
  rfl

theorem PhaseHolds.push (h : PhaseHolds phase buf n log) (hn : 0 < n) {x : α}
    (hx : phase x = lap n log.length) :
    PhaseHolds phase (Function.update buf (log.length % n) x) n (log ++ [x]) := by
  refine ⟨?_, ?_, ?_⟩
  · intro i hi hroom
    rw [List.length_append, List.length_singleton] at hi hroom
    by_cases hnew : i < log.length
    · rw [Function.update_of_ne (slot_ne hnew (by omega)), List.getElem_append_left hnew]
      exact h.slot i hnew (by omega)
    · obtain rfl : i = log.length := by omega
      rw [Function.update_self, List.getElem_concat_length rfl]
  · intro i hi
    by_cases hnew : i < log.length
    · rw [List.getElem_append_left hnew]
      exact h.tag i hnew
    · obtain rfl : i = log.length := by
        rw [List.length_append, List.length_singleton] at hi
        omega
      rw [List.getElem_concat_length rfl]
      exact hx
  · intro i hlo hhi
    rw [List.length_append, List.length_singleton] at hlo hhi
    by_cases hlast : i = log.length + n
    · -- the slot that was just written belongs to the entry one lap later
      rw [hlast, Nat.add_mod_right, Function.update_self, hx, lap_add n _ hn, Bool.not_not]
    · rw [Function.update_of_ne (slot_ne hlo (by omega)).symm]
      exact h.old i (by omega) (by omega)

theorem PhaseHolds.ready_iff (h : PhaseHolds phase buf n log) (hn : 0 < n) (hle : lo ≤ log.length)
    (hroom : log.length ≤ lo + n) : phase (buf (lo % n)) = lap n lo ↔ lo < log.length := by
  constructor
  · intro hready
    by_contra hnot
    have hold := h.old lo (by omega) (by omega)
    rw [hready] at hold
    exact Bool.eq_not_self _ |>.mp hold
  · intro hlt
    rw [h.slot lo hlt hroom, h.tag lo hlt]

end CodingForFun.Lib
