import Mathlib.Data.List.Basic
import Mathlib.Data.Nat.Bitwise
import Mathlib.Data.Nat.ModEq
import Mathlib.Logic.Function.Basic

/-!
# Ring buffers

Entries numbered `0, 1, 2, …` are kept in `n` slots, entry `i` in slot `i % n`. Two entries less than
`n` apart never share a slot (`slot_ne`), so a ring that holds the entries `log[lo], …` can take one
more as long as there are fewer than `n` of them, and gives them back in the order of their numbers
(`RingHolds.push`, `RingHolds.pop`).

`toNat_and_mask` is for indices in machine words that are reduced by a mask.
-/

namespace CodingForFun.Lib

theorem slot_ne {i j n : ℕ} (hij : i < j) (hn : j < i + n) : i % n ≠ j % n := by
  intro heq
  have hdvd : n ∣ j - i := (Nat.modEq_iff_dvd' hij.le).mp heq
  have hle : n ≤ j - i := Nat.le_of_dvd (by omega) hdvd
  omega

theorem slot_succ (i n : ℕ) (hn : 0 < n) :
    (i + 1) % n = if i % n + 1 = n then 0 else i % n + 1 := by
  have hlt : i % n < n := Nat.mod_lt i hn
  rw [← Nat.mod_add_mod i n 1]
  by_cases hlast : i % n + 1 = n
  · rw [if_pos hlast, hlast, Nat.mod_self]
  · rw [if_neg hlast, Nat.mod_eq_of_lt (by omega)]

theorem toNat_and_mask {size : UInt64} {k : ℕ} (hsize : size.toNat = 2 ^ k) (i : UInt64) :
    (i &&& (size - 1)).toNat = i.toNat % size.toNat := by
  have hle : (1 : UInt64) ≤ size := by
    rw [UInt64.le_iff_toNat_le, hsize]
    exact Nat.one_le_two_pow
  rw [UInt64.toNat_and, UInt64.toNat_sub_of_le _ _ hle, UInt64.toNat_one, hsize,
    Nat.and_two_pow_sub_one_eq_mod]

variable {α : Type} {buf : ℕ → α} {n lo : ℕ} {log : List α}

/-- `buf` holds the entries of `log` from number `lo` on in `n` slots. -/
structure RingHolds (buf : ℕ → α) (n : ℕ) (log : List α) (lo : ℕ) : Prop where
  le : lo ≤ log.length
  room : log.length ≤ lo + n
  slot : ∀ i (hi : i < log.length), lo ≤ i → buf (i % n) = log[i]

theorem RingHolds.nil (buf : ℕ → α) (n : ℕ) : RingHolds buf n [] 0 :=
  ⟨le_rfl, Nat.zero_le _, fun _ hi _ => absurd hi (Nat.not_lt_zero _)⟩

theorem RingHolds.push (h : RingHolds buf n log lo) (hlt : log.length < lo + n) (x : α) :
    RingHolds (Function.update buf (log.length % n) x) n (log ++ [x]) lo := by
  refine ⟨by simpa using h.le.trans (Nat.le_succ _), by simpa using Nat.succ_le_of_lt hlt, ?_⟩
  intro i hi hlo
  by_cases hnew : i < log.length
  · rw [Function.update_of_ne (slot_ne hnew (by omega)), List.getElem_append_left hnew]
    exact h.slot i hnew hlo
  · obtain rfl : i = log.length := by
      rw [List.length_append, List.length_singleton] at hi
      omega
    rw [Function.update_self, List.getElem_concat_length rfl]

theorem RingHolds.pop (h : RingHolds buf n log lo) (hlt : lo < log.length) :
    buf (lo % n) = log[lo] ∧ RingHolds buf n log (lo + 1) := by
  have hroom := h.room
  refine ⟨h.slot lo hlt le_rfl, hlt, by omega, ?_⟩
  intro i hi hlo
  exact h.slot i hi (by omega)

end CodingForFun.Lib
