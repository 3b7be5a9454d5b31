import Mathlib.Data.BitVec
import Mathlib.Data.Finset.Card
import Mathlib.Data.Nat.Factorization.Basic
import Mathlib.Order.Bounds.Defs

/-!
# Machine words bit by bit

A word is known by its bits. `ones` is the set of the positions of the bits that are set: `a & (a - 1)` takes the
lowest one out of it. `2^k - 1` is the word of the bits below `k`, and clearing them rounds down to a multiple of
`2^k`. A function that moves bits (`Moves`) is known by where each bit of the result comes from, and two such
functions after one another move bits, too.
-/

namespace CodingForFun.Lib

variable {w : ℕ}

/-! ### Shifts by a number that is computed -/

/-- A shift by a number of places that a word does not have. -/
structure BadShift where
  count : ℤ
deriving DecidableEq

/-- `a << n` -/
def shl (a : BitVec w) (n : ℤ) : Except BadShift (BitVec w) :=
  if 0 ≤ n ∧ n < w then .ok (a <<< n.toNat) else .error ⟨n⟩

theorem shl_ok {k : ℕ} (a : BitVec w) (hk : k < w) : shl a k = .ok (a <<< k) := by
  rw [shl, if_pos ⟨Int.natCast_nonneg k, by exact_mod_cast hk⟩, Int.toNat_natCast]

theorem shl_error {n : ℤ} (a : BitVec w) (hn : w ≤ n) : shl a n = .error ⟨n⟩ := by
  rw [shl, if_neg]
  intro h
  exact absurd h.2 (Int.not_lt.mpr hn)

/-! ### The bits that are set -/

/-- The positions of the one bits. -/
def ones (a : BitVec w) : Finset ℕ := (Finset.range w).filter fun i => a.getLsbD i

variable {a b : BitVec w} {i k p : ℕ}

theorem mem_ones : i ∈ ones a ↔ a.getLsbD i = true := by
  rw [ones, Finset.mem_filter, Finset.mem_range]
  exact and_iff_right_of_imp BitVec.lt_of_getLsbD

theorem ones_zero : ones (0 : BitVec w) = ∅ := by
  apply Finset.eq_empty_of_forall_notMem
  intro i hi
  rw [mem_ones] at hi
  exact absurd hi (by simp)

theorem ones_inj (h : ones a = ones b) : a = b := by
  apply BitVec.eq_of_getLsbD_eq
  intro i _
  rw [Bool.eq_iff_iff, ← mem_ones, ← mem_ones, h]

theorem ones_eq_empty : ones a = ∅ ↔ a = 0 := by
  constructor
  · intro h
    exact ones_inj (h.trans ones_zero.symm)
  · intro h
    rw [h, ones_zero]

theorem exists_lowest {n : ℕ} (hn : n ≠ 0) :
    ∃ i, n.testBit i = true ∧ ∀ j, (n.testBit j && (n - 1).testBit j) = (n.testBit j && decide (j ≠ i)) := by
  obtain ⟨i, m, ⟨m, rfl⟩, rfl⟩ := Nat.exists_eq_two_pow_mul_odd hn
  have hpow := Nat.two_pow_pos i
  have hpred : 2 ^ i * (2 * m + 1) - 1 = 2 ^ i * (2 * m) + (2 ^ i - 1) := by
    rw [Nat.mul_add, Nat.mul_one, Nat.add_sub_assoc hpow]
  have hbit : ∀ j, (2 ^ i * (2 * m + 1)).testBit j = (decide (i ≤ j) && (2 * m + 1).testBit (j - i)) :=
    fun j => Nat.testBit_two_pow_mul
  refine ⟨i, ?_, ?_⟩
  · rw [hbit, Nat.sub_self, Nat.testBit_zero]
    simp
  · intro j
    rw [hpred, Nat.testBit_two_pow_mul_add _ (Nat.sub_one_lt hpow.ne'), hbit]
    obtain hlt | rfl | hgt := Nat.lt_trichotomy j i
    · rw [decide_eq_false (Nat.not_le_of_lt hlt)]
      rfl
    · simp
    · obtain ⟨d, hd⟩ : ∃ d, j - i = d + 1 := ⟨j - i - 1, by omega⟩
      rw [if_neg (Nat.not_lt_of_gt hgt), hd, Nat.testBit_succ, Nat.testBit_succ]
      simp [hgt.ne', show (2 * m + 1) / 2 = m by omega]

theorem exists_ones_clear (ha : a ≠ 0) : ∃ i ∈ ones a, ones (a &&& (a - 1)) = (ones a).erase i := by
  have hne : a.toNat ≠ 0 := fun h => ha (BitVec.eq_of_toNat_eq h)
  have hw : 0 < w := by
    by_contra hw
    obtain rfl : w = 0 := by omega
    exact ha (BitVec.of_length_zero)
  have hpred : (a - 1).toNat = a.toNat - 1 := by
    have hone : (1 : BitVec w).toNat = 1 := BitVec.toNat_one hw
    rw [BitVec.toNat_sub_of_le, hone]
    rw [BitVec.le_def, hone]
    exact Nat.pos_of_ne_zero hne
  obtain ⟨i, hi, hbits⟩ := exists_lowest hne
  refine ⟨i, mem_ones.mpr hi, ?_⟩
  ext j
  have hj := hbits j
  rw [← hpred, BitVec.testBit_toNat, BitVec.testBit_toNat, ← BitVec.getLsbD_and] at hj
  rw [mem_ones, hj, Finset.mem_erase, mem_ones, Bool.and_eq_true, decide_eq_true_iff]
  exact and_comm

theorem card_ones_clear (ha : a ≠ 0) : (ones (a &&& (a - 1))).card + 1 = (ones a).card := by
  obtain ⟨i, hi, hclear⟩ := exists_ones_clear ha
  rw [hclear, Finset.card_erase_add_one hi]

theorem clear_eq_zero : a &&& (a - 1) = 0 ↔ (ones a).card ≤ 1 := by
  by_cases ha : a = 0
  · subst ha
    rw [ones_zero]
    exact iff_of_true BitVec.zero_and (Nat.zero_le 1)
  · rw [← card_ones_clear ha, ← ones_eq_empty, ← Finset.card_eq_zero]
    omega

theorem card_ones_eq_one : (ones a).card = 1 ↔ ∃ k < w, a.toNat = 2 ^ k := by
  constructor
  · intro h
    obtain ⟨k, hk⟩ := Finset.card_eq_one.mp h
    have hmem : k ∈ ones a := by rw [hk]; exact Finset.mem_singleton_self k
    refine ⟨k, BitVec.lt_of_getLsbD (mem_ones.mp hmem), ?_⟩
    apply Nat.eq_of_testBit_eq
    intro i
    rw [BitVec.testBit_toNat, Nat.testBit_two_pow, Bool.eq_iff_iff, ← mem_ones, hk, Finset.mem_singleton,
      decide_eq_true_iff, eq_comm]
  · intro h
    obtain ⟨k, -, hk⟩ := h
    rw [Finset.card_eq_one]
    refine ⟨k, ?_⟩
    ext i
    rw [mem_ones, ← BitVec.testBit_toNat, hk, Nat.testBit_two_pow, decide_eq_true_iff, Finset.mem_singleton, eq_comm]

theorem card_ones_ushiftRight (a : BitVec w) : (ones a).card = (a.getLsbD 0).toNat + (ones (a >>> 1)).card := by
  have hsucc : ∀ i, i + 1 ∈ ones a ↔ i ∈ ones (a >>> 1) := by
    intro i
    rw [mem_ones, mem_ones, BitVec.getLsbD_ushiftRight, Nat.add_comm]
  have hmap : ∀ i, i ∈ (ones (a >>> 1)).map ⟨Nat.succ, Nat.succ_injective⟩ ↔ i ≠ 0 ∧ i ∈ ones a := by
    intro i
    cases i with
    | zero => simp
    | succ i => simp [hsucc]
  have hrest : (ones (a >>> 1)).map ⟨Nat.succ, Nat.succ_injective⟩ = (ones a).erase 0 := by
    ext i
    rw [hmap, Finset.mem_erase]
  rw [← Finset.card_map (s := ones (a >>> 1)) ⟨Nat.succ, Nat.succ_injective⟩, hrest]
  cases hzero : a.getLsbD 0 with
  | false =>
    rw [Finset.erase_eq_of_notMem, Bool.toNat_false, Nat.zero_add]
    rw [mem_ones, hzero]
    exact Bool.false_ne_true
  | true => rw [Bool.toNat_true, Nat.add_comm, Finset.card_erase_add_one (mem_ones.mpr hzero)]

/-! ### Masks -/

theorem toNat_mask (hk : k < w) : ((1#w <<< k) - 1).toNat = 2 ^ k - 1 := by
  have hpow : (1#w <<< k).toNat = 2 ^ k := by rw [← BitVec.twoPow_eq, BitVec.toNat_twoPow_of_lt hk]
  have hone : (1 : BitVec w).toNat = 1 := BitVec.toNat_one (Nat.zero_lt_of_lt hk)
  rw [BitVec.toNat_sub_of_le, hpow, hone]
  rw [BitVec.le_def, hpow, hone]
  exact Nat.two_pow_pos k

theorem getLsbD_mask (hk : k < w) (p : ℕ) : ((1#w <<< k) - 1).getLsbD p = decide (p < k) := by
  rw [← BitVec.testBit_toNat, toNat_mask hk, Nat.testBit_two_pow_sub_one]

theorem eq_one_shiftLeft (hb : b.toNat = 2 ^ k) : k < w ∧ b = 1#w <<< k := by
  have hk : k < w := (Nat.pow_lt_pow_iff_right (by decide)).mp (hb ▸ b.isLt)
  refine ⟨hk, ?_⟩
  apply BitVec.eq_of_toNat_eq
  rw [hb, ← BitVec.twoPow_eq, BitVec.toNat_twoPow_of_lt hk]

theorem toNat_and_not_pred (hb : b.toNat = 2 ^ k) (x : BitVec w) :
    (x &&& ~~~(b - 1)).toNat = x.toNat / 2 ^ k * 2 ^ k := by
  obtain ⟨hk, rfl⟩ := eq_one_shiftLeft hb
  apply Nat.eq_of_testBit_eq
  intro p
  rw [BitVec.testBit_toNat, BitVec.getLsbD_and, BitVec.getLsbD_not, getLsbD_mask hk, Nat.testBit_mul_two_pow,
    Nat.testBit_div_two_pow]
  by_cases hp : k ≤ p
  · rw [Nat.sub_add_cancel hp, decide_eq_true hp, decide_eq_false (Nat.not_lt.mpr hp), BitVec.testBit_toNat]
    cases hbit : x.getLsbD p with
    | false => rfl
    | true => simp [BitVec.lt_of_getLsbD hbit]
  · simp [hp, Nat.lt_of_not_le hp]

theorem toNat_and_pred (hb : b.toNat = 2 ^ k) (x : BitVec w) : (x &&& (b - 1)).toNat = x.toNat % 2 ^ k := by
  obtain ⟨hk, rfl⟩ := eq_one_shiftLeft hb
  rw [BitVec.toNat_and, toNat_mask hk, Nat.and_two_pow_sub_one_eq_mod]

theorem isLeast_roundUp (p : ℕ) {b : ℕ} (hb : 0 < b) : IsLeast {m | b ∣ m ∧ p ≤ m} ((p + b - 1) / b * b) := by
  have hdiv := Nat.div_add_mod (p + b - 1) b
  have hmod := Nat.mod_lt (p + b - 1) hb
  rw [Nat.mul_comm] at hdiv
  refine ⟨⟨Nat.dvd_mul_left _ _, by omega⟩, ?_⟩
  intro m hm
  obtain ⟨⟨c, rfl⟩, hle⟩ := hm
  rw [Nat.mul_comm b c]
  apply Nat.mul_le_mul_right
  apply Nat.le_of_lt_succ
  apply Nat.div_lt_of_lt_mul
  rw [Nat.mul_succ]
  omega

theorem div_mul_lt_iff {b : ℕ} (hb : 0 < b) (n : ℕ) : n / b * b < b ↔ n < b := by
  constructor
  · intro h
    by_contra hle
    have hdiv := Nat.div_pos (Nat.not_lt.mp hle) hb
    exact absurd (Nat.le_mul_of_pos_left b hdiv) (Nat.not_le.mpr h)
  · intro h
    rwa [Nat.div_eq_of_lt h, Nat.zero_mul]

/-! ### Functions that move bits -/

/-- Bit `i` of the result is bit `π i` of the argument. -/
structure Moves (f : BitVec w → BitVec w) (π : ℕ → ℕ) : Prop where
  lt : ∀ i < w, π i < w
  bit : ∀ a, ∀ i < w, (f a).getLsbD i = a.getLsbD (π i)

variable {f g : BitVec w → BitVec w} {π ρ : ℕ → ℕ}

namespace Moves

theorem comp (hf : Moves f π) (hg : Moves g ρ) : Moves (fun a => f (g a)) (fun i => ρ (π i)) where
  lt i hi := hg.lt _ (hf.lt i hi)
  bit a i hi := by rw [hf.bit _ i hi, hg.bit a _ (hf.lt i hi)]

theorem eq (hf : Moves f π) (hg : Moves g ρ) (h : ∀ i < w, π i = ρ i) (a : BitVec w) : f a = g a := by
  apply BitVec.eq_of_getLsbD_eq
  intro i hi
  rw [hf.bit a i hi, hg.bit a i hi, h i hi]

theorem id_ : Moves (fun a : BitVec w => a) (fun i => i) where
  lt _ hi := hi
  bit _ _ _ := rfl

theorem cancel (hf : Moves f π) (hg : Moves g ρ) (h : ∀ i < w, ρ (π i) = i) (a : BitVec w) : f (g a) = a :=
  (hf.comp hg).eq id_ h a

end Moves

end CodingForFun.Lib
