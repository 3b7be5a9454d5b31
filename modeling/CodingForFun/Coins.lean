import CodingForFun.Lib.Loop
import Mathlib.Data.Finset.Insert
import Mathlib.Data.Int.Range
import Mathlib.Tactic.Linarith

/-!
# `coinssum`

The function of `src/careercup/coins.py`. Before the round of `s` the set holds the sums below `s`, and `s` is a
sum when it is one with a coin less. The range ends before 1000, which the comment of the file lists among the
sums.
-/

namespace CodingForFun.Coins

open Lib

/-- The body of the loop, with `sums` and the lines that have been printed. -/
def coinssumStep (c1 c2 c3 : ℤ) (x : Finset ℤ × List ℤ) (s : ℤ) : Finset ℤ × List ℤ :=
  let (sums, out) := x
  if s - c1 ∈ sums ∨ s - c2 ∈ sums ∨ s - c3 ∈ sums then (insert s sums, out ++ [s]) else (sums, out)

/-- What `coinssum` prints. -/
def coinssum (c1 c2 c3 : ℤ) : List ℤ := ((Int.range 1 1000).foldl (coinssumStep c1 c2 c3) ({0}, [])).2

/-- `s` can be paid with the coins. -/
def IsSum (c1 c2 c3 s : ℤ) : Prop := ∃ x y z : ℕ, s = x * c1 + y * c2 + z * c3

/-- In order, every sum up to 1000. -/
structure PrintsSums (c1 c2 c3 : ℤ) : Prop where
  increasing : (coinssum c1 c2 c3).Pairwise (· < ·)
  complete : ∀ s, s ∈ coinssum c1 c2 c3 ↔ (1 ≤ s ∧ s ≤ 1000) ∧ IsSum c1 c2 c3 s

variable {c1 c2 c3 s n : ℤ}

theorem isSum_zero (c1 c2 c3 : ℤ) : IsSum c1 c2 c3 0 := ⟨0, 0, 0, by simp⟩

theorem IsSum.nonneg (h : IsSum c1 c2 c3 s) (h1 : 0 < c1) (h2 : 0 < c2) (h3 : 0 < c3) : 0 ≤ s := by
  obtain ⟨x, y, z, rfl⟩ := h
  have hx := Int.mul_nonneg (Int.natCast_nonneg x) h1.le
  have hy := Int.mul_nonneg (Int.natCast_nonneg y) h2.le
  have hz := Int.mul_nonneg (Int.natCast_nonneg z) h3.le
  omega

theorem isSum_iff (hs : 0 < s) :
    IsSum c1 c2 c3 s ↔ IsSum c1 c2 c3 (s - c1) ∨ IsSum c1 c2 c3 (s - c2) ∨ IsSum c1 c2 c3 (s - c3) := by
  constructor
  · intro h
    obtain ⟨x, y, z, rfl⟩ := h
    cases x with
    | succ x => exact .inl ⟨x, y, z, by push_cast; linarith⟩
    | zero => cases y with
      | succ y => exact .inr (.inl ⟨0, y, z, by push_cast; linarith⟩)
      | zero => cases z with
        | succ z => exact .inr (.inr ⟨0, 0, z, by push_cast; linarith⟩)
        | zero => simp at hs
  · rintro (⟨x, y, z, h⟩ | ⟨x, y, z, h⟩ | ⟨x, y, z, h⟩)
    · exact ⟨x + 1, y, z, by push_cast; linarith⟩
    · exact ⟨x, y + 1, z, by push_cast; linarith⟩
    · exact ⟨x, y, z + 1, by push_cast; linarith⟩

/-- Before the round of `n`. -/
structure Summing (c1 c2 c3 n : ℤ) (x : Finset ℤ × List ℤ) : Prop where
  sums : ∀ s, s ∈ x.1 ↔ (0 ≤ s ∧ s < n) ∧ IsSum c1 c2 c3 s
  increasing : x.2.Pairwise (· < ·)
  printed : ∀ s, s ∈ x.2 ↔ (1 ≤ s ∧ s < n) ∧ IsSum c1 c2 c3 s

theorem Summing.init (c1 c2 c3 : ℤ) : Summing c1 c2 c3 1 ({0}, []) := by
  refine ⟨fun s => ?_, List.Pairwise.nil, fun s => ?_⟩
  · rw [Finset.mem_singleton]
    constructor
    · intro hs
      rw [hs]
      exact ⟨⟨le_rfl, Int.one_pos⟩, isSum_zero c1 c2 c3⟩
    · intro hs
      omega
  · simp only [List.not_mem_nil, false_iff]
    omega

theorem upTo_succ_iff {lo : ℤ} (hn : lo ≤ n) : (lo ≤ s ∧ s < n + 1) ∧ IsSum c1 c2 c3 s ↔
    (lo ≤ s ∧ s < n) ∧ IsSum c1 c2 c3 s ∨ s = n ∧ IsSum c1 c2 c3 n := by
  by_cases hs : s = n
  · rw [hs]
    simp only [lt_irrefl, and_false, false_and, false_or, true_and, and_iff_right_iff_imp]
    omega
  · simp only [hs, false_and, or_false, and_congr_left_iff]
    omega

section

variable {x : Finset ℤ × List ℤ} (h1 : 0 < c1) (h2 : 0 < c2) (h3 : 0 < c3)
include h1 h2 h3

theorem Summing.test_iff (h : Summing c1 c2 c3 n x) (hn : 0 < n) :
    (n - c1 ∈ x.1 ∨ n - c2 ∈ x.1 ∨ n - c3 ∈ x.1) ↔ IsSum c1 c2 c3 n := by
  have hmem : ∀ c, 0 < c → (n - c ∈ x.1 ↔ IsSum c1 c2 c3 (n - c)) := by
    intro c hc
    rw [h.sums]
    constructor
    · intro hs
      exact hs.2
    · intro hs
      have hnonneg := hs.nonneg h1 h2 h3
      exact ⟨⟨hnonneg, by omega⟩, hs⟩
  rw [hmem c1 h1, hmem c2 h2, hmem c3 h3, ← isSum_iff hn]

theorem Summing.step (h : Summing c1 c2 c3 n x) (hn : 0 < n) :
    Summing c1 c2 c3 (n + 1) (coinssumStep c1 c2 c3 x n) := by
  have htest := h.test_iff h1 h2 h3 hn
  have hone : 1 ≤ n := hn
  by_cases hsum : IsSum c1 c2 c3 n
  · rw [coinssumStep, if_pos (htest.mpr hsum)]
    refine ⟨fun s => ?_, ?_, fun s => ?_⟩
    · rw [Finset.mem_insert, h.sums, upTo_succ_iff hn.le, or_comm, and_iff_left hsum]
    · rw [List.pairwise_append]
      refine ⟨h.increasing, List.pairwise_singleton _ _, fun s hs t ht => ?_⟩
      rw [List.mem_singleton.mp ht]
      exact ((h.printed s).mp hs).1.2
    · rw [List.mem_append, List.mem_singleton, h.printed, upTo_succ_iff hone, and_iff_left hsum]
  · rw [coinssumStep, if_neg fun hmem => hsum (htest.mp hmem)]
    refine ⟨fun s => ?_, h.increasing, fun s => ?_⟩
    · rw [h.sums, upTo_succ_iff hn.le, or_iff_left fun hs => hsum hs.2]
    · rw [h.printed, upTo_succ_iff hone, or_iff_left fun hs => hsum hs.2]

theorem summing_range (k : ℕ) :
    Summing c1 c2 c3 (1 + k) ((Int.range 1 (1 + k)).foldl (coinssumStep c1 c2 c3) ({0}, [])) := by
  induction k with
  | zero => exact .init c1 c2 c3
  | succ k ih =>
    have hrange : Int.range 1 (1 + (k + 1 : ℕ)) = Int.range 1 (1 + k) ++ [1 + (k : ℤ)] := by
      rw [Int.range, Int.range, show (1 + ((k + 1 : ℕ) : ℤ) - 1).toNat = k + 1 by omega,
        show (1 + (k : ℤ) - 1).toNat = k by omega, List.range_succ, List.map_append, List.map_singleton]
    rw [hrange, List.foldl_append, Int.natCast_succ, ← Int.add_assoc]
    exact ih.step h1 h2 h3 (by omega)

theorem mem_coinssum : s ∈ coinssum c1 c2 c3 ↔ (1 ≤ s ∧ s < 1000) ∧ IsSum c1 c2 c3 s :=
  (summing_range h1 h2 h3 999).printed s

/-- `coinssum` prints what it should if and only if 1000 is not a sum. -/
theorem printsSums_iff : PrintsSums c1 c2 c3 ↔ ¬IsSum c1 c2 c3 1000 := by
  constructor
  · intro h hsum
    have hprinted := (h.complete 1000).mpr ⟨by decide, hsum⟩
    have hlt := ((mem_coinssum h1 h2 h3).mp hprinted).1.2
    exact absurd hlt (lt_irrefl 1000)
  · intro h
    refine ⟨(summing_range h1 h2 h3 999).increasing, fun s => ?_⟩
    have hlast : (1 ≤ s ∧ s < 1000 + 1) ∧ IsSum c1 c2 c3 s ↔ _ := upTo_succ_iff (by decide)
    rw [or_iff_left fun hs => h hs.2] at hlast
    rw [mem_coinssum h1 h2 h3, ← hlast, Int.lt_add_one_iff]

end

theorem printsSums_iff_multiples : PrintsSums 3 6 9 ↔ ¬IsSum 3 6 9 1000 :=
  printsSums_iff (by decide) (by decide) (by decide)

/-- The example of the file: 1000 is a hundred times the coin 10. -/
theorem not_printsSums : ¬PrintsSums 10 15 55 := by
  intro h
  have hprinted := (h.complete 1000).mpr ⟨by decide, 100, 0, 0, by decide⟩
  have hlt := ((mem_coinssum (by decide) (by decide) (by decide)).mp hprinted).1.2
  exact absurd hlt (lt_irrefl 1000)

end CodingForFun.Coins
