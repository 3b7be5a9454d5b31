import CodingForFun.Lib.Sequence
import Mathlib.Data.Char
import Mathlib.Data.List.Infix

/-!
# `largestpalindrome`

The function of `src/careercup/liststringproblems.py`. A part `seq[i:j]` is compared with
`seq[j-1:i-1:-1]`, which is empty for `i = 0`, and `j` stays below the length. So the parts that count are
those without the first and the last element, and of these a longest palindrome is returned.
-/

namespace CodingForFun.Liststringproblems

open Lib Lib.Sequence

variable {α : Type}

/-- The body of the inner loop, with `largestsize` and `largestpalindrome`. -/
def largestpalindromeStep [DecidableEq α] (seq : List α) (i : ℕ) (best : ℤ × List α) (j : ℕ) :
    ℤ × List α :=
  if slice seq i j = sliceBack seq (j - 1) (i - 1) ∧ (j : ℤ) - i > best.1 then (j - i, slice seq i j)
  else best

def largestpalindrome [DecidableEq α] (seq : List α) : List α :=
  ((List.range seq.length).foldl
    (fun best i => (List.range' i (seq.length - i)).foldl (largestpalindromeStep seq i) best) (0, [])).2

variable {seq p : List α} {best : ℤ × List α} {i j : ℕ}

theorem take_drop_inner (hj : j + 1 < seq.length) :
    (seq.take (j + 1)).drop (i + 1) = (seq.tail.dropLast.take j).drop i := by
  cases seq with
  | nil => simp at hj
  | cons x seq =>
    rw [List.length_cons] at hj
    rw [List.take_succ_cons, List.drop_succ_cons, List.tail_cons, List.dropLast_eq_take, List.take_take,
      Nat.min_eq_left (by omega)]

theorem take_drop_isInfix (l : List α) (i j : ℕ) : (l.take j).drop i <:+: l :=
  ((l.take j).drop_suffix i).isInfix.trans (l.take_prefix j).isInfix

/-- What has been found when the parts `seen` have been looked at. -/
structure Largest (seq : List α) (seen : List (ℕ × ℕ)) (best : ℤ × List α) : Prop where
  size : best.1 = best.2.length
  inside : best.2 <:+: seq.tail.dropLast
  palindrome : best.2.reverse = best.2
  longest : ∀ i j, (i + 1, j + 1) ∈ seen → ∀ p, p = (seq.tail.dropLast.take j).drop i → p.reverse = p →
    p.length ≤ best.2.length

theorem length_take_drop (hj : j ≤ seq.length) : ((seq.take j).drop i).length = j - i := by
  rw [List.length_drop, List.length_take_of_le hj]

theorem test_succ (hij : i ≤ j) (hj : j + 1 < seq.length) :
    slice seq (i + 1 : ℕ) (j + 1 : ℕ) = sliceBack seq ((j + 1 : ℕ) - 1) ((i + 1 : ℕ) - 1) ↔
      ((seq.tail.dropLast.take j).drop i).reverse = (seq.tail.dropLast.take j).drop i := by
  rw [sliceBack_nat (Nat.zero_lt_succ i) (Nat.succ_le_succ hij) hj.le, slice_nat, take_drop_inner hj]
  exact eq_comm

theorem test_zero (hpos : 0 < j) (hj : j < seq.length) :
    slice seq (0 : ℕ) j ≠ sliceBack seq (j - 1) ((0 : ℕ) - 1) := by
  rw [Int.natCast_zero, Int.zero_sub, sliceBack_first hpos hj.le]
  intro h
  have hlen := congrArg List.length h
  rw [← Int.natCast_zero, slice_nat, length_take_drop hj.le, List.length_nil] at hlen
  omega

theorem Largest.step [DecidableEq α] {seen : List (ℕ × ℕ)} (h : Largest seq seen best) (hij : i ≤ j)
    (hj : j < seq.length) : Largest seq (seen ++ [(i, j)]) (largestpalindromeStep seq i best j) := by
  have hsize := h.size
  rw [largestpalindromeStep]
  by_cases htest : slice seq i j = sliceBack seq (j - 1) (i - 1) ∧ (j : ℤ) - i > best.1
  · obtain ⟨hsame, hgt⟩ := htest
    have hlt : i < j := by omega
    rw [if_pos ⟨hsame, hgt⟩]
    rcases Nat.eq_zero_or_pos i with rfl | hpos
    · exact absurd hsame (test_zero hlt hj)
    obtain ⟨i, rfl⟩ := Nat.exists_eq_succ_of_ne_zero hpos.ne'
    obtain ⟨j, rfl⟩ := Nat.exists_eq_succ_of_ne_zero (Nat.zero_lt_of_lt hlt).ne'
    have hlen : ((seq.tail.dropLast.take j).drop i).length = j - i := by
      rw [← take_drop_inner hj, length_take_drop hj.le]
      omega
    have hpalindrome := (test_succ (Nat.le_of_succ_le_succ hij) hj).mp hsame
    rw [slice_nat, take_drop_inner hj]
    refine ⟨by simp only; omega, take_drop_isInfix _ i j, hpalindrome, fun i' j' hmem p hp hrev => ?_⟩
    rcases List.mem_append.mp hmem with hseen | hnew
    · have hle := h.longest i' j' hseen p hp hrev
      simp only
      omega
    · obtain ⟨rfl, rfl⟩ : i' = i ∧ j' = j := by simpa using hnew
      exact hp ▸ le_rfl
  · rw [if_neg htest]
    refine ⟨h.size, h.inside, h.palindrome, fun i' j' hmem p hp hrev => ?_⟩
    rcases List.mem_append.mp hmem with hseen | hnew
    · exact h.longest i' j' hseen p hp hrev
    · obtain ⟨rfl, rfl⟩ : i' + 1 = i ∧ j' + 1 = j := by simpa using hnew
      have hsame := (test_succ (Nat.le_of_succ_le_succ hij) hj).mpr (hp ▸ hrev)
      have hle : ¬((j' + 1 : ℕ) : ℤ) - (i' + 1 : ℕ) > best.1 := fun hgt => htest ⟨hsame, hgt⟩
      rw [hp, ← take_drop_inner hj, length_take_drop hj.le]
      omega

/-- The numbers of the two loops. -/
def indexPairs (n : ℕ) : List (ℕ × ℕ) :=
  (List.range n).flatMap fun i => (List.range' i (n - i)).map (Prod.mk i)

theorem mem_indexPairs {n : ℕ} : (i, j) ∈ indexPairs n ↔ i ≤ j ∧ j < n := by
  simp only [indexPairs, List.mem_flatMap, List.mem_range, List.mem_map, List.mem_range'_1, Prod.mk.injEq]
  constructor
  · intro h
    obtain ⟨i', hi', j', hj', rfl, rfl⟩ := h
    omega
  · intro h
    obtain ⟨hij, hj⟩ := h
    exact ⟨i, by omega, j, by omega, rfl, rfl⟩

theorem largestpalindrome_largest [DecidableEq α] (seq : List α) :
    ∃ size, Largest seq (indexPairs seq.length) (size, largestpalindrome seq) := by
  have hloop : Largest seq (indexPairs seq.length) ((indexPairs seq.length).foldl
      (fun best x => largestpalindromeStep seq x.1 best x.2) (0, [])) := by
    refine foldl_ok (Largest seq) (indexPairs seq.length) ?_ ?_
    · exact ⟨rfl, List.nil_infix, rfl, fun _ _ hmem => absurd hmem (List.not_mem_nil)⟩
    · rintro done ⟨i, j⟩ rest best hl hbest
      have hmem : (i, j) ∈ indexPairs seq.length := by
        rw [← hl]
        exact List.mem_append_right _ List.mem_cons_self
      obtain ⟨hij, hj⟩ := mem_indexPairs.mp hmem
      exact hbest.step hij hj
  rw [indexPairs, List.foldl_flatMap] at hloop
  simp only [List.foldl_map] at hloop
  exact ⟨_, hloop⟩

theorem largestpalindrome_inner [DecidableEq α] (seq : List α) :
    largestpalindrome seq <:+: seq.tail.dropLast ∧
      (largestpalindrome seq).reverse = largestpalindrome seq ∧
      ∀ p, p <:+: seq.tail.dropLast → p.reverse = p → p.length ≤ (largestpalindrome seq).length := by
  obtain ⟨size, h⟩ := largestpalindrome_largest seq
  refine ⟨h.inside, h.palindrome, fun p ⟨front, back, hp⟩ hrev => ?_⟩
  by_cases hnil : p = []
  · rw [hnil]
    exact Nat.zero_le _
  have hpos := List.length_pos_of_ne_nil hnil
  have hlen := congrArg List.length hp
  rw [List.length_append, List.length_append, List.length_dropLast, List.length_tail] at hlen
  have hpart : p = (seq.tail.dropLast.take (front.length + p.length)).drop front.length := by
    rw [← hp, ← List.length_append, List.take_left, List.drop_left]
  exact h.longest _ _ (mem_indexPairs.mpr ⟨by omega, by omega⟩) p hpart hrev

/-- `largestpalindrome` returns a longest palindrome of the sequence exactly when one of them is found without
the first and the last element. -/
theorem largestpalindrome_iff [DecidableEq α] (seq : List α) :
    (largestpalindrome seq <:+: seq ∧ (largestpalindrome seq).reverse = largestpalindrome seq ∧
      ∀ p, p <:+: seq → p.reverse = p → p.length ≤ (largestpalindrome seq).length) ↔
      ∃ p, p <:+: seq.tail.dropLast ∧ p.reverse = p ∧
        ∀ q, q <:+: seq → q.reverse = q → q.length ≤ p.length := by
  obtain ⟨hinside, hrev, hlongest⟩ := largestpalindrome_inner seq
  constructor
  · intro h
    obtain ⟨-, -, hall⟩ := h
    exact ⟨_, hinside, hrev, hall⟩
  · intro h
    obtain ⟨p, hp, hprev, hall⟩ := h
    have hsub : largestpalindrome seq <:+: seq :=
      hinside.trans ((List.dropLast_prefix _).isInfix.trans (List.tail_suffix seq).isInfix)
    exact ⟨hsub, hrev, fun q hq hqrev => (hall q hq hqrev).trans (hlongest p hp hprev)⟩

/-- The only palindrome in `"a"` that is not empty has an end of the string in it. -/
theorem largestpalindrome_misses :
    ¬(largestpalindrome ['a'] <:+: ['a'] ∧ (largestpalindrome ['a']).reverse = largestpalindrome ['a'] ∧
      ∀ p, p <:+: ['a'] → p.reverse = p → p.length ≤ (largestpalindrome ['a']).length) := by
  intro h
  obtain ⟨-, -, hall⟩ := h
  have hnil : largestpalindrome ['a'] = [] := rfl
  have hle := hall ['a'] (List.infix_refl _) rfl
  rw [hnil] at hle
  exact absurd hle (by decide)

end CodingForFun.Liststringproblems
