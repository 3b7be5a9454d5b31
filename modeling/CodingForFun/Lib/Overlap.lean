import Mathlib.Algebra.Order.Field.Basic
import Mathlib.Order.Interval.Set.LinearOrder
import Mathlib.Tactic.Linarith

/-!
# Overlapping intervals, and the index of Jaccard

How much of two intervals is common to both (`overlap`), and what is common to two things in proportion to what
they cover together (`jaccard`), for things of which only the sizes are known.
-/

namespace CodingForFun.Lib

section overlap

variable {α : Type} [AddCommGroup α] [LinearOrder α] {a b c d : α}

/-- The length of what the intervals from `a` to `b` and from `c` to `d` have in common. -/
def overlap (a b c d : α) : α := max 0 (min b d - max a c)

theorem overlap_comm (a b c d : α) : overlap a b c d = overlap c d a b := by
  rw [overlap, overlap, min_comm b d, max_comm a c]

theorem overlap_nonneg (a b c d : α) : 0 ≤ overlap a b c d := le_max_left _ _

variable [IsOrderedAddMonoid α]

theorem overlap_le_left (c d : α) (h : a ≤ b) : overlap a b c d ≤ b - a :=
  max_le (sub_nonneg.mpr h) (sub_le_sub (min_le_left b d) (le_max_left a c))

theorem overlap_self (h : a ≤ b) : overlap a b a b = b - a := by
  rw [overlap, min_self, max_self, max_eq_right (sub_nonneg.mpr h)]

theorem overlap_pos_iff [DenselyOrdered α] :
    0 < overlap a b c d ↔ (Set.Ioo a b ∩ Set.Ioo c d).Nonempty := by
  rw [Set.Ioo_inter_Ioo, Set.nonempty_Ioo, overlap, lt_max_iff, sub_pos]
  exact or_iff_right (lt_irrefl 0)

theorem within_of_overlap_eq (h : a < b) (heq : overlap a b c d = b - a) : c ≤ a ∧ b ≤ d := by
  have hpos : 0 < b - a := sub_pos.mpr h
  have hmax : min b d - max a c = b - a := by
    rcases max_choice 0 (min b d - max a c) with hzero | hlen
    · rw [overlap, hzero] at heq
      exact absurd heq hpos.ne
    · rw [← hlen]
      exact heq
  have hstart : a ≤ max a c := le_max_left a c
  have hstop : min b d ≤ b := min_le_left b d
  constructor
  · refine (le_max_right a c).trans (le_of_not_gt fun hlt => ?_)
    exact ((sub_lt_sub_left hlt _).trans_le (sub_le_sub_right hstop a)).ne hmax
  · refine le_trans (le_of_not_gt fun hlt => ?_) (min_le_right b d)
    exact ((sub_lt_sub_right hlt _).trans_le (sub_le_sub_left hstart b)).ne hmax

end overlap

section jaccard

variable {K : Type} [Field K] {common first second : K}

/-- What is common to two things, in proportion to what they cover together. -/
def jaccard (common first second : K) : K := common / (first + second - common)

theorem jaccard_comm (common first second : K) :
    jaccard common first second = jaccard common second first := by
  rw [jaccard, jaccard, add_comm first second]

variable [LinearOrder K] [IsStrictOrderedRing K]

theorem union_pos (hfirst : 0 < first) (hsecond : common ≤ second) : 0 < first + second - common := by
  rw [add_sub_assoc]
  exact add_pos_of_pos_of_nonneg hfirst (sub_nonneg.mpr hsecond)

theorem jaccard_nonneg (hcommon : 0 ≤ common) (hfirst : 0 < first) (hsecond : common ≤ second) :
    0 ≤ jaccard common first second := div_nonneg hcommon (union_pos hfirst hsecond).le

theorem jaccard_eq_zero_iff (hfirst : 0 < first) (hsecond : common ≤ second) :
    jaccard common first second = 0 ↔ common = 0 := by
  rw [jaccard, div_eq_zero_iff, or_iff_left (union_pos hfirst hsecond).ne']

theorem jaccard_le_one (hpos : 0 < first) (hfirst : common ≤ first) (hsecond : common ≤ second) :
    jaccard common first second ≤ 1 := by
  rw [jaccard, div_le_one (union_pos hpos hsecond)]
  linarith

theorem jaccard_eq_one_iff (hpos : 0 < first) (hfirst : common ≤ first) (hsecond : common ≤ second) :
    jaccard common first second = 1 ↔ common = first ∧ common = second := by
  rw [jaccard, div_eq_one_iff_eq (union_pos hpos hsecond).ne']
  constructor
  · intro h
    exact ⟨by linarith, by linarith⟩
  · intro h
    obtain ⟨rfl, rfl⟩ := h
    rw [add_sub_cancel_right]

end jaccard

end CodingForFun.Lib
