import CodingForFun.Lib.Rearrangement

/-!
# Merging two sorted parts of an array

`Merged a l m r b i j` says that `b` from `l` on is the merge of what has been taken of the two parts of
`a`, the one from `l` up to `m` and the one from `m` up to `r`: of the first what is before `i`, of the
second what is before `j`. A smallest one of the values that are left is taken next (`Merged.takeLeft`,
`Merged.takeRight`).
-/

namespace CodingForFun.Lib

variable {α : Type} [LinearOrder α] {a b : ℤ → α} {l m r i j : ℤ}

structure Merged (a : ℤ → α) (l m r : ℤ) (b : ℤ → α) (i j : ℤ) : Prop where
  range : l ≤ i ∧ i ≤ m ∧ m ≤ j ∧ j ≤ r
  values : values b l (i + j - m) = values a l i + values a m j
  sorted : MonotoneOn b (Set.Ico l (i + j - m))
  left : ∀ p q, l ≤ p → p < i + j - m → i ≤ q → q < m → b p ≤ a q
  right : ∀ p q, l ≤ p → p < i + j - m → j ≤ q → q < r → b p ≤ a q

namespace Merged

theorem start (a b : ℤ → α) (hlm : l ≤ m) (hmr : m ≤ r) : Merged a l m r b l m := by
  have hempty : l + m - m ≤ l := by omega
  refine ⟨by omega, ?_, monotoneOn_of_le b (by omega), fun p q _ _ => by omega, fun p q _ _ => by omega⟩
  rw [values_of_le b hempty, values_of_le a le_rfl, values_of_le a le_rfl, add_zero]

theorem takeLeft (h : Merged a l m r b i j) (ha : MonotoneOn a (Set.Ico l m))
    (ha' : MonotoneOn a (Set.Ico m r)) (hi : i < m) (hle : j < r → a i ≤ a j) :
    Merged a l m r (Function.update b (i + j - m) (a i)) (i + 1) j := by
  obtain ⟨hli, -, hmj, hjr⟩ := h.range
  have hpos : i + 1 + j - m = i + j - m + 1 := by omega
  constructor
  · omega
  · rw [hpos, values_update_last b (by omega), h.values, values_succ a hli, Multiset.cons_add]
  · rw [hpos]
    exact monotoneOn_update_last h.sorted fun p hp hpi => h.left p i hp hpi le_rfl hi
  · intro p q hp hpi hq hqm
    rcases (show p ≤ i + j - m by omega).eq_or_lt with rfl | hlt
    · rw [Function.update_self]
      exact monotoneOn_Ico_iff.mp ha i q hli (by omega) hqm
    · rw [Function.update_of_ne hlt.ne]
      exact h.left p q hp hlt (by omega) hqm
  · intro p q hp hpi hq hqr
    rcases (show p ≤ i + j - m by omega).eq_or_lt with rfl | hlt
    · rw [Function.update_self]
      exact (hle (by omega)).trans (monotoneOn_Ico_iff.mp ha' j q hmj hq hqr)
    · rw [Function.update_of_ne hlt.ne]
      exact h.right p q hp hlt hq hqr

theorem takeRight (h : Merged a l m r b i j) (ha : MonotoneOn a (Set.Ico l m))
    (ha' : MonotoneOn a (Set.Ico m r)) (hj : j < r) (hle : i < m → a j ≤ a i) :
    Merged a l m r (Function.update b (i + j - m) (a j)) i (j + 1) := by
  obtain ⟨hli, him, hmj, -⟩ := h.range
  have hpos : i + (j + 1) - m = i + j - m + 1 := by omega
  constructor
  · omega
  · rw [hpos, values_update_last b (by omega), h.values, values_succ a hmj, Multiset.add_cons]
  · rw [hpos]
    exact monotoneOn_update_last h.sorted fun p hp hpi => h.right p j hp hpi le_rfl hj
  · intro p q hp hpi hq hqm
    rcases (show p ≤ i + j - m by omega).eq_or_lt with rfl | hlt
    · rw [Function.update_self]
      exact (hle (by omega)).trans (monotoneOn_Ico_iff.mp ha i q hli hq hqm)
    · rw [Function.update_of_ne hlt.ne]
      exact h.left p q hp hlt hq hqm
  · intro p q hp hpi hq hqr
    rcases (show p ≤ i + j - m by omega).eq_or_lt with rfl | hlt
    · rw [Function.update_self]
      exact monotoneOn_Ico_iff.mp ha' j q hmj (by omega) hqr
    · rw [Function.update_of_ne hlt.ne]
      exact h.right p q hp hlt (by omega) hqr

theorem finish (h : Merged a l m r b m r) :
    Lib.values b l r = Lib.values a l r ∧ MonotoneOn b (Set.Ico l r) := by
  obtain ⟨hlm, -, hmr, -⟩ := h.range
  have hvalues := h.values
  have hsorted := h.sorted
  rw [add_sub_cancel_left] at hvalues hsorted
  exact ⟨hvalues.trans (values_add a hlm hmr), hsorted⟩

end Merged

end CodingForFun.Lib
