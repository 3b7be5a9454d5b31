import CodingForFun.Lib.Overlap
import Mathlib.Order.CompletePartialOrder
import Mathlib.Topology.Constructions.SumProd
import Mathlib.Topology.MetricSpace.Pseudo.Lemmas
import Mathlib.Topology.Order.DenselyOrdered

/-!
# `iou`

The function `iou` of `src/coursera/cnn/cnn_yolo.py`, on exact numbers. The width and the height of the
intersection are overlaps of intervals, so the result is the index of Jaccard of the two areas. A proper box
has an area, which the intersection does not exceed; it is as large only within the other box.
-/

namespace CodingForFun.CnnYolo

open Lib

/-- Two opposite corners. -/
structure Box where
  x1 : ℚ
  y1 : ℚ
  x2 : ℚ
  y2 : ℚ
  deriving DecidableEq, Repr

/-- `none` is a division by zero. -/
def iou (box1 box2 : Box) : Option ℚ :=
  let xi1 := max box1.x1 box2.x1
  let yi1 := max box1.y1 box2.y1
  let xi2 := min box1.x2 box2.x2
  let yi2 := min box1.y2 box2.y2
  let interWidth := max 0 (xi2 - xi1)
  let interHeight := max 0 (yi2 - yi1)
  let interArea := interWidth * interHeight
  let box1Area := (box1.x2 - box1.x1) * (box1.y2 - box1.y1)
  let box2Area := (box2.x2 - box2.x1) * (box2.y2 - box2.y1)
  let unionArea := box1Area + box2Area - interArea
  if unionArea = 0 then none else some (interArea / unionArea)

namespace Box

/-- The corners are in order. -/
structure Proper (box : Box) : Prop where
  width : box.x1 < box.x2
  height : box.y1 < box.y2

/-- The points of the box, its edges included. -/
def region (box : Box) : Set (ℝ × ℝ) :=
  Set.Icc (box.x1 : ℝ) box.x2 ×ˢ Set.Icc (box.y1 : ℝ) box.y2

def area (box : Box) : ℚ := (box.x2 - box.x1) * (box.y2 - box.y1)

/-- The area of the intersection. -/
def interArea (box1 box2 : Box) : ℚ :=
  overlap box1.x1 box1.x2 box2.x1 box2.x2 * overlap box1.y1 box1.y2 box2.y1 box2.y2

variable {box1 box2 : Box}

theorem Proper.area_pos (h : box1.Proper) : 0 < box1.area :=
  mul_pos (sub_pos.mpr h.width) (sub_pos.mpr h.height)

theorem interArea_comm (box1 box2 : Box) : interArea box1 box2 = interArea box2 box1 := by
  rw [interArea, interArea, overlap_comm box1.x1, overlap_comm box1.y1]

theorem interArea_nonneg (box1 box2 : Box) : 0 ≤ interArea box1 box2 :=
  mul_nonneg (overlap_nonneg _ _ _ _) (overlap_nonneg _ _ _ _)

theorem Proper.interArea_le (h : box1.Proper) (box2 : Box) : interArea box1 box2 ≤ box1.area :=
  mul_le_mul (overlap_le_left _ _ h.width.le) (overlap_le_left _ _ h.height.le)
    (overlap_nonneg _ _ _ _) (sub_nonneg.mpr h.width.le)

theorem Proper.within_of_interArea_eq (h : box1.Proper) (heq : interArea box1 box2 = box1.area) :
    (box2.x1 ≤ box1.x1 ∧ box1.x2 ≤ box2.x2) ∧ box2.y1 ≤ box1.y1 ∧ box1.y2 ≤ box2.y2 := by
  have hinter : 0 < interArea box1 box2 := by
    rw [heq]
    exact h.area_pos
  have hwidth := pos_of_mul_pos_left hinter (overlap_nonneg _ _ _ _)
  have hsides := (mul_eq_mul_iff_eq_and_eq_of_pos (overlap_le_left _ _ h.width.le)
    (overlap_le_left _ _ h.height.le) hwidth (sub_pos.mpr h.height)).mp heq
  exact ⟨within_of_overlap_eq h.width hsides.1, within_of_overlap_eq h.height hsides.2⟩

theorem interArea_self (h : box1.Proper) : interArea box1 box1 = box1.area := by
  rw [interArea, overlap_self h.width.le, overlap_self h.height.le, area]

theorem interArea_eq_areas_iff (h1 : box1.Proper) (h2 : box2.Proper) :
    interArea box1 box2 = box1.area ∧ interArea box1 box2 = box2.area ↔ box1 = box2 := by
  constructor
  · intro h
    obtain ⟨hall1, hall2⟩ := h
    rw [interArea_comm] at hall2
    obtain ⟨⟨hx1, hx2⟩, hy1, hy2⟩ := h1.within_of_interArea_eq hall1
    obtain ⟨⟨hx1', hx2'⟩, hy1', hy2'⟩ := h2.within_of_interArea_eq hall2
    cases box1
    cases box2
    rw [Box.mk.injEq]
    exact ⟨le_antisymm hx1' hx1, le_antisymm hy1' hy1, le_antisymm hx2 hx2', le_antisymm hy2 hy2'⟩
  · intro h
    subst h
    exact ⟨interArea_self h1, interArea_self h1⟩

theorem interior_region (box : Box) :
    interior box.region = Set.Ioo (box.x1 : ℝ) box.x2 ×ˢ Set.Ioo (box.y1 : ℝ) box.y2 := by
  rw [region, interior_prod_eq, interior_Icc, interior_Icc]

theorem cast_overlap (a b c d : ℚ) : ((overlap a b c d : ℚ) : ℝ) = overlap (a : ℝ) b c d := by
  simp only [overlap, Rat.cast_max, Rat.cast_min, Rat.cast_sub, Rat.cast_zero]

theorem interArea_eq_zero_iff :
    interArea box1 box2 = 0 ↔ Disjoint (interior box1.region) (interior box2.region) := by
  have hzero : ∀ a b c d : ℚ,
      overlap a b c d = 0 ↔ Disjoint (Set.Ioo (a : ℝ) b) (Set.Ioo (c : ℝ) d) := by
    intro a b c d
    rw [Set.disjoint_iff_inter_eq_empty, ← Set.not_nonempty_iff_eq_empty, ← overlap_pos_iff,
      ← cast_overlap, Rat.cast_pos, not_lt]
    exact (overlap_nonneg a b c d).ge_iff_eq'.symm
  rw [interior_region, interior_region, Set.disjoint_prod, interArea, mul_eq_zero, hzero, hzero]

end Box

open Box

variable {box1 box2 : Box}

theorem iou_eq (h1 : box1.Proper) (h2 : box2.Proper) :
    iou box1 box2 = some (jaccard (interArea box1 box2) box1.area box2.area) := by
  have hinter : interArea box1 box2 ≤ box2.area := by
    rw [interArea_comm]
    exact h2.interArea_le box1
  exact if_neg (union_pos h1.area_pos hinter).ne'

theorem iou_spec (h1 : box1.Proper) (h2 : box2.Proper) :
    ∃ v, iou box1 box2 = some v ∧ iou box2 box1 = some v ∧ 0 ≤ v ∧ v ≤ 1 ∧
      (v = 0 ↔ Disjoint (interior box1.region) (interior box2.region)) ∧ (v = 1 ↔ box1 = box2) := by
  have hfirst := h1.interArea_le box2
  have hsecond := h2.interArea_le box1
  rw [interArea_comm] at hsecond
  refine ⟨jaccard (interArea box1 box2) box1.area box2.area, iou_eq h1 h2, ?_, ?_, ?_, ?_, ?_⟩
  · rw [iou_eq h2 h1, jaccard_comm, interArea_comm]
  · exact jaccard_nonneg (interArea_nonneg box1 box2) h1.area_pos hsecond
  · exact jaccard_le_one h1.area_pos hfirst hsecond
  · rw [jaccard_eq_zero_iff h1.area_pos hsecond, interArea_eq_zero_iff]
  · rw [jaccard_eq_one_iff h1.area_pos hfirst hsecond, interArea_eq_areas_iff h1 h2]

/-- Two boxes that have a quarter of each in common. -/
theorem iou_spec_example :
    ∃ v, iou ⟨0, 0, 2, 2⟩ ⟨1, 1, 3, 3⟩ = some v ∧ iou ⟨1, 1, 3, 3⟩ ⟨0, 0, 2, 2⟩ = some v ∧ 0 ≤ v ∧ v ≤ 1 ∧
      (v = 0 ↔ Disjoint (interior (Box.region ⟨0, 0, 2, 2⟩)) (interior (Box.region ⟨1, 1, 3, 3⟩))) ∧
      (v = 1 ↔ (⟨0, 0, 2, 2⟩ : Box) = ⟨1, 1, 3, 3⟩) :=
  iou_spec ⟨by decide, by decide⟩ ⟨by decide, by decide⟩

example : iou ⟨0, 0, 2, 2⟩ ⟨1, 1, 3, 3⟩ = some (1 / 7) := by decide +kernel

end CodingForFun.CnnYolo
