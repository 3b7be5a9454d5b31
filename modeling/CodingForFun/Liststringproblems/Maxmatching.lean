import CodingForFun.Lib.Sequence
import Mathlib.Data.Char
import Mathlib.Data.List.Infix

/-!
# `maxmatching`

The function of `src/careercup/liststringproblems.py` that looks for a longest window of `seq1` which has the same
elements as a window of `seq2`. Both loops over the ends of windows stop below the length of `seq2`, so that its
last element is in no window, and `seq1` is looked at up to that length only (`maxmatching_longest`).
-/

namespace CodingForFun.Liststringproblems

open Lib Lib.Sequence

variable {α : Type}

/-- The body of the innermost loop, with `maxwindowsize` and `window`. -/
def maxmatchingStep [LinearOrder α] (seq1 seq2 : List α) (i j : ℕ) (best : ℕ × List α) (k : ℕ) : ℕ × List α :=
  let windowsize := j - i
  if sorted (slice seq1 i j) = sorted (slice seq2 k (k + windowsize : ℕ)) then
    if windowsize > best.1 then (windowsize, slice seq1 i j) else best
  else best

def maxmatching [LinearOrder α] (seq1 seq2 : List α) : List α :=
  ((List.range seq1.length).foldl (fun best i =>
    -- keep increasing window
    (List.range' i (seq2.length - i)).foldl (fun best j =>
      -- move window through seq2 to see if there is match
      (List.range (seq2.length - (j - i))).foldl (maxmatchingStep seq1 seq2 i j) best) best) (0, [])).2

/-! ## Loops that keep the largest -/

section largest

variable {ι β : Type} {step : ℕ × β → ι → ℕ × β} {size : ι → ℕ} {val : ι → β} {good : ι → Prop}

/-- What such a loop has found. -/
structure Best (size : ι → ℕ) (val : ι → β) (good : ι → Prop) (first : β) (seen : List ι) (best : ℕ × β) :
    Prop where
  found : best = (0, first) ∨ ∃ x ∈ seen, good x ∧ best = (size x, val x)
  largest : ∀ x ∈ seen, good x → size x ≤ best.1

theorem Best.foldl {first : β} (hyes : ∀ best x, good x → best.1 < size x → step best x = (size x, val x))
    (hno : ∀ best x, ¬(good x ∧ best.1 < size x) → step best x = best) (l : List ι) :
    Best size val good first l (l.foldl step (0, first)) := by
  induction l using List.reverseRecOn with
  | nil => exact ⟨.inl rfl, fun _ hmem => absurd hmem List.not_mem_nil⟩
  | append_singleton l x ih =>
    rw [List.foldl_append, List.foldl_cons, List.foldl_nil]
    by_cases hx : good x ∧ (l.foldl step (0, first)).1 < size x
    · rw [hyes _ x hx.1 hx.2]
      refine ⟨.inr ⟨x, List.mem_append_right _ List.mem_cons_self, hx.1, rfl⟩, fun y hy hgood => ?_⟩
      rcases List.mem_append.mp hy with hseen | hnew
      · exact (ih.largest y hseen hgood).trans hx.2.le
      · rw [List.mem_singleton.mp hnew]
    · rw [hno _ x hx]
      refine ⟨ih.found.imp id ?_, fun y hy hgood => ?_⟩
      · rintro ⟨y, hy, hrest⟩
        exact ⟨y, List.mem_append_left _ hy, hrest⟩
      · rcases List.mem_append.mp hy with hseen | hnew
        · exact ih.largest y hseen hgood
        · rw [List.mem_singleton.mp hnew] at hgood ⊢
          exact Nat.le_of_not_lt fun hlt => hx ⟨hgood, hlt⟩

end largest

/-! ## The windows -/

/-- The numbers of the three loops. -/
def indexTriples (m n : ℕ) : List (ℕ × ℕ × ℕ) :=
  (List.range m).flatMap fun i => (List.range' i (n - i)).flatMap fun j =>
    (List.range (n - (j - i))).map fun k => (i, j, k)

theorem mem_indexTriples {m n i j k : ℕ} :
    (i, j, k) ∈ indexTriples m n ↔ i < m ∧ i ≤ j ∧ j < n ∧ k + (j - i) < n := by
  simp only [indexTriples, List.mem_flatMap, List.mem_range, List.mem_map, List.mem_range'_1, Prod.mk.injEq]
  constructor
  · rintro ⟨i', hi', j', hj', k', hk', rfl, rfl, rfl⟩
    omega
  · rintro ⟨hi, hij, hj, hk⟩
    exact ⟨i, hi, j, by omega, k, by omega, rfl, rfl, rfl⟩

variable {seq1 seq2 u v : List α}

/-- The windows at the numbers of the loops have the same elements. -/
def SameWindow (seq1 seq2 : List α) (x : ℕ × ℕ × ℕ) : Prop :=
  (slice seq1 x.1 x.2.1).Perm (slice seq2 x.2.2 (x.2.2 + (x.2.1 - x.1) : ℕ))

theorem maxmatching_best [LinearOrder α] (seq1 seq2 : List α) : ∃ size, Best (fun x : ℕ × ℕ × ℕ => x.2.1 - x.1)
    (fun x => slice seq1 x.1 x.2.1) (SameWindow seq1 seq2) [] (indexTriples seq1.length seq2.length)
    (size, maxmatching seq1 seq2) := by
  have hloop : Best (fun x : ℕ × ℕ × ℕ => x.2.1 - x.1) (fun x => slice seq1 x.1 x.2.1) (SameWindow seq1 seq2) []
      (indexTriples seq1.length seq2.length) ((indexTriples seq1.length seq2.length).foldl
        (fun best x => maxmatchingStep seq1 seq2 x.1 x.2.1 best x.2.2) (0, [])) := by
    apply Best.foldl
    · rintro best ⟨i, j, k⟩ hsame hlt
      exact (if_pos (sorted_eq_iff.mpr hsame)).trans (if_pos hlt)
    · rintro best ⟨i, j, k⟩ hnot
      unfold maxmatchingStep
      dsimp only
      split
      · rename_i hsorted
        exact if_neg fun hlt => hnot ⟨sorted_eq_iff.mp hsorted, hlt⟩
      · rfl
  rw [indexTriples, List.foldl_flatMap] at hloop
  simp only [List.foldl_flatMap, List.foldl_map] at hloop
  exact ⟨_, hloop⟩

theorem isInfix_iff_slice {l : List α} :
    u <:+: l ↔ ∃ i, i + u.length ≤ l.length ∧ u = (l.take (i + u.length)).drop i := by
  constructor
  · rintro ⟨front, back, rfl⟩
    refine ⟨front.length, ?_, ?_⟩
    · rw [List.length_append, List.length_append]
      omega
    · rw [← List.length_append, List.take_left, List.drop_left]
  · rintro ⟨i, -, hu⟩
    rw [hu]
    exact ((l.take _).drop_suffix i).isInfix.trans ( List.take_prefix _ l).isInfix

theorem SameWindow.spec {i j k : ℕ} (h : SameWindow seq1 seq2 (i, j, k))
    (hmem : (i, j, k) ∈ indexTriples seq1.length seq2.length) :
    slice seq1 i j <:+: seq1.take (seq2.length - 1) ∧
      slice seq2 k (k + (j - i) : ℕ) <:+: seq2.dropLast ∧ (slice seq1 i j).length = j - i := by
  obtain ⟨-, hij, hj, hk⟩ := mem_indexTriples.mp hmem
  have htake : ∀ (s : List α) (m : ℕ), m ≤ seq2.length - 1 → s.take m = (s.take (seq2.length - 1)).take m := by
    intro s m hm
    rw [List.take_take, Nat.min_eq_left hm]
  refine ⟨?_, ?_, ?_⟩
  · rw [slice_nat, htake seq1 j (by omega)]
    exact ((List.take _ _).drop_suffix i).isInfix.trans ( List.take_prefix _ _).isInfix
  · rw [slice_nat, htake seq2 (k + (j - i)) (by omega), List.dropLast_eq_take]
    exact ((List.take _ _).drop_suffix k).isInfix.trans ( List.take_prefix _ _).isInfix
  · have hlen := List.Perm.length_eq h
    dsimp only at hlen
    rw [hlen, length_slice_nat]
    omega

theorem exists_indexTriple (hu : u <:+: seq1.take (seq2.length - 1)) (hv : v <:+: seq2.dropLast)
    (hperm : u.Perm v) (hpos : 0 < u.length) :
    ∃ i k, (i, i + u.length, k) ∈ indexTriples seq1.length seq2.length ∧
      SameWindow seq1 seq2 (i, i + u.length, k) := by
  obtain ⟨i, hi, hui⟩ := isInfix_iff_slice.mp hu
  obtain ⟨k, hk, hvk⟩ := isInfix_iff_slice.mp hv
  rw [List.length_take] at hi
  rw [List.length_dropLast, ← hperm.length_eq] at hk
  rw [List.take_take, Nat.min_eq_left (by omega)] at hui
  rw [List.dropLast_eq_take, List.take_take, ← hperm.length_eq, Nat.min_eq_left (by omega)] at hvk
  refine ⟨i, k, mem_indexTriples.mpr ⟨by omega, by omega, by omega, by omega⟩, ?_⟩
  unfold SameWindow
  dsimp only
  rw [Nat.add_sub_cancel_left, slice_nat, slice_nat, ← hui, ← hvk]
  exact hperm

/-- What is returned is a longest window of `seq1`, as far as the length of `seq2` without its last element goes,
that is a rearrangement of a window of `seq2` without that element. -/
theorem maxmatching_longest [LinearOrder α] (seq1 seq2 : List α) :
    maxmatching seq1 seq2 <:+: seq1.take (seq2.length - 1) ∧
      (∃ v, v <:+: seq2.dropLast ∧ (maxmatching seq1 seq2).Perm v) ∧
      ∀ u v, u <:+: seq1.take (seq2.length - 1) → v <:+: seq2.dropLast → u.Perm v →
        u.length ≤ (maxmatching seq1 seq2).length := by
  obtain ⟨size, hbest⟩ := maxmatching_best seq1 seq2
  have hlongest : ∀ u v, u <:+: seq1.take (seq2.length - 1) → v <:+: seq2.dropLast → u.Perm v →
      u.length ≤ size := by
    intro u v hu hv hperm
    rcases Nat.eq_zero_or_pos u.length with hzero | hpos
    · omega
    · obtain ⟨i, k, hmem, hsame⟩ := exists_indexTriple hu hv hperm hpos
      have hle := hbest.largest _ hmem hsame
      dsimp only at hle
      omega
  rcases hbest.found with hnone | ⟨⟨i, j, k⟩, hmem, hsame, hfound⟩
  · obtain ⟨rfl, hwindow⟩ := Prod.mk.inj hnone
    rw [hwindow]
    have hempty : ∀ l : List α, [] <:+: l := fun _ => List.nil_infix
    exact ⟨hempty _, ⟨[], hempty _, .nil⟩, hlongest⟩
  · obtain ⟨rfl, hwindow⟩ := Prod.mk.inj hfound
    obtain ⟨hfirst, hsecond, hlen⟩ := hsame.spec hmem
    rw [hwindow]
    dsimp only at hlongest ⊢
    rw [hlen]
    exact ⟨hfirst, ⟨_, hsecond, hsame⟩, hlongest⟩

end CodingForFun.Liststringproblems
