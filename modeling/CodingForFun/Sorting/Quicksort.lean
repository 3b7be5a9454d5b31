import CodingForFun.Sorting.Basic

/-!
# Quicksort

`quicksortroutine` takes the first value of its part of the array as the pivot and moves the place that
this leaves free to and fro. The invariant of the partition (`Parting`): with the pivot counted at the free
place the values are those of the start, what is before `left` is not above the pivot, and what is behind
`right` is not below it. The free place is at `left` when a round starts and at `right` in its middle.

The routine reads the pivot before it looks at the bounds, so the driver must not be called with an empty
array (`quicksort_inBounds_iff`).
-/

namespace CodingForFun.Sorting

open Lib

variable {lo hi : ℤ}

/-- The array and the variables `left` and `right` of `quicksortroutine`. -/
structure Sides (lo hi : ℤ) where
  sequence : Window lo hi ℤ
  left : ℤ
  right : ℤ

/-- `(sequence[right] >= pivot_value) && (left < right)` -/
def rightGoesOn (pivotValue : ℤ) (s : Sides lo hi) : Except Fault Bool := do
  pure (decide ((← s.sequence.read s.right) ≥ pivotValue) && decide (s.left < s.right))

/-- The first half of a round. -/
def sweepRight (pivotValue : ℤ) (s : Sides lo hi) : Except Fault (Sides lo hi) := do
  let s ← whileM .unbounded (rightGoesOn pivotValue) (fun s => pure { s with right := s.right - 1 })
    (s.right - s.left + 1).toNat s
  if s.left ≠ s.right then
    let sequence ← s.sequence.write s.left (← s.sequence.read s.right)
    pure { s with sequence, left := s.left + 1 }
  else
    pure s

/-- `(sequence[left] <= pivot_value) && (left < right)` -/
def leftGoesOn (pivotValue : ℤ) (s : Sides lo hi) : Except Fault Bool := do
  pure (decide ((← s.sequence.read s.left) ≤ pivotValue) && decide (s.left < s.right))

/-- The second half of a round. -/
def sweepLeft (pivotValue : ℤ) (s : Sides lo hi) : Except Fault (Sides lo hi) := do
  let s ← whileM .unbounded (leftGoesOn pivotValue) (fun s => pure { s with left := s.left + 1 })
    (s.right - s.left + 1).toNat s
  if s.left ≠ s.right then
    let sequence ← s.sequence.write s.right (← s.sequence.read s.left)
    pure { s with sequence, right := s.right - 1 }
  else
    pure s

/-- `quicksortroutine`, cut off after some levels. -/
def quicksortroutine : ℕ → Window lo hi ℤ → ℤ → ℤ → Except Fault (Window lo hi ℤ)
  | 0, _, _, _ => .error .unbounded
  | fuel + 1, sequence, left, right => do
    let pivotValue ← sequence.read left
    let s ← whileM .unbounded (fun s => pure (decide (s.left < s.right)))
      (fun s => do sweepLeft pivotValue (← sweepRight pivotValue s)) (right - left + 1).toNat
      ⟨sequence, left, right⟩
    let sequence ← s.sequence.write s.left pivotValue
    let pivot := s.left
    let sequence ← (if left < pivot then quicksortroutine fuel sequence left (pivot - 1) else pure sequence)
    if right > pivot then quicksortroutine fuel sequence (pivot + 1) right else pure sequence

def quicksort (sequence : Window lo hi ℤ) (size : ℤ) : Except Fault (Window lo hi ℤ) :=
  quicksortroutine (size.toNat + 1) sequence 0 (size - 1)

/-! ### The partition -/

/-- In the partition of `a` from `l` to `r` the place `free` is free for the pivot. -/
structure Parting (a : ℤ → ℤ) (l r pivotValue : ℤ) (s : Sides lo hi) (free : ℤ) : Prop where
  range : l ≤ s.left ∧ s.left ≤ s.right ∧ s.right ≤ r
  rearranged : Rearranged l (r + 1) a (Function.update s.sequence free pivotValue)
  small : ∀ i, l ≤ i → i < s.left → s.sequence i ≤ pivotValue
  large : ∀ i, s.right < i → i ≤ r → pivotValue ≤ s.sequence i

section parting

variable {a : ℤ → ℤ} {l r x : ℤ} {s : Sides lo hi}

theorem parting_start (a : Window lo hi ℤ) (hlr : l ≤ r) :
    Parting a l r (a l) (⟨a, l, r⟩ : Sides lo hi) l := by
  refine ⟨⟨le_rfl, hlr, le_rfl⟩, ?_, fun i hi hil => by simp only at hil; omega,
    fun i hir hi => by simp only at hir; omega⟩
  rw [Function.update_eq_self]
  exact .refl _ _ _

theorem Parting.scanRight (h : Parting a l r x s s.left) (hlo : lo ≤ l) (hhi : r < hi) :
    ∃ s', whileM .unbounded (rightGoesOn x) (fun s => pure { s with right := s.right - 1 })
        (s.right - s.left + 1).toNat s = .ok s' ∧
      Parting a l r x s' s'.left ∧ s'.left = s.left ∧ s'.right ≤ s.right ∧
      (s'.left ≠ s'.right → s'.sequence s'.right < x) := by
  obtain ⟨hl, hle, hr⟩ := h.range
  refine whileM_ok (fun s' : Sides lo hi => Parting a l r x s' s'.left ∧ s'.left = s.left ∧
    s'.right ≤ s.right) (fun s' => (s'.right - s'.left).toNat) ?_ _ _ ⟨h, rfl, le_rfl⟩ (by omega)
  rintro t ⟨ht, hleft, hright⟩
  obtain ⟨hl', hle', hr'⟩ := ht.range
  have hread : t.sequence.read t.right = .ok (t.sequence t.right) :=
    Window.read_ok (by omega) (by omega)
  have hcond : rightGoesOn x t = .ok (decide (t.sequence t.right ≥ x) && decide (t.left < t.right)) := by
    simp only [rightGoesOn, hread, ok_bind, pure_eq_ok]
  by_cases hgo : t.sequence t.right ≥ x ∧ t.left < t.right
  · refine .inl ⟨{ t with right := t.right - 1 }, ?_, rfl, ⟨⟨?_, ht.rearranged, ht.small, ?_⟩, hleft, ?_⟩,
      ?_⟩
    · rw [hcond, decide_eq_true hgo.1, decide_eq_true hgo.2]
      rfl
    · simp only
      omega
    · intro i hi hir
      simp only at hi
      rcases (Int.sub_one_lt_iff.mp hi).eq_or_lt with rfl | hlt
      · exact hgo.1
      · exact ht.large i hlt hir
    · simp only
      omega
    · simp only
      omega
  · refine .inr ⟨?_, ht, hleft, hright, fun hne => ?_⟩
    · rw [hcond, ← Bool.decide_and, decide_eq_false hgo]
    · exact not_le.mp fun hge => hgo ⟨hge, by omega⟩

theorem Parting.sweepRight (h : Parting a l r x s s.left) (hlo : lo ≤ l) (hhi : r < hi)
    (hlt : s.left < s.right) :
    ∃ s', Sorting.sweepRight x s = .ok s' ∧ Parting a l r x s' s'.right ∧
      s'.right - s'.left < s.right - s.left := by
  obtain ⟨t, hrun, ht, hleft, hright, hstop⟩ := h.scanRight hlo hhi
  obtain ⟨hl, hle, hr⟩ := ht.range
  rw [Sorting.sweepRight, hrun, ok_bind]
  by_cases hne : t.left ≠ t.right
  · have hread : t.sequence.read t.right = .ok (t.sequence t.right) :=
      Window.read_ok (by omega) (by omega)
    rw [if_pos hne, hread, ok_bind, Window.write_ok (by omega) (by omega), ok_bind]
    refine ⟨_, rfl, ⟨⟨?_, ?_, hr⟩, ?_, ?_, ?_⟩, ?_⟩
    · simp only
      omega
    · simp only
      omega
    · simp only
      rw [update_hole t.sequence hne]
      exact ht.rearranged.trans (.swap _ (by omega) (by omega) (by omega) (by omega))
    · intro i hi hil
      simp only at hil ⊢
      rcases (Int.lt_add_one_iff.mp hil).eq_or_lt with rfl | hlt
      · rw [Function.update_self]
        exact (hstop hne).le
      · rw [Function.update_of_ne hlt.ne]
        exact ht.small i hi hlt
    · intro i hi hir
      simp only at hi ⊢
      rw [Function.update_of_ne (by omega)]
      exact ht.large i hi hir
    · simp only
      omega
  · rw [if_neg hne]
    rw [not_not] at hne
    refine ⟨t, rfl, hne ▸ ht, ?_⟩
    omega

theorem Parting.scanLeft (h : Parting a l r x s s.right) (hlo : lo ≤ l) (hhi : r < hi) :
    ∃ s', whileM .unbounded (leftGoesOn x) (fun s => pure { s with left := s.left + 1 })
        (s.right - s.left + 1).toNat s = .ok s' ∧
      Parting a l r x s' s'.right ∧ s'.right = s.right ∧ s.left ≤ s'.left ∧
      (s'.left ≠ s'.right → x < s'.sequence s'.left) := by
  obtain ⟨hl, hle, hr⟩ := h.range
  refine whileM_ok (fun s' : Sides lo hi => Parting a l r x s' s'.right ∧ s'.right = s.right ∧
    s.left ≤ s'.left) (fun s' => (s'.right - s'.left).toNat) ?_ _ _ ⟨h, rfl, le_rfl⟩ (by omega)
  rintro t ⟨ht, hright, hleft⟩
  obtain ⟨hl', hle', hr'⟩ := ht.range
  have hread : t.sequence.read t.left = .ok (t.sequence t.left) :=
    Window.read_ok (by omega) (by omega)
  have hcond : leftGoesOn x t = .ok (decide (t.sequence t.left ≤ x) && decide (t.left < t.right)) := by
    simp only [leftGoesOn, hread, ok_bind, pure_eq_ok]
  by_cases hgo : t.sequence t.left ≤ x ∧ t.left < t.right
  · refine .inl ⟨{ t with left := t.left + 1 }, ?_, rfl, ⟨⟨?_, ht.rearranged, ?_, ht.large⟩, hright, ?_⟩,
      ?_⟩
    · rw [hcond, decide_eq_true hgo.1, decide_eq_true hgo.2]
      rfl
    · simp only
      omega
    · intro i hi hil
      simp only at hil
      rcases (Int.lt_add_one_iff.mp hil).eq_or_lt with rfl | hlt
      · exact hgo.1
      · exact ht.small i hi hlt
    · simp only
      omega
    · simp only
      omega
  · refine .inr ⟨?_, ht, hright, hleft, fun hne => ?_⟩
    · rw [hcond, ← Bool.decide_and, decide_eq_false hgo]
    · exact not_le.mp fun hge => hgo ⟨hge, by omega⟩

theorem Parting.sweepLeft (h : Parting a l r x s s.right) (hlo : lo ≤ l) (hhi : r < hi) :
    ∃ s', Sorting.sweepLeft x s = .ok s' ∧ Parting a l r x s' s'.left ∧
      s'.right - s'.left ≤ s.right - s.left := by
  obtain ⟨t, hrun, ht, hright, hleft, hstop⟩ := h.scanLeft hlo hhi
  obtain ⟨hl, hle, hr⟩ := ht.range
  rw [Sorting.sweepLeft, hrun, ok_bind]
  by_cases hne : t.left ≠ t.right
  · have hread : t.sequence.read t.left = .ok (t.sequence t.left) :=
      Window.read_ok (by omega) (by omega)
    rw [if_pos hne, hread, ok_bind, Window.write_ok (by omega) (by omega), ok_bind]
    refine ⟨_, rfl, ⟨⟨hl, ?_, ?_⟩, ?_, ?_, ?_⟩, ?_⟩
    · simp only
      omega
    · simp only
      omega
    · simp only
      rw [update_hole t.sequence hne.symm]
      exact ht.rearranged.trans (.swap _ (by omega) (by omega) (by omega) (by omega))
    · intro i hi hil
      simp only at hil ⊢
      rw [Function.update_of_ne (by omega)]
      exact ht.small i hi hil
    · intro i hi hir
      simp only at hi ⊢
      rcases (Int.sub_one_lt_iff.mp hi).eq_or_lt with heq | hlt
      · rw [← heq, Function.update_self]
        exact (hstop hne).le
      · rw [Function.update_of_ne hlt.ne']
        exact ht.large i hlt hir
    · simp only
      omega
  · rw [if_neg hne]
    rw [not_not] at hne
    refine ⟨t, rfl, hne ▸ ht, ?_⟩
    omega

theorem partition_ok (a : Window lo hi ℤ) (hlo : lo ≤ l) (hlr : l ≤ r) (hhi : r < hi) :
    ∃ s, whileM .unbounded (fun s => pure (decide (s.left < s.right)))
        (fun s => do Sorting.sweepLeft (a l) (← Sorting.sweepRight (a l) s)) (r - l + 1).toNat
        (⟨a, l, r⟩ : Sides lo hi) = .ok s ∧
      Parting a l r (a l) s s.left ∧ s.left = s.right := by
  refine whileM_ok (fun s : Sides lo hi => Parting a l r (a l) s s.left)
    (fun s => (s.right - s.left).toNat) ?_ _ _ (parting_start a hlr) (by simp only; omega)
  intro s hs
  obtain ⟨-, hle, -⟩ := hs.range
  by_cases hlt : s.left < s.right
  · obtain ⟨t, ht, hpart, hmeasure⟩ := hs.sweepRight hlo hhi hlt
    obtain ⟨s', hs', hpart', hmeasure'⟩ := hpart.sweepLeft hlo hhi
    refine .inl ⟨s', by rw [decide_eq_true hlt]; rfl, ?_, hpart', by omega⟩
    rw [ht, ok_bind, hs']
  · exact .inr ⟨by rw [decide_eq_false hlt]; rfl, hs, by omega⟩

end parting

/-! ### The recursion -/

theorem quicksortroutine_ok :
    ∀ (fuel : ℕ) (a : Window lo hi ℤ) (l r : ℤ), lo ≤ l → l ≤ r → r < hi → r - l < fuel →
      ∃ b, quicksortroutine fuel a l r = .ok b ∧ Sorts l (r + 1) a b := by
  intro fuel
  induction fuel with
  | zero =>
    intro a l r _ hlr _ hfuel
    omega
  | succ fuel ih =>
    intro a l r hlo hlr hhi hfuel
    obtain ⟨⟨seq, p, q⟩, hrun, hpart, hpq⟩ := partition_ok a hlo hlr hhi
    obtain rfl : p = q := hpq
    obtain ⟨⟨hlp, -, hpr⟩, hrearr, hsmall, hlarge⟩ := hpart
    simp only at hlp hpr hrearr hsmall hlarge
    have hwrite : seq.write p (a l) = .ok (Function.update seq p (a l)) :=
      Window.write_ok (by omega) (by omega) _
    rw [quicksortroutine, Window.read_ok hlo (by omega), ok_bind, hrun]
    simp only [ok_bind, hwrite]
    -- the part before the pivot
    obtain ⟨b, hb, hsorts⟩ : ∃ b, (if l < p then quicksortroutine fuel
        (Function.update seq p (a l) : Window lo hi ℤ) l (p - 1) else pure (Function.update seq p (a l))) =
          .ok b ∧ Sorts l p (Function.update seq p (a l)) b := by
      by_cases hlt : l < p
      · rw [if_pos hlt]
        obtain ⟨b, hb, hsorts⟩ := ih (Function.update seq p (a l)) l (p - 1) hlo (by omega) (by omega)
          (by omega)
        rw [sub_add_cancel] at hsorts
        exact ⟨b, hb, hsorts⟩
      · rw [if_neg hlt]
        exact ⟨_, rfl, .refl _ _ _, monotoneOn_of_le _ (by omega)⟩
    -- the part behind it
    obtain ⟨c, hc, hsorts'⟩ : ∃ c, (if r > p then quicksortroutine fuel b (p + 1) r else pure b) = .ok c ∧
        Sorts (p + 1) (r + 1) b c := by
      by_cases hgt : r > p
      · rw [if_pos hgt]
        exact ih b (p + 1) r (by omega) (by omega) hhi (by omega)
      · rw [if_neg hgt]
        exact ⟨b, rfl, .refl _ _ _, monotoneOn_of_le _ (by omega)⟩
    rw [hb, ok_bind]
    have hjoin : Sorts l (r + 1) (Function.update seq p (a l)) c := by
      refine hsorts.join hsorts' hlp (by omega) (fun i hi hip => ?_) fun i hpi hi => ?_
      · rw [Function.update_of_ne hip.ne, Function.update_self]
        exact hsmall i hi hip
      · rw [Function.update_of_ne hpi.ne', Function.update_self]
        exact hlarge i hpi (by omega)
    exact ⟨c, hc, hrearr.trans hjoin.toRearranged, hjoin.sorted⟩

theorem quicksort_ok (n : ℕ) (hn : 1 ≤ n) (a : Window 0 n ℤ) :
    ∃ b, quicksort a n = .ok b ∧ Sorts 0 n a b := by
  obtain ⟨b, hb, hsorts⟩ := quicksortroutine_ok ((n : ℤ).toNat + 1) a 0 (n - 1) le_rfl (by omega)
    (by omega) (by omega)
  rw [sub_add_cancel] at hsorts
  exact ⟨b, hb, hsorts⟩

theorem quicksort_ok_three : ∃ b, quicksort (.ofList [3, 1, 2]) (3 : ℕ) = .ok b ∧
    Sorts 0 (3 : ℕ) (Window.ofList [3, 1, 2]) b :=
  quicksort_ok 3 (by decide) (.ofList [3, 1, 2])

theorem quicksort_zero (a : Window 0 (0 : ℕ) ℤ) : quicksort a (0 : ℕ) = .error .outOfBounds := by
  have hread : a.read 0 = .error .outOfBounds := Window.read_error (.inr le_rfl)
  show quicksortroutine 1 a 0 (0 - 1) = .error .outOfBounds
  rw [quicksortroutine, hread]
  rfl

/-- Only elements of the array are accessed, as long as there are any. -/
theorem quicksort_inBounds_iff (n : ℕ) (a : Window 0 n ℤ) : (∃ b, quicksort a n = .ok b) ↔ 1 ≤ n := by
  constructor
  · intro h
    obtain ⟨b, hb⟩ := h
    by_contra hn
    obtain rfl : n = 0 := by omega
    rw [quicksort_zero] at hb
    cases hb
  · intro hn
    obtain ⟨b, hb, -⟩ := quicksortroutine_ok ((n : ℤ).toNat + 1) a 0 (n - 1) le_rfl (by omega)
      (by omega) (by omega)
    exact ⟨b, hb⟩

theorem quicksort_empty_outOfBounds : quicksort (.ofList []) (0 : ℕ) = .error .outOfBounds :=
  quicksort_zero (.ofList [])

end CodingForFun.Sorting
