import CodingForFun.Sorting.Basic

/-!
# Shell sort

Of the three loops of `shellsort` the inner ones put the values that are `m` places apart in order, for
any gap `m` (`pass_gapSorted`). The gaps are halved down to 1, and with the gap 1 this is the order of the
whole array.
-/

namespace CodingForFun.Sorting

open Lib

variable {lo hi : ℤ}

/-- `i >= 0`, and no `break` at `a[i+m] >= a[i]` -/
def gapGoesOn (m : ℤ) (s : Window lo hi ℤ × ℤ) : Except Fault Bool := do
  if s.2 ≥ 0 then
    pure (!decide ((← s.1.read (s.2 + m)) ≥ (← s.1.read s.2)))
  else
    pure false

def gapStep (m : ℤ) (s : Window lo hi ℤ × ℤ) : Except Fault (Window lo hi ℤ × ℤ) := do
  let mid ← s.1.read s.2
  let a ← s.1.write s.2 (← s.1.read (s.2 + m))
  let a ← a.write (s.2 + m) mid
  pure (a, s.2 - m)

/-- The loop over `i`. -/
def gapInsert (m j : ℤ) (a : Window lo hi ℤ) : Except Fault (Window lo hi ℤ) := do
  let (a, _) ← whileM .unbounded (gapGoesOn m) (gapStep m) (j + 1).toNat (a, j - m)
  pure a

/-- The loop over `j`, and the next gap. -/
def shellRound (n : ℤ) (s : Window lo hi ℤ × ℤ) : Except Fault (Window lo hi ℤ × ℤ) := do
  let a ← forUp s.2 n (gapInsert s.2) s.1
  pure (a, s.2 / 2)

def shellsort (a : Window lo hi ℤ) (n : ℤ) : Except Fault (Window lo hi ℤ) := do
  let (a, _) ← whileM .unbounded (fun s => pure (decide (s.2 > 0))) (shellRound n) (n / 2 + 1).toNat
    (a, n / 2)
  pure a

section shellsort

variable {n m i j : ℤ} {b : Window 0 n ℤ}

theorem gapStep_ok (b : Window 0 n ℤ) (hm : 0 < m) (hi : 0 ≤ i) (hin : i + m < n) :
    gapStep m (b, i) = .ok (b ∘ Equiv.swap (i + m) i, i - m) := by
  have hi' : i < n := by omega
  have him : 0 ≤ i + m := by omega
  simp only [gapStep, Window.read_ok hi hi', Window.read_ok him hin, Window.write_ok hi hi', ok_bind]
  rw [Window.write_ok him hin, Equiv.comp_swap_eq_update]
  rfl

/-- The value at `j` sinks to its place among the ones before it at the same gaps. -/
theorem gapInsert_ok (h : GapSorted m b j) (hm : 0 < m) (hmj : m ≤ j) (hj : j < n) :
    ∃ b', gapInsert m j b = .ok b' ∧ Rearranged 0 n b b' ∧ GapSorted m b' (j + 1) := by
  have hstart : Sinking m b (j + 1) (j - m + m) := by
    rw [sub_add_cancel]
    exact h.sinking hm
  obtain ⟨⟨b', i'⟩, hloop, hrearr, hsorted⟩ : ∃ s : Window 0 n ℤ × ℤ,
      whileM .unbounded (gapGoesOn m) (gapStep m) (j + 1).toNat (b, j - m) = .ok s ∧
        Rearranged 0 n b s.1 ∧ GapSorted m s.1 (j + 1) := by
    refine whileM_ok (fun s : Window 0 n ℤ × ℤ => -m ≤ s.2 ∧ s.2 + m ≤ j ∧ Rearranged 0 n b s.1 ∧
      Sinking m s.1 (j + 1) (s.2 + m)) (fun s => (s.2 + 1).toNat) ?_ _ _
      ⟨by omega, by omega, .refl 0 n b, hstart⟩ (by simp only; omega)
    rintro ⟨c, i⟩ ⟨hlow, hhigh, hrearr, hsink⟩
    simp only at hlow hhigh hrearr hsink
    by_cases hi : i ≥ 0
    · have hcond : gapGoesOn m (c, i) = .ok (!decide (c (i + m) ≥ c i)) := by
        simp only [gapGoesOn, if_pos hi]
        rw [Window.read_ok (by omega) (by omega), ok_bind, Window.read_ok hi (by omega)]
        rfl
      by_cases hbreak : c (i + m) ≥ c i
      · refine .inr ⟨by rw [hcond, decide_eq_true hbreak]; rfl, hrearr, hsink.finish fun _ => ?_⟩
        rwa [add_sub_cancel_right]
      · refine .inl ⟨_, by rw [hcond, decide_eq_false hbreak]; rfl, gapStep_ok c hm hi (by omega),
          ⟨by simp only; omega, by simp only; omega, ?_, ?_⟩, by simp only; omega⟩
        · exact hrearr.trans (.swap c (by omega) (by omega) hi (by omega))
        · have hswap := hsink.swap hm (by omega) (by omega) (by
            rw [add_sub_cancel_right]
            exact not_le.mp hbreak)
          rw [add_sub_cancel_right] at hswap
          simp only
          rwa [sub_add_cancel]
    · refine .inr ⟨by simp only [gapGoesOn, if_neg hi, pure_eq_ok], hrearr, hsink.finish fun _ => ?_⟩
      omega
  refine ⟨b', ?_, hrearr, hsorted⟩
  rw [gapInsert, hloop]
  rfl

theorem pass_gapSorted (b : Window 0 n ℤ) (hm : 0 < m) (hmn : m ≤ n) :
    ∃ b', forUp m n (gapInsert m) b = .ok b' ∧ Rearranged 0 n b b' ∧ GapSorted m b' n := by
  obtain ⟨b', hb', hrearr, hsorted⟩ := forUp_ok (gapInsert m)
    (fun j (b' : Window 0 n ℤ) => Rearranged 0 n b b' ∧ GapSorted m b' j)
    hmn ⟨.refl 0 n b, fun i _ _ => by omega⟩ fun j b' hj hjn ⟨hrearr, hsorted⟩ => by
      obtain ⟨b'', hb'', hrearr', hsorted'⟩ := gapInsert_ok hsorted hm hj hjn
      exact ⟨b'', hb'', hrearr.trans hrearr', hsorted'⟩
  exact ⟨b', hb', hrearr, hsorted⟩

end shellsort

/-- Only the array is accessed, and it is sorted. -/
theorem shellsort_ok (n : ℕ) (a : Window 0 n ℤ) : ∃ b, shellsort a n = .ok b ∧ Sorts 0 n a b := by
  obtain ⟨⟨b, m⟩, hloop, hrearr, hsorted⟩ : ∃ s : Window 0 n ℤ × ℤ,
      whileM .unbounded (fun s => pure (decide (s.2 > 0))) (shellRound n) ((n : ℤ) / 2 + 1).toNat
        (a, (n : ℤ) / 2) = .ok s ∧ Rearranged 0 n a s.1 ∧ GapSorted 1 s.1 n := by
    refine whileM_ok (fun s : Window 0 n ℤ × ℤ => 0 ≤ s.2 ∧ s.2 ≤ n ∧ Rearranged 0 n a s.1 ∧
      (s.2 = 0 → GapSorted 1 s.1 n)) (fun s => s.2.toNat) ?_ _ _
      ⟨by simp only; omega, by simp only; omega, .refl 0 n a, fun hm i hi hin => ?_⟩ (by simp only; omega)
    · rintro ⟨b, m⟩ ⟨hm, hmn, hrearr, hdone⟩
      simp only at hm hmn hrearr hdone
      by_cases hpos : m > 0
      · obtain ⟨b', hb', hrearr', hsorted⟩ := pass_gapSorted b hpos hmn
        refine .inl ⟨(b', m / 2), by rw [decide_eq_true hpos]; rfl, ?_,
          ⟨by simp only; omega, by simp only; omega, hrearr.trans hrearr', fun hzero => ?_⟩,
          by simp only; omega⟩
        · simp only [shellRound, hb', ok_bind, pure_eq_ok]
        · -- the gap was 1
          simp only at hzero
          obtain rfl : m = 1 := by omega
          exact hsorted
      · exact .inr ⟨by rw [decide_eq_false hpos]; rfl, hrearr, hdone (by omega)⟩
    · simp only at hm
      omega
  refine ⟨b, ?_, hrearr, gapSorted_one_iff.mp hsorted⟩
  rw [shellsort, hloop]
  rfl

end CodingForFun.Sorting
