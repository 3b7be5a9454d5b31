import CodingForFun.Sorting.Basic

/-!
# The quadratic sorts

`bubblesort`, `insertionsort` and `selectionsort`, which all leave the array sorted. The invariants of
their loops: after `p` passes the values from `n - p` on are in place (`Bubbling`), before round `i` the
first `i` values are in order, and before round `i` the first `i` values are in place (`Selecting`). As the
sorted array is determined, the three agree (`quadratic_agree`).
-/

namespace CodingForFun.Sorting

open Lib

variable {lo hi : ℤ}

/-- The body of the inner loop of `bubblesort`. -/
def bubble (i : ℤ) (sequence : Window lo hi ℤ) : Except Fault (Window lo hi ℤ) := do
  if (← sequence.read i) > (← sequence.read (i + 1)) then
    swap sequence i (i + 1)
  else
    pure sequence

def bubblesort (sequence : Window lo hi ℤ) (size : ℤ) : Except Fault (Window lo hi ℤ) :=
  forUp 0 (size - 1) (fun _ => forUp 0 (size - 1) bubble) sequence

/-- `k >= 0 && seq[k] > element` -/
def shiftGoesOn (element : ℤ) (s : Window lo hi ℤ × ℤ) : Except Fault Bool := do
  if s.2 ≥ 0 then
    pure (decide ((← s.1.read s.2) > element))
  else
    pure false

/-- The body of the outer loop of `insertionsort`. -/
def insertElement (i : ℤ) (seq : Window lo hi ℤ) : Except Fault (Window lo hi ℤ) := do
  let element ← seq.read i
  let (seq, k) ← whileM .unbounded (shiftGoesOn element) shift (i + 1).toNat (seq, i - 1)
  seq.write (k + 1) element

def insertionsort (seq : Window lo hi ℤ) (size : ℤ) : Except Fault (Window lo hi ℤ) :=
  forUp 1 size insertElement seq

/-- The body of the inner loop of `selectionsort`. -/
def compareMin (sequence : Window lo hi ℤ) (j min : ℤ) : Except Fault ℤ := do
  if (← sequence.read j) < (← sequence.read min) then
    pure j
  else
    pure min

/-- The body of the outer loop of `selectionsort`. -/
def selectMin (size i : ℤ) (sequence : Window lo hi ℤ) : Except Fault (Window lo hi ℤ) := do
  let min ← forUp (i + 1) size (compareMin sequence) i
  swap sequence i min

def selectionsort (sequence : Window lo hi ℤ) (size : ℤ) : Except Fault (Window lo hi ℤ) :=
  forUp 0 (size - 1) (selectMin size) sequence

/-! ### Bubble sort -/

/-- In round `i` of a pass: the values behind `t` are in place, and so is the one at `i`, with the one at
`t` when the pass has come to it, among the values up to `i`. -/
structure Bubbling (n t i : ℤ) (b : ℤ → ℤ) : Prop where
  top : ∀ k j, 0 ≤ k → k ≤ j → t < j → j < n → b k ≤ b j
  reach : ∀ k j, 0 ≤ k → k ≤ j → j ≤ i → (j = i ∨ t ≤ j) → b k ≤ b j

section bubblesort

variable {n t i : ℤ} {b : Window 0 n ℤ}

theorem Bubbling.start (htop : ∀ k j, 0 ≤ k → k ≤ j → t < j → j < n → b k ≤ b j) :
    Bubbling n t 0 b := by
  refine ⟨htop, fun k j hk hkj hj _ => ?_⟩
  rw [show k = j by omega]

theorem Bubbling.keep (h : Bubbling n t i b) (hle : b i ≤ b (i + 1)) : Bubbling n t (i + 1) b := by
  refine ⟨h.top, fun k j hk hkj hj hor => ?_⟩
  by_cases hlast : j = i + 1
  · subst hlast
    rcases hkj.eq_or_lt with rfl | hlt
    · exact le_rfl
    · exact (h.reach k i hk (by omega) le_rfl (.inl rfl)).trans hle
  · exact h.reach k j hk hkj (by omega) (by omega)

theorem Bubbling.exchange (h : Bubbling n t i b) (hi : 0 ≤ i) (hin : i + 1 < n)
    (hgt : b (i + 1) < b i) : Bubbling n t (i + 1) (b ∘ Equiv.swap i (i + 1)) := by
  have hit : i + 1 ≤ t := by
    by_contra hlt
    exact absurd (h.top i (i + 1) hi (by omega) (by omega) hin) (not_le.mpr hgt)
  constructor
  · intro k j hk hkj htj hj
    simp only [Function.comp_apply, Equiv.swap_apply_def]
    rw [if_neg (by omega : j ≠ i), if_neg (by omega : j ≠ i + 1)]
    split_ifs
    · exact h.top (i + 1) j (by omega) (by omega) htj hj
    · exact h.top i j hi (by omega) htj hj
    · exact h.top k j hk hkj htj hj
  · intro k j hk hkj hj hor
    obtain rfl : j = i + 1 := by omega
    rw [Function.comp_apply, Function.comp_apply, Equiv.swap_apply_right, Equiv.swap_apply_def]
    split_ifs
    · exact hgt.le
    · exact le_rfl
    · exact h.reach k i hk (by omega) le_rfl (.inl rfl)

theorem Bubbling.step (h : Bubbling n t i b) (hi : 0 ≤ i) (hin : i + 1 < n) :
    ∃ b', bubble i b = .ok b' ∧ Rearranged 0 n b b' ∧ Bubbling n t (i + 1) b' := by
  rw [bubble, Window.read_ok hi (by omega), Window.read_ok (by omega) hin]
  simp only [ok_bind]
  by_cases hgt : b i > b (i + 1)
  · rw [if_pos hgt]
    have hswap := swap_ok b hi (by omega) (by omega : 0 ≤ i + 1) hin
    exact ⟨_, hswap, .swap b hi (by omega) (by omega) hin, h.exchange hi hin hgt⟩
  · rw [if_neg hgt]
    exact ⟨b, rfl, .refl 0 n b, h.keep (not_lt.mp hgt)⟩

theorem pass_ok (hn : 0 < n) (htop : ∀ k j, 0 ≤ k → k ≤ j → t < j → j < n → b k ≤ b j) :
    ∃ b', forUp 0 (n - 1) bubble b = .ok b' ∧ Rearranged 0 n b b' ∧
      ∀ k j, 0 ≤ k → k ≤ j → t ≤ j → j < n → b' k ≤ b' j := by
  obtain ⟨b', hb', hrearr, hbub⟩ := forUp_ok bubble
    (fun i (b' : Window 0 n ℤ) => Rearranged 0 n b b' ∧ Bubbling n t i b')
    (by omega : 0 ≤ n - 1) ⟨.refl 0 n b, .start htop⟩ fun i b₁ hi hin h₁ => by
      obtain ⟨b₂, hb₂, hrearr₂, hbub₂⟩ := h₁.2.step hi (by omega)
      exact ⟨b₂, hb₂, h₁.1.trans hrearr₂, hbub₂⟩
  refine ⟨b', hb', hrearr, fun k j hk hkj htj hj => ?_⟩
  exact hbub.reach k j hk hkj (by omega) (.inr htj)

theorem bubblesort_ok (n : ℕ) (a : Window 0 n ℤ) :
    ∃ b, bubblesort a n = .ok b ∧ Sorts 0 n a b := by
  rcases Nat.eq_zero_or_pos n with rfl | hn
  · exact ⟨a, forUp_of_le _ (by decide), .refl 0 _ a, monotoneOn_of_le a (by decide)⟩
  · obtain ⟨b, hb, hrearr, htop⟩ := forUp_ok (fun _ => forUp 0 ((n : ℤ) - 1) bubble)
      (fun p (b : Window 0 n ℤ) => Rearranged 0 n a b ∧
        ∀ k j, 0 ≤ k → k ≤ j → n - 1 - p < j → j < n → b k ≤ b j)
      (by omega : 0 ≤ (n : ℤ) - 1) ⟨.refl 0 n a, fun k j _ _ _ _ => by omega⟩
      fun p b _ _ ⟨hrearr, htop⟩ => by
        obtain ⟨b', hb', hrearr', htop'⟩ := pass_ok (by omega) htop
        exact ⟨b', hb', hrearr.trans hrearr', fun k j hk hkj htj hj =>
          htop' k j hk hkj (by omega) hj⟩
    refine ⟨b, hb, hrearr, monotoneOn_Ico_iff.mpr fun k j hk hkj hj => ?_⟩
    rcases hkj.eq_or_lt with rfl | hlt
    · exact le_rfl
    · exact htop k j hk hkj (by omega) hj

end bubblesort

/-! ### Insertion sort -/

section insertionsort

variable {n i : ℤ} {b : Window 0 n ℤ}

theorem shiftLoop_ok (h : GapSorted 1 b i) (hi : 0 ≤ i) (hin : i < n) :
    ∃ s, whileM .unbounded (shiftGoesOn (b i)) shift (i + 1).toNat (b, i - 1) = .ok s ∧
      -1 ≤ s.2 ∧ s.2 < i ∧ Inserting b (b i) i s.1 (s.2 + 1) ∧ (0 ≤ s.2 → s.1 s.2 ≤ b i) := by
  have hstart : Inserting b (b i) i b (i - 1 + 1) := by
    rw [sub_add_cancel]
    exact h.inserting
  refine whileM_ok (fun s : Window 0 n ℤ × ℤ => -1 ≤ s.2 ∧ s.2 < i ∧ Inserting b (b i) i s.1 (s.2 + 1))
    (fun s => (s.2 + 1).toNat) ?_ _ _ ⟨by omega, by omega, hstart⟩ (by omega)
  rintro ⟨seq, k⟩ ⟨hlow, hhigh, hins⟩
  simp only at hlow hhigh hins
  by_cases hk : k ≥ 0
  · have hcond : shiftGoesOn (b i) (seq, k) = .ok (decide (seq k > b i)) := by
      simp only [shiftGoesOn, if_pos hk, Window.read_ok hk (by omega : k < n), ok_bind, pure_eq_ok]
    by_cases hgt : seq k > b i
    · have hmove := hins.move hk hhigh hgt
      refine .inl ⟨_, by rw [hcond, decide_eq_true hgt], shift_ok seq hk (by omega),
        ⟨by simp only; omega, by simp only; omega, ?_⟩, by simp only; omega⟩
      rwa [sub_add_cancel]
    · exact .inr ⟨by rw [hcond, decide_eq_false hgt], hlow, hhigh, hins, fun _ => not_lt.mp hgt⟩
  · refine .inr ⟨?_, hlow, hhigh, hins, fun hk' => absurd hk' hk⟩
    simp only [shiftGoesOn, if_neg hk, pure_eq_ok]

theorem insertElement_ok (h : GapSorted 1 b i) (hi : 0 ≤ i) (hin : i < n) :
    ∃ b', insertElement i b = .ok b' ∧ Rearranged 0 n b b' ∧ GapSorted 1 b' (i + 1) := by
  obtain ⟨⟨seq, k⟩, hloop, hlow, hhigh, hins, hstop⟩ := shiftLoop_ok h hi hin
  simp only at hlow hhigh hins hstop
  refine ⟨Function.update seq (k + 1) (b i), ?_, ?_, ?_⟩
  · rw [insertElement, Window.read_ok hi hin, ok_bind, hloop, ok_bind]
    exact Window.write_ok (by omega) (by omega) _
  · exact hins.rearranged.mono le_rfl (by omega)
  · refine hins.finish fun hk => ?_
    rw [add_sub_cancel_right]
    exact hstop (by omega)

theorem insertionsort_ok (n : ℕ) (a : Window 0 n ℤ) :
    ∃ b, insertionsort a n = .ok b ∧ Sorts 0 n a b := by
  rcases Nat.eq_zero_or_pos n with rfl | hn
  · exact ⟨a, forUp_of_le _ (by decide), .refl 0 _ a, monotoneOn_of_le a (by decide)⟩
  · obtain ⟨b, hb, hrearr, hsorted⟩ := forUp_ok insertElement
      (fun i (b : Window 0 n ℤ) => Rearranged 0 n a b ∧ GapSorted 1 b i)
      (by omega : 1 ≤ (n : ℤ)) ⟨.refl 0 n a, fun k _ _ => by omega⟩ fun i b hi hin ⟨hrearr, hb⟩ => by
        obtain ⟨b', hb', hrearr', hsorted'⟩ := insertElement_ok hb (by omega) hin
        exact ⟨b', hb', hrearr.trans hrearr', hsorted'⟩
    exact ⟨b, hb, hrearr, gapSorted_one_iff.mp hsorted⟩

end insertionsort

/-! ### Selection sort -/

/-- The first `i` values are in place. -/
def Selecting (n i : ℤ) (b : ℤ → ℤ) : Prop := ∀ k j, 0 ≤ k → k < i → k ≤ j → j < n → b k ≤ b j

section selectionsort

variable {n i : ℤ} {b : Window 0 n ℤ}

theorem findMin_ok (hi : 0 ≤ i) (hin : i < n) :
    ∃ min, forUp (i + 1) n (compareMin b) i = .ok min ∧ i ≤ min ∧ min < n ∧
      ∀ k, i ≤ k → k < n → b min ≤ b k := by
  obtain ⟨min, hrun, hlow, hhigh, hmin⟩ := forUp_ok (compareMin b)
    (fun j min => i ≤ min ∧ min < j ∧ ∀ k, i ≤ k → k < j → b min ≤ b k)
    (by omega : i + 1 ≤ n) ⟨le_rfl, by omega, fun k hk hki => by rw [show k = i by omega]⟩
    fun j min hj hjn ⟨hlow, hhigh, hmin⟩ => by
      rw [compareMin, Window.read_ok (by omega) hjn, Window.read_ok (by omega) (by omega)]
      simp only [ok_bind]
      by_cases hlt : b j < b min
      · rw [if_pos hlt]
        refine ⟨j, rfl, by omega, by omega, fun k hk hkj => ?_⟩
        rcases (Int.lt_add_one_iff.mp hkj).eq_or_lt with rfl | hkj
        · exact le_rfl
        · exact hlt.le.trans (hmin k hk hkj)
      · rw [if_neg hlt]
        refine ⟨min, rfl, hlow, by omega, fun k hk hkj => ?_⟩
        rcases (Int.lt_add_one_iff.mp hkj).eq_or_lt with rfl | hkj
        · exact not_lt.mp hlt
        · exact hmin k hk hkj
  exact ⟨min, hrun, hlow, hhigh, hmin⟩

theorem selectMin_ok (h : Selecting n i b) (hi : 0 ≤ i) (hin : i < n) :
    ∃ b', selectMin n i b = .ok b' ∧ Rearranged 0 n b b' ∧ Selecting n (i + 1) b' := by
  obtain ⟨min, hrun, hlow, hhigh, hmin⟩ := findMin_ok (b := b) hi hin
  refine ⟨b ∘ Equiv.swap i min, ?_, .swap b hi hin (by omega) hhigh, ?_⟩
  · rw [selectMin, hrun, ok_bind, swap_ok b hi hin (by omega) hhigh]
  · intro k j hk hki hkj hj
    have hj' : i ≤ k → b min ≤ b (Equiv.swap i min j) := by
      intro hik
      rw [Equiv.swap_apply_def]
      split_ifs
      · exact le_rfl
      · exact hmin i le_rfl hin
      · exact hmin j (by omega) hj
    rw [Function.comp_apply, Function.comp_apply]
    rcases (Int.lt_add_one_iff.mp hki).eq_or_lt with rfl | hki
    · rw [Equiv.swap_apply_left]
      exact hj' le_rfl
    · rw [Equiv.swap_apply_of_ne_of_ne (by omega) (by omega), Equiv.swap_apply_def]
      split_ifs
      · exact h k min hk hki (by omega) hhigh
      · exact h k i hk hki hki.le hin
      · exact h k j hk hki hkj hj

theorem selectionsort_ok (n : ℕ) (a : Window 0 n ℤ) :
    ∃ b, selectionsort a n = .ok b ∧ Sorts 0 n a b := by
  rcases Nat.eq_zero_or_pos n with rfl | hn
  · exact ⟨a, forUp_of_le _ (by decide), .refl 0 _ a, monotoneOn_of_le a (by decide)⟩
  · obtain ⟨b, hb, hrearr, hplaced⟩ := forUp_ok (selectMin n)
      (fun i (b : Window 0 n ℤ) => Rearranged 0 n a b ∧ Selecting n i b)
      (by omega : 0 ≤ (n : ℤ) - 1) ⟨.refl 0 n a, fun k j _ _ => by omega⟩
      fun i b hi hin ⟨hrearr, hplaced⟩ => by
        obtain ⟨b', hb', hrearr', hplaced'⟩ := selectMin_ok hplaced hi (by omega)
        exact ⟨b', hb', hrearr.trans hrearr', hplaced'⟩
    refine ⟨b, hb, hrearr, monotoneOn_Ico_iff.mpr fun k j hk hkj hj => ?_⟩
    rcases hkj.eq_or_lt with rfl | hlt
    · exact le_rfl
    · exact hplaced k j hk (by omega) hkj hj

end selectionsort

/-- The three sorts access only the array and leave it in the same state: in order. -/
theorem quadratic_agree (n : ℕ) (a : Window 0 n ℤ) :
    ∃ b, bubblesort a n = .ok b ∧ insertionsort a n = .ok b ∧ selectionsort a n = .ok b ∧
      Sorts 0 n a b := by
  obtain ⟨b, hb, hsorts⟩ := bubblesort_ok n a
  obtain ⟨b₁, hb₁, hsorts₁⟩ := insertionsort_ok n a
  obtain ⟨b₂, hb₂, hsorts₂⟩ := selectionsort_ok n a
  rw [← hsorts.unique hsorts₁] at hb₁
  rw [← hsorts.unique hsorts₂] at hb₂
  exact ⟨b, hb, hb₁, hb₂, hsorts⟩

end CodingForFun.Sorting
