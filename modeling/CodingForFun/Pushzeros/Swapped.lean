import CodingForFun.Lib.CellList
import CodingForFun.Lib.Rearrangement
import CodingForFun.Lib.ZerosLast
import Mathlib.Data.BitVec

/-!
# `pushzeros2`

The function of `src/careercup/pushzeros.c` that does not keep the order. A zero is exchanged with the last value
that has not been exchanged yet, and the loop goes on with the next cell, to the end of the array. So a value
other than zero that is behind a zero either is passed by, or is brought to the place of the zero; once there has
been one, there is always one that is behind the last place a zero has been brought to (`Stuck`).
-/

namespace CodingForFun.Pushzeros

open Lib

variable {n : ℕ}

/-- `array[i] ^= array[j];` -/
def xorCell (array : Window 0 n (BitVec 32)) (i j : ℤ) : Except Fault (Window 0 n (BitVec 32)) := do
  array.write i ((← array.read i) ^^^ (← array.read j))

/-- The body of the loop, with `array` and `zeroi`. -/
def swapStep (i : ℤ) (s : Window 0 n (BitVec 32) × ℤ) : Except Fault (Window 0 n (BitVec 32) × ℤ) := do
  let (array, zeroi) := s
  if (← array.read i) = 0 then
    let array ← xorCell array i zeroi
    let array ← xorCell array zeroi i
    let array ← xorCell array i zeroi
    pure (array, zeroi - 1)
  else
    pure (array, zeroi)

/-- `pushzeros2`, for an array of `n` cells. -/
def pushzeros2 (array : Window 0 n (BitVec 32)) : Except Fault (Window 0 n (BitVec 32)) := do
  let (array, _) ← forUp 0 n swapStep (array, n - 1)
  pure array

/-- Only cells of the array are accessed, and the result has the same values with the zeros at the end. -/
def PushesZeros (array : Window 0 n (BitVec 32)) : Prop :=
  ∃ array', pushzeros2 array = .ok array' ∧ Rearranged 0 n array array' ∧ ZerosLast (cellList array' 0 n)

/-! ### The rounds -/

variable {array : Window 0 n (BitVec 32)} {i j : ℤ}

/-- The array after `array[i] ^= array[j];`. -/
def xored (array : Window 0 n (BitVec 32)) (i j : ℤ) : Window 0 n (BitVec 32) :=
  Function.update array i (array i ^^^ array j)

@[simp] theorem xored_self (array : Window 0 n (BitVec 32)) (i j : ℤ) :
    xored array i j i = array i ^^^ array j := Function.update_self ..

theorem xored_of_ne {k : ℤ} (h : k ≠ i) : xored array i j k = array k := Function.update_of_ne h ..

theorem xorCell_ok (hi₁ : 0 ≤ i) (hi₂ : i < n) (hj₁ : 0 ≤ j) (hj₂ : j < n) :
    xorCell array i j = .ok (xored array i j) := by
  rw [xorCell, Window.read_ok hi₁ hi₂, Window.read_ok hj₁ hj₂]
  simp only [ok_bind]
  rw [Window.write_ok hi₁ hi₂, xored]

theorem xored_xored_xored (h : i = j → array i = 0) :
    xored (xored (xored array i j) j i) i j = array ∘ Equiv.swap i j := by
  funext k
  rw [Function.comp_apply]
  by_cases hij : i = j
  · subst hij
    rw [Equiv.swap_self, Equiv.refl_apply]
    by_cases hk : k = i
    · rw [hk, xored_self, BitVec.xor_self, h rfl]
      rfl
    · rw [xored_of_ne hk, xored_of_ne hk, xored_of_ne hk]
  · have hji : j ≠ i := fun h => hij h.symm
    have hfirst : xored (xored array i j) j i j = array i := by
      rw [xored_self, xored_self, xored_of_ne hji, BitVec.xor_comm (array i), ← BitVec.xor_assoc,
        BitVec.xor_self, BitVec.zero_xor]
    by_cases hki : k = i
    · rw [hki, xored_self, hfirst, xored_of_ne hij, xored_self, Equiv.swap_apply_left,
        BitVec.xor_comm (array i), BitVec.xor_assoc, BitVec.xor_self, BitVec.xor_zero]
    · rw [xored_of_ne hki]
      by_cases hkj : k = j
      · rw [hkj, hfirst, Equiv.swap_apply_right]
      · rw [xored_of_ne hkj, xored_of_ne hki, Equiv.swap_apply_of_ne_of_ne hki hkj]

theorem swapStep_zero {zeroi : ℤ} (hi₁ : 0 ≤ i) (hi₂ : i < n) (hzero₁ : 0 ≤ zeroi) (hzero₂ : zeroi < n)
    (h : array i = 0) : swapStep i (array, zeroi) = .ok (array ∘ Equiv.swap i zeroi, zeroi - 1) := by
  rw [swapStep]
  simp only [Window.read_ok hi₁ hi₂, ok_bind]
  rw [if_pos h, xorCell_ok hi₁ hi₂ hzero₁ hzero₂, ok_bind, xorCell_ok hzero₁ hzero₂ hi₁ hi₂, ok_bind,
    xorCell_ok hi₁ hi₂ hzero₁ hzero₂, ok_bind, xored_xored_xored (fun _ => h), pure_eq_ok]

theorem swapStep_ne {zeroi : ℤ} (hi₁ : 0 ≤ i) (hi₂ : i < n) (h : array i ≠ 0) :
    swapStep i (array, zeroi) = .ok (array, zeroi) := by
  rw [swapStep]
  simp only [Window.read_ok hi₁ hi₂, ok_bind]
  rw [if_neg h, pure_eq_ok]

/-! ### The loop -/

theorem zerosLast_cells_iff (array : Window 0 n (BitVec 32)) :
    ZerosLast (cellList array 0 n) ↔ ∀ i j : ℤ, 0 ≤ i → i < j → j < n → array i = 0 → array j = 0 := by
  rw [ZerosLast, pairwise_cellList, Int.zero_add]

/-- Before round `i` only zeros have been exchanged with zeros, and so many zeros as have been exchanged are in
front of the place. -/
structure Unmoved (array : Window 0 n (BitVec 32)) (i : ℤ) (s : Window 0 n (BitVec 32) × ℤ) : Prop where
  same : s.1 = array
  zeros : ∀ j, i + s.2 + 1 - n ≤ j → j < i → array j = 0
  front : ∀ j, 0 ≤ j → j < i + s.2 + 1 - n → array j ≠ 0

/-- Some zero has been exchanged, and among so many cells in front of the place there is another value. -/
structure Stuck (i : ℤ) (s : Window 0 n (BitVec 32) × ℤ) : Prop where
  exchanged : s.2 < n - 1
  other : ∃ q, i + s.2 + 1 - n ≤ q ∧ q < i ∧ s.1 q ≠ 0

/-- The state before round `i`. -/
structure Scanned (array : Window 0 n (BitVec 32)) (i : ℤ) (s : Window 0 n (BitVec 32) × ℤ) : Prop where
  rearranged : Rearranged 0 n array s.1
  low : n ≤ i + s.2 + 1
  high : s.2 < n
  last : s.2 < n - 1 → s.1 (s.2 + 1) = 0
  shape : Unmoved array i s ∨ (¬ZerosLast (cellList array 0 n) ∧ Stuck i s)

theorem Scanned.init (array : Window 0 n (BitVec 32)) : Scanned array 0 (array, n - 1) := by
  refine ⟨.refl _ _ _, by omega, by omega, fun h => absurd h (lt_irrefl _), .inl ⟨rfl, ?_, ?_⟩⟩
  · intro j hj hj'
    omega
  · intro j hj hj'
    omega

variable {s : Window 0 n (BitVec 32) × ℤ}

theorem Scanned.keep (h : Scanned array i s) (hi₂ : i < n) (hne : s.1 i ≠ 0) :
    Scanned array (i + 1) s := by
  obtain ⟨hrearranged, hlow, hhigh, hlast, hshape⟩ := h
  refine ⟨hrearranged, by omega, hhigh, hlast, ?_⟩
  rcases hshape with hunmoved | ⟨hnot, hstuck⟩
  · by_cases hfirst : s.2 = n - 1
    · -- no zero has been found yet
      left
      refine ⟨hunmoved.same, ?_, ?_⟩
      · intro j hj hj'
        omega
      · intro j hj hj'
        by_cases hji : j = i
        · rw [hji, ← hunmoved.same]
          exact hne
        · exact hunmoved.front j hj (by omega)
    · right
      refine ⟨?_, by omega, i, by omega, by omega, hne⟩
      intro hzeros
      have hzero := hunmoved.zeros (i + s.2 + 1 - n) le_rfl (by omega)
      rw [hunmoved.same] at hne
      exact hne ((zerosLast_cells_iff array).mp hzeros _ i (by omega) (by omega) hi₂ hzero)
  · right
    have hexchanged := hstuck.exchanged
    exact ⟨hnot, hexchanged, i, by omega, by omega, hne⟩

theorem Unmoved.exchange (h : Unmoved array i s) (hzero : array i = 0) (hlast : array s.2 = 0) :
    Unmoved array (i + 1) (s.1 ∘ Equiv.swap i s.2, s.2 - 1) := by
  obtain ⟨hsame, hzeros, hfront⟩ := h
  have heq : array s.2 = array i := hlast.trans hzero.symm
  refine ⟨?_, ?_, ?_⟩
  · rw [hsame, Equiv.comp_swap_eq_update, ← heq, Function.update_eq_self, heq, Function.update_eq_self]
  · intro j hj hj'
    by_cases hji : j = i
    · rwa [hji]
    · exact hzeros j (by simp only at hj; omega) (by omega)
  · intro j hj hj'
    exact hfront j hj (by simp only at hj'; omega)

theorem Unmoved.stuck (h : Unmoved array i s) (hi₁ : 0 ≤ i) (hi₂ : i < n) (hhigh : s.2 < n)
    (hzero : array i = 0) (hlast : array s.2 ≠ 0) :
    ¬ZerosLast (cellList array 0 n) ∧ Stuck (n := n) (i + 1) (s.1 ∘ Equiv.swap i s.2, s.2 - 1) := by
  obtain ⟨hsame, hzeros, -⟩ := h
  have hbehind : i < s.2 := by
    by_contra hle
    by_cases heq : s.2 = i
    · rw [heq] at hlast
      exact hlast hzero
    · exact hlast (hzeros s.2 (by omega) (by omega))
  constructor
  · intro hall
    exact hlast ((zerosLast_cells_iff array).mp hall i s.2 hi₁ hbehind hhigh hzero)
  · refine ⟨by simp only; omega, i, by simp only; omega, by omega, ?_⟩
    simp only [hsame, Function.comp_apply, Equiv.swap_apply_left]
    exact hlast

theorem Stuck.exchange (h : Stuck (n := n) i s) :
    Stuck (n := n) (i + 1) (s.1 ∘ Equiv.swap i s.2, s.2 - 1) := by
  obtain ⟨hexchanged, q, hq₁, hq₂, hq⟩ := h
  refine ⟨by simp only; omega, ?_⟩
  by_cases hqs : q = s.2
  · -- the value is brought to the place of the zero
    refine ⟨i, by simp only; omega, by omega, ?_⟩
    simp only [Function.comp_apply, Equiv.swap_apply_left]
    rwa [← hqs]
  · refine ⟨q, by simp only; omega, by omega, ?_⟩
    simp only [Function.comp_apply]
    rwa [Equiv.swap_apply_of_ne_of_ne (by omega) hqs]

theorem Scanned.exchange (h : Scanned array i s) (hi₁ : 0 ≤ i) (hi₂ : i < n) (hzero : s.1 i = 0) :
    Scanned array (i + 1) (s.1 ∘ Equiv.swap i s.2, s.2 - 1) := by
  obtain ⟨hrearranged, hlow, hhigh, -, hshape⟩ := h
  refine ⟨hrearranged.trans (.swap _ hi₁ hi₂ (by omega) hhigh), by simp only; omega, by simp only; omega, ?_, ?_⟩
  · intro _
    simp only [sub_add_cancel, Function.comp_apply, Equiv.swap_apply_right]
    exact hzero
  · rcases hshape with hunmoved | ⟨hnot, hstuck⟩
    · rw [hunmoved.same] at hzero
      by_cases hlast : array s.2 = 0
      · exact .inl (hunmoved.exchange hzero hlast)
      · exact .inr (hunmoved.stuck hi₁ hi₂ hhigh hzero hlast)
    · exact .inr ⟨hnot, hstuck.exchange⟩

theorem Scanned.step (h : Scanned array i s) (hi₁ : 0 ≤ i) (hi₂ : i < n) :
    ∃ s', swapStep i s = .ok s' ∧ Scanned array (i + 1) s' := by
  have hlow := h.low
  by_cases hzero : s.1 i = 0
  · exact ⟨_, swapStep_zero hi₁ hi₂ (by omega) h.high hzero, h.exchange hi₁ hi₂ hzero⟩
  · exact ⟨s, swapStep_ne hi₁ hi₂ hzero, h.keep hi₂ hzero⟩

theorem Scanned.zerosLast_iff (h : Scanned array n s) :
    ZerosLast (cellList s.1 0 n) ↔ ZerosLast (cellList array 0 n) := by
  obtain ⟨-, hlow, hhigh, hlast, hshape⟩ := h
  rcases hshape with hunmoved | ⟨hnot, hstuck⟩
  · rw [hunmoved.same]
  · obtain ⟨hexchanged, q, hq₁, hq₂, hq⟩ := hstuck
    rw [iff_false_intro hnot, iff_false, zerosLast_cells_iff]
    intro hzeros
    have hzero := hlast hexchanged
    have hne : q ≠ s.2 + 1 := by
      intro heq
      exact hq (heq ▸ hzero)
    exact hq (hzeros (s.2 + 1) q (by omega) (by omega) hq₂ hzero)

theorem pushzeros2_ok (array : Window 0 n (BitVec 32)) :
    ∃ array', pushzeros2 array = .ok array' ∧ Rearranged 0 n array array' ∧
      (ZerosLast (cellList array' 0 n) ↔ ZerosLast (cellList array 0 n)) := by
  obtain ⟨s, hs, hscanned⟩ := forUp_ok swapStep (Scanned array) (Int.natCast_nonneg n) (.init array)
    fun i s hi₁ hi₂ h => h.step hi₁ hi₂
  refine ⟨s.1, ?_, hscanned.rearranged, hscanned.zerosLast_iff⟩
  rw [pushzeros2, hs]
  rfl

end CodingForFun.Pushzeros
