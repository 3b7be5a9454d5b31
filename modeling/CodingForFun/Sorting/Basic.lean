import CodingForFun.Lib.Rearrangement
import CodingForFun.Lib.Window

/-!
# The sorts of `sorting.c`

An array of `n` values is a `Window 0 n`, so that a sort that returns has accessed nothing else. What the
sorts do is `Sorts 0 n a b`. Indices and sizes are exact integers, but for the places of the children in a heap
(`biggestChild`), which an `int` may be too small for; no operand of a division is negative.
-/

namespace CodingForFun.Sorting

open Lib

variable {lo hi i j k : ℤ}

/-- `swap(&sequence[i], &sequence[j])` -/
def swap (sequence : Window lo hi ℤ) (i j : ℤ) : Except Fault (Window lo hi ℤ) := do
  let temp ← sequence.read i
  let sequence ← sequence.write i (← sequence.read j)
  sequence.write j temp

theorem swap_ok (a : Window lo hi ℤ) (hi₁ : lo ≤ i) (hi₂ : i < hi) (hj₁ : lo ≤ j) (hj₂ : j < hi) :
    swap a i j = .ok (a ∘ Equiv.swap i j) := Window.swap_ok a hi₁ hi₂ hj₁ hj₂

/-- `seq[k+1] = seq[k]; k--;` -/
def shift (s : Window lo hi ℤ × ℤ) : Except Fault (Window lo hi ℤ × ℤ) := do
  let seq ← s.1.write (s.2 + 1) (← s.1.read s.2)
  pure (seq, s.2 - 1)

theorem shift_ok (a : Window lo hi ℤ) (hk : lo ≤ k) (hkn : k + 1 < hi) :
    shift (a, k) = .ok (Function.update a (k + 1) (a k), k - 1) := by
  simp only [shift, Window.read_ok hk (by omega : k < hi), ok_bind]
  rw [Window.write_ok (by omega) hkn]
  rfl

end CodingForFun.Sorting
