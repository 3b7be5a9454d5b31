import CodingForFun.Lib.Cells

/-!
# Arrays behind a pointer

A C function that is passed an array may compute any index, negative ones too, but must access only the
cells of the array. `Window lo hi α` is the memory at a pointer of which the indices from `lo` up to `hi`
may be accessed; all other accesses fault. So an array of `n` cells is a `Window 0 n`, and a pointer into
the middle of a block is a window that starts below zero.
-/

namespace CodingForFun.Lib

/-- The cells at a pointer, the ones from `lo` up to `hi` in bounds. -/
abbrev Window (_lo _hi : ℤ) (α : Type) := ℤ → α

namespace Window

variable {lo hi i j : ℤ} {α : Type} {a : Window lo hi α}

def read (a : Window lo hi α) (i : ℤ) : Except Fault α :=
  if lo ≤ i ∧ i < hi then .ok (a i) else .error .outOfBounds

def write (a : Window lo hi α) (i : ℤ) (x : α) : Except Fault (Window lo hi α) :=
  if lo ≤ i ∧ i < hi then .ok (Function.update a i x) else .error .outOfBounds

/-- The array with the values of a list. -/
def ofList [Inhabited α] (l : List α) : Window 0 l.length α := fun i => l.getD i.toNat default

theorem read_ok (hlo : lo ≤ i) (hhi : i < hi) : a.read i = .ok (a i) := if_pos ⟨hlo, hhi⟩

theorem write_ok (hlo : lo ≤ i) (hhi : i < hi) (x : α) : a.write i x = .ok (Function.update a i x) :=
  if_pos ⟨hlo, hhi⟩

theorem swap_ok (a : Window lo hi α) (hi₁ : lo ≤ i) (hi₂ : i < hi) (hj₁ : lo ≤ j) (hj₂ : j < hi) :
    (do
      let t ← a.read i
      let a ← a.write i (← a.read j)
      a.write j t) = (.ok (a ∘ Equiv.swap i j) : Except Fault (Window lo hi α)) := by
  rw [read_ok hi₁ hi₂, read_ok hj₁ hj₂]
  simp only [ok_bind]
  rw [write_ok hi₁ hi₂, ok_bind, write_ok hj₁ hj₂, Equiv.swap_comm, Equiv.comp_swap_eq_update]

theorem read_error (h : i < lo ∨ hi ≤ i) : a.read i = .error .outOfBounds :=
  if_neg fun hin => by omega

end Window

end CodingForFun.Lib
