import CodingForFun.Lib.Sequence
import Mathlib.Data.Char

/-!
# `anagramsubstring`

The function of `src/careercup/anagramsub.py`. A string is the list of its characters. The windows begin at
the numbers of `range(0, len(b)-len(a))`, so the one that ends with `b` is not looked at.
-/

namespace CodingForFun.Anagramsub

open Lib.Sequence

variable {α : Type} [LinearOrder α]

def anagramsubstring (a b : List α) : Bool :=
  let asorted := sorted a
  (List.range ((b.length : ℤ) - a.length).toNat).any fun i =>
    let c := slice b i (i + a.length : ℕ)
    let csorted := sorted c
    csorted = asorted

variable {a b : List α}

theorem anagramsubstring_eq_true_iff (h : a.length ≤ b.length) :
    anagramsubstring a b = true ↔ ∃ i < b.length - a.length, ((b.drop i).take a.length).Perm a := by
  have hwindow : ∀ i : ℕ, slice b i (i + a.length : ℕ) = (b.drop i).take a.length := by
    intro i
    rw [slice_nat, List.drop_take, Nat.add_sub_cancel_left]
  simp only [anagramsubstring, List.any_eq_true, List.mem_range, decide_eq_true_eq, sorted_eq_iff, hwindow]
  rw [show ((b.length : ℤ) - a.length).toNat = b.length - a.length by omega]

/-- `anagramsubstring` tells whether a window of `b` is a permutation of `a`, exactly when the last window is
not one or an earlier window is one too. -/
theorem anagramsubstring_iff (h : a.length ≤ b.length) :
    (anagramsubstring a b = true ↔ ∃ i ≤ b.length - a.length, ((b.drop i).take a.length).Perm a) ↔
      ¬(b.drop (b.length - a.length)).Perm a ∨
        ∃ i < b.length - a.length, ((b.drop i).take a.length).Perm a := by
  have hlast : (b.drop (b.length - a.length)).take a.length = b.drop (b.length - a.length) := by
    apply List.take_of_length_le
    rw [List.length_drop]
    omega
  rw [anagramsubstring_eq_true_iff h]
  constructor
  · intro hiff
    by_cases hperm : (b.drop (b.length - a.length)).Perm a
    · exact .inr (hiff.mpr ⟨b.length - a.length, le_rfl, hlast.symm ▸ hperm⟩)
    · exact .inl hperm
  · intro hcond
    constructor
    · rintro ⟨i, hi, hperm⟩
      exact ⟨i, hi.le, hperm⟩
    · rintro ⟨i, hi, hperm⟩
      rcases hcond with hnot | hearlier
      · rcases hi.lt_or_eq with hlt | rfl
        · exact ⟨i, hlt, hperm⟩
        · rw [hlast] at hperm
          exact absurd hperm hnot
      · exact hearlier

theorem anagramsubstring_example :
    (anagramsubstring ['b', 'a'] ['a', 'b', 'c'] = true ↔
      ∃ i ≤ 3 - 2, ((['a', 'b', 'c'].drop i).take 2).Perm ['b', 'a']) ↔
      ¬(['a', 'b', 'c'].drop (3 - 2)).Perm ['b', 'a'] ∨
        ∃ i < 3 - 2, ((['a', 'b', 'c'].drop i).take 2).Perm ['b', 'a'] :=
  anagramsubstring_iff (by decide)

/-- A string is a permutation of itself, and its only window ends with it. -/
theorem anagramsubstring_misses : ['a'].length ≤ ['a'].length ∧
    ¬(anagramsubstring ['a'] ['a'] = true ↔
      ∃ i ≤ ['a'].length - ['a'].length, ((['a'].drop i).take ['a'].length).Perm ['a']) := by
  refine ⟨le_rfl, fun hiff => ?_⟩
  have hfalse : anagramsubstring ['a'] ['a'] = false := rfl
  rw [hfalse] at hiff
  exact Bool.false_ne_true (hiff.mpr ⟨0, le_rfl, List.Perm.refl _⟩)

end CodingForFun.Anagramsub
