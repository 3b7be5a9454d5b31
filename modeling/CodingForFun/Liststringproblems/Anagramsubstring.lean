import CodingForFun.Lib.Sequence
import Mathlib.Data.Char
import Mathlib.Data.List.Infix

/-!
# `anagramsubstring` and `anagramsubstring2`

The two functions of `src/careercup/liststringproblems.py` that look for the reverse of `a` in `b`. The first
one reads `b` from its end and compares with `a` from its beginning; after a mismatch it starts again behind
the character that did not match. So it sees an occurrence only when the attempts before it end where the
occurrence begins (`FoundInRow`).
-/

namespace CodingForFun.Liststringproblems

open Lib Lib.Sequence

variable {α : Type}

/-- The loop of `anagramsubstring`, over the numbers that are left, with `j`. -/
def anagramsubstringLoop [DecidableEq α] (a b : List α) : List ℕ → ℕ → Except PyError Bool
  | [], _ => pure false
  | i :: is, j => do
    if (← index b i) = (← index a j) then
      let j := j + 1
      if j = a.length then pure true else anagramsubstringLoop a b is j
    else
      anagramsubstringLoop a b is 0

def anagramsubstring [DecidableEq α] (a b : List α) : Except PyError Bool :=
  anagramsubstringLoop a b (List.range b.length).reverse 0

def anagramsubstring2 [DecidableEq α] (a b : List α) : Bool :=
  let arev := a.reverse
  if arev <:+: b then true else false

/-- `w` begins with `a` behind some attempts that failed: each of them is the first `l` elements of `a` and an
element that does not go on with them. -/
inductive FoundInRow (a : List α) : List α → Prop
  | found (rest : List α) : FoundInRow a (a ++ rest)
  | failed {l : ℕ} {c : α} {w : List α} (hl : l < a.length) (hc : a[l]? ≠ some c) (hw : FoundInRow a w) :
      FoundInRow a (a.take l ++ c :: w)

variable {a b w : List α} {j k l : ℕ} {c : α}

theorem FoundInRow.isInfix (h : FoundInRow a w) : a <:+: w := by
  induction h with
  | found rest => exact (List.prefix_append a rest).isInfix
  | failed _ _ _ ih => exact ih.trans ((List.suffix_cons _ _).trans (List.suffix_append _ _)).isInfix

theorem getElem?_attempt (hl : j < a.length) : (a.take j ++ c :: w)[j]? = some c := by
  have hlen := List.length_take_of_le hl.le
  rw [List.getElem?_append_right (Nat.le_of_eq hlen), hlen, Nat.sub_self]
  rfl

theorem getElem?_take_append (hl : l < j) (hj : j ≤ a.length) : (a.take j ++ w)[l]? = a[l]? := by
  rw [List.getElem?_append_left (by rw [List.length_take_of_le hj]; exact hl), List.getElem?_take_of_lt hl]

theorem not_foundInRow_take (hj : j < a.length) : ¬FoundInRow a (a.take j) := by
  intro h
  generalize hv : a.take j = v at h
  have hlen := congrArg List.length hv
  rw [List.length_take_of_le hj.le] at hlen
  cases h with
  | found rest =>
    rw [List.length_append] at hlen
    omega
  | @failed l c w hl hc hw =>
    rw [List.length_append, List.length_take_of_le hl.le, List.length_cons] at hlen
    have hat := getElem?_attempt (c := c) (w := w) hl
    rw [← hv, List.getElem?_take_of_lt (by omega)] at hat
    exact hc hat

theorem foundInRow_mismatch (hj : j < a.length) (hc : a[j]? ≠ some c) :
    FoundInRow a (a.take j ++ c :: w) ↔ FoundInRow a w := by
  refine ⟨fun h => ?_, .failed hj hc⟩
  generalize hv : a.take j ++ c :: w = v at h
  have hat := getElem?_attempt (c := c) (w := w) hj
  cases h with
  | found rest =>
    rw [hv, List.getElem?_append_left hj] at hat
    exact absurd hat hc
  | @failed l d v hl hd hv' =>
    rcases Nat.lt_trichotomy l j with hlt | rfl | hgt
    · have hat' := getElem?_attempt (c := d) (w := v) hl
      rw [← hv, getElem?_take_append hlt hj.le] at hat'
      exact absurd hat' hd
    · have htail := List.append_cancel_left hv
      rwa [(List.cons.inj htail).2]
    · rw [hv, getElem?_take_append hgt hl.le] at hat
      exact absurd hat hc

theorem anagramsubstringLoop_eq [DecidableEq α] (hk : k ≤ b.length) (hj : j < a.length) :
    ∃ found, anagramsubstringLoop a b (List.range k).reverse j = .ok found ∧
      (found = true ↔ FoundInRow a (a.take j ++ (b.take k).reverse)) := by
  induction k generalizing j with
  | zero =>
    refine ⟨false, rfl, iff_of_false Bool.false_ne_true ?_⟩
    rw [List.take_zero, List.reverse_nil, List.append_nil]
    exact not_foundInRow_take hj
  | succ k ih =>
    have hread : (b.take (k + 1)).reverse = b[k] :: (b.take k).reverse := by
      rw [List.take_succ_eq_append_getElem hk, List.reverse_concat]
    rw [List.range_succ, List.reverse_concat, hread]
    simp only [anagramsubstringLoop, index_ok hk, index_ok hj, ok_bind]
    by_cases hsame : b[k] = a[j]
    · have hnext : a.take j ++ b[k] :: (b.take k).reverse = a.take (j + 1) ++ (b.take k).reverse := by
        rw [hsame, List.take_succ_eq_append_getElem hj, List.append_assoc, List.singleton_append]
      rw [if_pos hsame, hnext]
      by_cases hwhole : j + 1 = a.length
      · refine ⟨true, if_pos hwhole, iff_of_true rfl ?_⟩
        rw [List.take_of_length_le hwhole.ge]
        exact .found _
      · rw [if_neg hwhole]
        exact ih (Nat.le_of_succ_le hk) (by omega)
    · have hmismatch : a[j]? ≠ some b[k] := by
        rw [List.getElem?_eq_getElem hj]
        exact fun heq => hsame (Option.some.inj heq).symm
      rw [if_neg hsame, foundInRow_mismatch hj hmismatch]
      exact ih (Nat.le_of_succ_le hk) (Nat.zero_lt_of_lt hj)

/-- The two functions agree exactly when `b`, read backwards, is failed attempts with `a` behind them whenever
`a` is in it at all. -/
theorem anagramsubstring_eq_iff [DecidableEq α] (ha : a ≠ []) :
    anagramsubstring a b = .ok (anagramsubstring2 a b) ↔ (a.reverse <:+: b → FoundInRow a b.reverse) := by
  obtain ⟨found, hrun, hfound⟩ :=
    anagramsubstringLoop_eq (le_refl b.length) (List.length_pos_of_ne_nil ha)
  rw [List.take_length, List.take_zero, List.nil_append] at hfound
  have hsub : FoundInRow a b.reverse → a.reverse <:+: b := fun h => by
    rw [← List.reverse_infix, List.reverse_reverse]
    exact h.isInfix
  rw [anagramsubstring, hrun, anagramsubstring2, ← hfound]
  rw [← hfound] at hsub
  by_cases hb : a.reverse <:+: b
  · simp [hb]
  · have hnot : found = false := Bool.eq_false_of_not_eq_true fun h => hb (hsub h)
    simp [hb, hnot]

/-- `"ba"` is in `"abba"`, where no attempt fails, and in `"baa"`. -/
theorem anagramsubstring_eq_example :
    anagramsubstring ['a', 'b'] ['a', 'b', 'b', 'a'] =
        .ok (anagramsubstring2 ['a', 'b'] ['a', 'b', 'b', 'a']) ↔
      (['a', 'b'].reverse <:+: ['a', 'b', 'b', 'a'] → FoundInRow ['a', 'b'] ['a', 'b', 'b', 'a'].reverse) :=
  anagramsubstring_eq_iff (List.cons_ne_nil _ _)

/-- The second `'a'` from the end is taken for the end of an attempt, and is the beginning of the
occurrence. -/
theorem anagramsubstring_differ : ['a', 'b'] ≠ [] ∧
    anagramsubstring ['a', 'b'] ['b', 'a', 'a'] ≠ .ok (anagramsubstring2 ['a', 'b'] ['b', 'a', 'a']) := by
  refine ⟨List.cons_ne_nil _ _, ?_⟩
  decide

end CodingForFun.Liststringproblems
