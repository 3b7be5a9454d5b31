import Mathlib.Algebra.Group.Defs
import Mathlib.Algebra.Notation.Defs
import Mathlib.Data.List.Count
import Mathlib.Data.List.Pairwise

/-!
# Zeros at the end

`ZerosLast l` says that no zero of `l` precedes another value. `zerosMoved l` has the other values of `l` in
order, and its zeros behind them; it is the only list of that length with the same other values in which the
zeros come last (`ZerosLast.eq_zerosMoved`).
-/

namespace CodingForFun.Lib

variable {α : Type} [Zero α] {l l' : List α} {x : α} {k : ℕ}

/-- No zero is in front of another value. -/
def ZerosLast (l : List α) : Prop := l.Pairwise fun x y => x = 0 → y = 0

instance [DecidableEq α] (l : List α) : Decidable (ZerosLast l) := inferInstanceAs (Decidable (l.Pairwise _))

theorem zerosLast_cons_of_ne (hx : x ≠ 0) : ZerosLast (x :: l) ↔ ZerosLast l := by
  rw [ZerosLast, List.pairwise_cons, and_iff_right fun y _ h => absurd h hx]
  rfl

theorem zerosLast_of_forall (h : ∀ x ∈ l, x = 0) : ZerosLast l :=
  List.pairwise_of_forall_mem_list fun _ _ y hy _ => h y hy

theorem zerosLast_cons_zero : ZerosLast ((0 : α) :: l) ↔ ∀ x ∈ l, x = 0 := by
  rw [ZerosLast, List.pairwise_cons]
  constructor
  · intro h x hx
    exact h.1 x hx rfl
  · intro h
    exact ⟨fun x hx _ => h x hx, zerosLast_of_forall h⟩

theorem zerosLast_append_replicate : ZerosLast (l ++ List.replicate k (0 : α)) ↔ ZerosLast l := by
  rw [ZerosLast, List.pairwise_append]
  constructor
  · intro h
    exact h.1
  · intro h
    exact ⟨h, zerosLast_of_forall fun x hx => List.eq_of_mem_replicate hx,
      fun x _ y hy _ => List.eq_of_mem_replicate hy⟩

variable [DecidableEq α]

/-- The values other than zero. -/
def nonzeros (l : List α) : List α := l.filter (· ≠ 0)

/-- The same values with the zeros at the end. -/
def zerosMoved (l : List α) : List α := nonzeros l ++ List.replicate (l.count 0) 0

theorem nonzeros_cons_of_ne (hx : x ≠ 0) : nonzeros (x :: l) = x :: nonzeros l :=
  List.filter_cons_of_pos (by simpa using hx)

theorem nonzeros_cons_zero : nonzeros ((0 : α) :: l) = nonzeros l := List.filter_cons_of_neg (by simp)

theorem nonzeros_append (l l' : List α) : nonzeros (l ++ l') = nonzeros l ++ nonzeros l' := List.filter_append ..

theorem nonzeros_eq_nil_iff : nonzeros l = [] ↔ ∀ x ∈ l, x = 0 := by
  simp [nonzeros, List.filter_eq_nil_iff]

theorem nonzeros_replicate (k : ℕ) : nonzeros (List.replicate k (0 : α)) = [] :=
  nonzeros_eq_nil_iff.mpr fun _ hx => List.eq_of_mem_replicate hx

theorem length_nonzeros (l : List α) : (nonzeros l).length + l.count 0 = l.length := by
  induction l with
  | nil => rfl
  | cons x l ih =>
    by_cases hx : x = 0
    · rw [hx, nonzeros_cons_zero, List.count_cons_self, List.length_cons]
      omega
    · rw [nonzeros_cons_of_ne hx, List.count_cons_of_ne (fun h => hx h), List.length_cons, List.length_cons]
      omega

theorem nonzeros_zerosMoved (l : List α) : nonzeros (zerosMoved l) = nonzeros l := by
  have htwice : nonzeros (nonzeros l) = nonzeros l := by simp [nonzeros]
  rw [zerosMoved, nonzeros_append, nonzeros_replicate, List.append_nil, htwice]

theorem ZerosLast.eq_append (h : ZerosLast l) : l = zerosMoved l := by
  induction l with
  | nil => rfl
  | cons x l ih =>
    by_cases hx : x = 0
    · subst hx
      have hall := zerosLast_cons_zero.mp h
      have hl : l = List.replicate l.length 0 := List.eq_replicate_of_mem hall
      rw [zerosMoved, nonzeros_cons_zero, nonzeros_eq_nil_iff.mpr hall, List.count_cons_self, hl,
        List.count_replicate_self, List.replicate_succ, List.nil_append]
    · rw [zerosMoved, nonzeros_cons_of_ne hx, List.count_cons_of_ne (fun h => hx h), List.cons_append,
        ← zerosMoved, ← ih ((zerosLast_cons_of_ne hx).mp h)]

theorem zerosLast_zerosMoved (l : List α) : ZerosLast (zerosMoved l) := by
  rw [zerosMoved, zerosLast_append_replicate]
  refine List.pairwise_of_forall_mem_list fun x hx y _ h => ?_
  exact absurd h (by simpa [nonzeros] using (List.mem_filter.mp hx).2)

theorem ZerosLast.eq_zerosMoved (h : ZerosLast l') (hlen : l'.length = l.length)
    (hsame : nonzeros l' = nonzeros l) : l' = zerosMoved l := by
  have hcount : l'.count 0 = l.count 0 := by
    have h₁ := length_nonzeros l'
    have h₂ := length_nonzeros l
    rw [hsame] at h₁
    omega
  rw [h.eq_append, zerosMoved, hsame, hcount, zerosMoved]

end CodingForFun.Lib
