import CodingForFun.Lib.Dict
import Mathlib.Data.List.Sort

/-!
# Python sequences

A string or a list of a Python program is the list of its elements. An index counts from the end when it is
negative, and the bounds of a slice do too; a bound that is outside the sequence even so is cut off at its
ends. For a slice that goes backwards (`s[i:j:-1]`) the end in front of the first element is the position -1,
which cannot be written: as a bound, -1 is the last element (`sliceBack_first`).
-/

namespace CodingForFun.Lib.Sequence

variable {α : Type}

/-- The position that an index or a bound stands for. -/
def position (s : List α) (i : ℤ) : ℤ := if i < 0 then i + s.length else i

/-- `s[i]` -/
def index (s : List α) (i : ℤ) : Except PyError α :=
  if 0 ≤ position s i then
    match s[(position s i).toNat]? with
    | some x => .ok x
    | none => .error .indexError
  else
    .error .indexError

/-- `s[i] = x` -/
def setItem (s : List α) (i : ℤ) (x : α) : Except PyError (List α) :=
  if 0 ≤ position s i ∧ position s i < s.length then .ok (s.set (position s i).toNat x) else .error .indexError

/-- The position of the bound `i` of a slice that goes from `lo` to `hi` at most. -/
def bound (s : List α) (lo hi i : ℤ) : ℤ := max lo (min hi (position s i))

/-- `s[i:j]` -/
def slice (s : List α) (i j : ℤ) : List α :=
  (s.take (bound s 0 s.length j).toNat).drop (bound s 0 s.length i).toNat

/-- `s[i:j:-1]`, from the element `i` down to the one behind `j` -/
def sliceBack (s : List α) (i j : ℤ) : List α :=
  ((s.take (bound s (-1) (s.length - 1) i + 1).toNat).drop
    (bound s (-1) (s.length - 1) j + 1).toNat).reverse

/-- `sorted(s)` -/
def sorted [LinearOrder α] (s : List α) : List α := s.mergeSort (· ≤ ·)

variable {s t : List α}

theorem position_of_nonneg {i : ℤ} (hi : 0 ≤ i) : position s i = i := if_neg (Int.not_lt.mpr hi)

theorem index_ok {n : ℕ} (hn : n < s.length) : index s n = .ok s[n] := by
  rw [index, position_of_nonneg (Int.natCast_nonneg n), if_pos (Int.natCast_nonneg n), Int.toNat_natCast,
    List.getElem?_eq_getElem hn]

theorem index_append (s t : List α) (x : α) : index (s ++ x :: t) s.length = .ok x := by
  have hlen : s.length < (s ++ x :: t).length := by
    rw [List.length_append, List.length_cons]
    omega
  rw [index_ok hlen, List.getElem_append_right le_rfl]
  simp

theorem setItem_append (s t : List α) (x y : α) : setItem (s ++ x :: t) s.length y = .ok (s ++ y :: t) := by
  have hlen : (s.length : ℤ) < (s ++ x :: t).length := by
    rw [List.length_append, List.length_cons]
    omega
  rw [setItem, position_of_nonneg (Int.natCast_nonneg _), if_pos ⟨Int.natCast_nonneg _, hlen⟩, Int.toNat_natCast,
    List.set_append_right _ _ le_rfl, Nat.sub_self, List.set_cons_zero]

theorem index_ofFn {n : ℕ} (f : Fin n → α) (i : Fin n) : index (List.ofFn f) i = .ok (f i) := by
  have hi : (i : ℕ) < (List.ofFn f).length := by
    rw [List.length_ofFn]
    exact i.isLt
  rw [index_ok hi, List.getElem_ofFn]

theorem setItem_ofFn {n : ℕ} (f : Fin n → α) (i : Fin n) (x : α) :
    setItem (List.ofFn f) i x = .ok (List.ofFn (Function.update f i x)) := by
  have hi : (i : ℤ) < (List.ofFn f).length := by
    rw [List.length_ofFn]
    omega
  rw [setItem, position_of_nonneg (Int.natCast_nonneg _), if_pos ⟨Int.natCast_nonneg _, hi⟩, Int.toNat_natCast]
  congr 1
  apply List.ext_getElem
  · rw [List.length_set, List.length_ofFn, List.length_ofFn]
  · intro k hk hk'
    rw [List.getElem_set, List.getElem_ofFn, List.getElem_ofFn, Function.update_apply]
    exact if_congr (by rw [Fin.ext_iff, eq_comm]) rfl rfl

theorem index_last (s : List α) (x : α) : index (s ++ [x]) (-1) = .ok x := by
  have hposition : position (s ++ [x]) (-1) = s.length := by
    rw [position, if_pos (by decide), List.length_append, List.length_singleton]
    omega
  rw [index, hposition, if_pos (Int.natCast_nonneg _), Int.toNat_natCast, List.getElem?_concat_length]

theorem slice_nat (s : List α) (i j : ℕ) : slice s i j = (s.take j).drop i := by
  have hbound : ∀ k : ℕ, (bound s 0 s.length k).toNat = min s.length k := by
    intro k
    rw [bound, position_of_nonneg (Int.natCast_nonneg k)]
    omega
  have htake : s.take (min s.length j) = s.take j := List.take_eq_take_iff.mpr (by omega)
  rw [slice, hbound, hbound, htake]
  rcases Nat.le_total i s.length with hle | hle
  · rw [Nat.min_eq_right hle]
  · -- both are empty
    have hlen := List.length_take_le' j s
    rw [List.drop_of_length_le (show (s.take j).length ≤ min s.length i by omega),
      List.drop_of_length_le (by omega)]

theorem sliceBack_nat {i j : ℕ} (hi : 0 < i) (hij : i ≤ j) (hj : j ≤ s.length) :
    sliceBack s (j - 1) (i - 1) = ((s.take j).drop i).reverse := by
  rw [sliceBack, bound, bound, position_of_nonneg (by omega), position_of_nonneg (by omega)]
  congr 3 <;> omega

theorem sliceBack_first {j : ℕ} (hj : 0 < j) (hlen : j ≤ s.length) : sliceBack s (j - 1) (-1) = [] := by
  have hlast : bound s (-1) (s.length - 1) (-1) = s.length - 1 := by
    rw [bound, position, if_pos (by omega)]
    omega
  rw [sliceBack, hlast, List.reverse_eq_nil_iff]
  apply List.drop_of_length_le
  have htake := List.length_take_le' (bound s (-1) (s.length - 1) (j - 1) + 1).toNat s
  omega

theorem sorted_eq_iff [LinearOrder α] : sorted s = sorted t ↔ s.Perm t := by
  constructor
  · intro h
    exact (List.mergeSort_perm s _).symm.trans ((List.Perm.of_eq h).trans (List.mergeSort_perm t _))
  · intro h
    apply List.Perm.eq_of_pairwise' (List.pairwise_mergeSort' (· ≤ ·) s) (List.pairwise_mergeSort' (· ≤ ·) t)
    exact (List.mergeSort_perm s _).trans (h.trans (List.mergeSort_perm t _).symm)

/-! ### Slices side by side -/

theorem length_slice_nat (s : List α) (i j : ℕ) : (slice s i j).length = min j s.length - i := by
  rw [slice_nat, List.length_drop, List.length_take]

theorem zip_slice {β : Type} (s : List α) (t : List β) (i j : ℕ) :
    (slice s i j).zip (slice t i j) = slice (s.zip t) i j := by
  rw [slice_nat, slice_nat, slice_nat, List.zip, List.take_zipWith, List.drop_zipWith]

theorem take_append_slice {i j : ℕ} (hij : i ≤ j) : s.take i ++ slice s i j = s.take j := by
  have htake : s.take i = (s.take j).take i := by rw [List.take_take, Nat.min_eq_left hij]
  rw [slice_nat, htake, List.take_append_drop]

theorem flatMap_slice_range (s : List α) (width num : ℕ) :
    ((List.range num).flatMap fun k => slice s (width * k : ℕ) (width * (k + 1) : ℕ)) =
      s.take (width * num) := by
  induction num with
  | zero => rw [List.range_zero, List.flatMap_nil, Nat.mul_zero, List.take_zero]
  | succ num ih =>
    rw [List.range_succ, List.flatMap_append, ih, List.flatMap_singleton]
    exact take_append_slice (Nat.mul_le_mul_left width (Nat.le_succ num))

end CodingForFun.Lib.Sequence
