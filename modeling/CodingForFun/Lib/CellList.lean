import CodingForFun.Lib.Window
import Mathlib.Algebra.Order.Ring.Int
import Mathlib.Data.List.Basic

/-!
# Parts of an array as lists

`cellList a lo n` is the list of the `n` cells from `lo` on. Neighboring parts are appended
(`cellList_add`), and cells that have been exchanged about a middle are the list backwards
(`cellList_eq_reverse`). A program that works on an array can be followed on the list of its cells
(`Window.read_cells`, `Window.write_cells`).
-/

namespace CodingForFun.Lib

variable {α : Type} {a b : ℤ → α} {lo : ℤ} {m n : ℕ} {x : α}

/-- The cells `a lo, …, a (lo + n - 1)`. -/
def cellList (a : ℤ → α) (lo : ℤ) (n : ℕ) : List α := (List.range n).map fun k : ℕ => a (lo + k)

@[simp] theorem cellList_zero (a : ℤ → α) (lo : ℤ) : cellList a lo 0 = [] := rfl

@[simp] theorem length_cellList (a : ℤ → α) (lo : ℤ) (n : ℕ) : (cellList a lo n).length = n := by
  rw [cellList, List.length_map, List.length_range]

theorem cellList_add (a : ℤ → α) (lo : ℤ) (m n : ℕ) :
    cellList a lo (m + n) = cellList a lo m ++ cellList a (lo + m) n := by
  rw [cellList, List.range_add, List.map_append, List.map_map]
  congr 2
  funext k
  simp only [Function.comp_apply, Int.natCast_add, Int.add_assoc]

theorem cellList_congr (h : ∀ i, lo ≤ i → i < lo + n → a i = b i) : cellList a lo n = cellList b lo n := by
  apply List.map_congr_left
  intro k hk
  have hk := List.mem_range.mp hk
  exact h _ (by omega) (by omega)

theorem mem_cellList : x ∈ cellList a lo n ↔ ∃ k < n, a (lo + k) = x := by
  simp only [cellList, List.mem_map, List.mem_range]

theorem pairwise_cellList {r : α → α → Prop} :
    (cellList a lo n).Pairwise r ↔ ∀ i j, lo ≤ i → i < j → j < lo + n → r (a i) (a j) := by
  rw [cellList, List.pairwise_map, List.pairwise_iff_getElem]
  simp only [List.length_range, List.getElem_range]
  constructor
  · intro h i j hi hij hj
    have hcells := h (i - lo).toNat (j - lo).toNat (by omega) (by omega) (by omega)
    rwa [show lo + ((i - lo).toNat : ℤ) = i by omega, show lo + ((j - lo).toNat : ℤ) = j by omega] at hcells
  · intro h i j _ hj hij
    exact h _ _ (by omega) (by omega) (by omega)

theorem head?_cellList (hn : 0 < n) : (cellList a lo n).head? = some (a lo) := by
  obtain ⟨n, rfl⟩ := Nat.exists_eq_succ_of_ne_zero (Nat.ne_of_gt hn)
  rw [cellList, List.range_succ_eq_map, List.map_cons, List.head?_cons, Int.natCast_zero, Int.add_zero]

theorem cellList_eq_reverse (h : ∀ k < n, b (lo + k) = a (lo + (n - 1 - k : ℕ))) :
    cellList b lo n = (cellList a lo n).reverse := by
  apply List.ext_getElem
  · rw [List.length_reverse, length_cellList, length_cellList]
  · intro k hk hk'
    rw [length_cellList] at hk
    simp only [cellList, List.getElem_map, List.getElem_range, List.getElem_reverse, List.length_map,
      List.length_range]
    exact h k hk

theorem exists_stretch (q : α → Bool) (a : ℤ → α) (lo : ℤ) (n : ℕ) :
    ∃ k ≤ n, (∀ i < k, q (a (lo + i)) = true) ∧ (k < n → q (a (lo + k)) = false) := by
  induction n with
  | zero => exact ⟨0, le_rfl, fun i hi => absurd hi (Nat.not_lt_zero i), fun h => absurd h (Nat.lt_irrefl 0)⟩
  | succ n ih =>
    obtain ⟨k, hkn, hall, hstop⟩ := ih
    by_cases hlt : k < n
    · exact ⟨k, hkn.trans (Nat.le_succ n), hall, fun _ => hstop hlt⟩
    · obtain rfl : k = n := by omega
      cases hq : q (a (lo + k)) with
      | false => exact ⟨k, Nat.le_succ k, hall, fun _ => hq⟩
      | true =>
        refine ⟨k + 1, le_rfl, fun i hi => ?_, fun h => absurd h (Nat.lt_irrefl _)⟩
        rcases Nat.lt_succ_iff_lt_or_eq.mp hi with hi | rfl
        · exact hall i hi
        · exact hq

/-! ### Reading and writing -/

theorem natCast_length_concat (l : List α) (x : α) : ((l ++ [x]).length : ℤ) = l.length + 1 := by
  rw [List.length_append, List.length_singleton, Int.natCast_succ]

theorem cellList_split (a : ℤ → α) (p q : ℕ) :
    cellList a 0 (p + 1 + q) = cellList a 0 p ++ a p :: cellList a (p + 1) q := by
  rw [cellList_add, cellList_add, List.append_assoc, Int.zero_add, Int.natCast_succ, Int.zero_add]
  simp [cellList]

namespace Window

variable {front back : List α} {a : Window 0 n α}

theorem cells_at (h : cellList a 0 n = front ++ x :: back) :
    n = front.length + 1 + back.length ∧ a front.length = x := by
  have hlen : n = front.length + 1 + back.length := by
    have hlength := congrArg List.length h
    rw [length_cellList, List.length_append, List.length_cons] at hlength
    omega
  refine ⟨hlen, ?_⟩
  rw [hlen, cellList_split] at h
  obtain ⟨-, htail⟩ := List.append_inj h (length_cellList _ _ _)
  exact (List.cons.inj htail).1

theorem read_cells (h : cellList a 0 n = front ++ x :: back) : a.read front.length = .ok x := by
  obtain ⟨hlen, hx⟩ := cells_at h
  rw [read_ok (Int.natCast_nonneg _) (by omega), hx]

theorem write_cells (h : cellList a 0 n = front ++ x :: back) (y : α) :
    ∃ a' : Window 0 n α, a.write front.length y = .ok a' ∧ cellList a' 0 n = front ++ y :: back := by
  obtain ⟨hlen, -⟩ := cells_at h
  refine ⟨Function.update a front.length y, write_ok (Int.natCast_nonneg _) (by omega) y, ?_⟩
  rw [hlen, cellList_split] at h
  obtain ⟨hfront, htail⟩ := List.append_inj h (length_cellList _ _ _)
  obtain ⟨-, hback⟩ := List.cons.inj htail
  have hfront' : cellList (Function.update a front.length y) 0 front.length = cellList a 0 front.length :=
    cellList_congr fun i _ hi => Function.update_of_ne (by omega) ..
  have hback' : cellList (Function.update a front.length y) (front.length + 1) back.length =
      cellList a (front.length + 1) back.length :=
    cellList_congr fun i hi _ => Function.update_of_ne (by omega) ..
  rw [hlen, cellList_split, Function.update_self, hfront', hback', hfront, hback]

end Window

end CodingForFun.Lib
