import CodingForFun.Lib.SearchTree
import Mathlib.Algebra.Order.Ring.Nat

/-!
# The depths of a tree

The way from the root to the nearest missing child and to the farthest one. Between them they bound the number
of nodes, and they are equal in the trees only in which every level is full (`minDepth_eq_height_iff`).
-/

namespace CodingForFun.Lib.SearchTree

variable {α : Type}

/-- The nodes on the shortest way down. -/
def minDepth : BinaryTree α → ℕ
  | .nil => 0
  | .node _ l r => min (minDepth l) (minDepth r) + 1

theorem two_pow_minDepth_le (t : BinaryTree α) : 2 ^ minDepth t ≤ (inorder t).length + 1 := by
  induction t with
  | nil => exact le_rfl
  | node x l r ihl ihr =>
    have hl : 2 ^ min (minDepth l) (minDepth r) ≤ 2 ^ minDepth l := Nat.pow_le_pow_right Nat.two_pos (min_le_left ..)
    have hr : 2 ^ min (minDepth l) (minDepth r) ≤ 2 ^ minDepth r := Nat.pow_le_pow_right Nat.two_pos (min_le_right ..)
    rw [minDepth, inorder_node, List.length_append, List.length_cons, Nat.pow_succ]
    omega

theorem length_le_two_pow_height (t : BinaryTree α) : (inorder t).length + 1 ≤ 2 ^ t.height := by
  induction t with
  | nil => exact le_rfl
  | node x l r ihl ihr =>
    have hl : 2 ^ l.height ≤ 2 ^ max l.height r.height := Nat.pow_le_pow_right Nat.two_pos (le_max_left ..)
    have hr : 2 ^ r.height ≤ 2 ^ max l.height r.height := Nat.pow_le_pow_right Nat.two_pos (le_max_right ..)
    rw [BinaryTree.height, inorder_node, List.length_append, List.length_cons, Nat.pow_succ]
    omega

theorem minDepth_eq_height_iff (t : BinaryTree α) :
    minDepth t = t.height ↔ (inorder t).length + 1 = 2 ^ t.height := by
  constructor
  · intro heq
    have hmin := two_pow_minDepth_le t
    rw [heq] at hmin
    exact Nat.le_antisymm (length_le_two_pow_height t) hmin
  · intro hfull
    induction t with
    | nil => rfl
    | node x l r ihl ihr =>
      rw [BinaryTree.height, inorder_node, List.length_append, List.length_cons, Nat.pow_succ] at hfull
      have hl := length_le_two_pow_height l
      have hr := length_le_two_pow_height r
      have hl' : 2 ^ l.height ≤ 2 ^ max l.height r.height := Nat.pow_le_pow_right Nat.two_pos (le_max_left ..)
      have hr' : 2 ^ r.height ≤ 2 ^ max l.height r.height := Nat.pow_le_pow_right Nat.two_pos (le_max_right ..)
      have hheight : l.height = r.height :=
        Nat.pow_right_injective le_rfl (show 2 ^ l.height = 2 ^ r.height by omega)
      rw [minDepth, BinaryTree.height, ihl (by omega), ihr (by omega), hheight, min_self, max_self]

end CodingForFun.Lib.SearchTree
