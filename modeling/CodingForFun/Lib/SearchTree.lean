import Mathlib.Data.Tree.Basic
import Mathlib.Data.List.Pairwise
import Mathlib.Data.List.Perm.Basic
import Mathlib.Order.Lattice
import Mathlib.Tactic.Push
import Mathlib.Tactic.SplitIfs

/-!
# Search trees

Binary trees whose nodes are in the order of their keys from left to right (`Ordered`). `insert` goes
down to the missing child at which a node belongs, and changes nothing where the key is there already.

The order of the nodes decides where a key is, so a search tree is built again, node by node, from the
list of its nodes in preorder (`Ordered.foldl_insert_preorder`): what is to the left of the root goes
down to the left, whatever has been put to the right of it.
-/

namespace CodingForFun.Lib.SearchTree

variable {α β K : Type}

/-- The nodes from left to right. -/
def inorder : BinaryTree α → List α
  | .nil => []
  | .node x l r => inorder l ++ x :: inorder r

/-- Every node in front of those below it, those on the left first. -/
def preorder : BinaryTree α → List α
  | .nil => []
  | .node x l r => x :: (preorder l ++ preorder r)

section traversals

variable {x y : α} {l r : BinaryTree α}

@[simp] theorem inorder_nil : inorder (.nil : BinaryTree α) = [] := rfl

@[simp] theorem inorder_node : inorder (.node x l r) = inorder l ++ x :: inorder r := rfl

@[simp] theorem preorder_nil : preorder (.nil : BinaryTree α) = [] := rfl

@[simp] theorem preorder_node : preorder (.node x l r) = x :: (preorder l ++ preorder r) := rfl

theorem mem_inorder_node : y ∈ inorder (.node x l r) ↔ y = x ∨ y ∈ inorder l ∨ y ∈ inorder r := by
  rw [inorder_node, List.mem_append, List.mem_cons, or_left_comm]

theorem inorder_map (f : α → β) (t : BinaryTree α) : inorder (t.map f) = (inorder t).map f := by
  induction t with
  | nil => rfl
  | node x l r ihl ihr => rw [BinaryTree.map, inorder_node, ihl, ihr, inorder_node, List.map_append,
      List.map_cons]

theorem preorder_map (f : α → β) (t : BinaryTree α) : preorder (t.map f) = (preorder t).map f := by
  induction t with
  | nil => rfl
  | node x l r ihl ihr => rw [BinaryTree.map, preorder_node, ihl, ihr, preorder_node, List.map_cons,
      List.map_append]

theorem preorder_perm (t : BinaryTree α) : (preorder t).Perm (inorder t) := by
  induction t with
  | nil => exact .refl _
  | node x l r ihl ihr => exact ((ihl.append ihr).cons x).trans List.perm_middle.symm

end traversals

variable [LinearOrder K] (key : α → K)

/-- Every key is above those on its left and below those on its right. -/
def Ordered : BinaryTree α → Prop
  | .nil => True
  | .node x l r => (∀ y ∈ inorder l, key y < key x) ∧ (∀ y ∈ inorder r, key x < key y) ∧
      Ordered l ∧ Ordered r

/-- The tree with a node for `x`, if it has none with the key of `x`. -/
def insert (x : α) : BinaryTree α → BinaryTree α
  | .nil => .node x .nil .nil
  | .node y l r =>
    if key x < key y then .node y (insert x l) r
    else if key y < key x then .node y l (insert x r)
    else .node y l r

variable {key} {x y : α} {l r t : BinaryTree α}

@[simp] theorem insert_nil : insert key x .nil = .node x .nil .nil := rfl

theorem insert_left (h : key x < key y) : insert key x (.node y l r) = .node y (insert key x l) r :=
  if_pos h

theorem insert_right (h : key y < key x) :
    insert key x (.node y l r) = .node y l (insert key x r) := by
  rw [insert, if_neg h.asymm, if_pos h]

theorem insert_here (h : key x = key y) : insert key x (.node y l r) = .node y l r := by
  rw [insert, if_neg h.not_lt, if_neg h.not_gt]

theorem insert_ne_nil : insert key x t ≠ .nil := by
  cases t with
  | nil => simp
  | node y l r =>
    rw [insert]
    split_ifs <;> simp

/-! ### Order -/

theorem Ordered.pairwise (h : Ordered key t) : (inorder t).Pairwise (key · < key ·) := by
  induction t with
  | nil => exact .nil
  | node x l r ihl ihr =>
    obtain ⟨hl, hr, hol, hor⟩ := h
    rw [inorder_node, List.pairwise_append, List.pairwise_cons]
    refine ⟨ihl hol, ⟨hr, ihr hor⟩, ?_⟩
    intro y hy z hz
    rcases List.mem_cons.mp hz with rfl | hz
    · exact hl y hy
    · exact (hl y hy).trans (hr z hz)

theorem ordered_map (f : β → α) (t : BinaryTree β) :
    Ordered key (t.map f) ↔ Ordered (key ∘ f) t := by
  induction t with
  | nil => exact Iff.rfl
  | node x l r ihl ihr =>
    rw [BinaryTree.map, Ordered, Ordered, ihl, ihr, inorder_map, inorder_map, List.forall_mem_map,
      List.forall_mem_map]
    rfl

theorem Ordered.mem_left (h : Ordered key (.node y l r)) (hx : x ∈ inorder (.node y l r))
    (hlt : key x < key y) : x ∈ inorder l := by
  rcases mem_inorder_node.mp hx with rfl | hx | hx
  · exact absurd hlt (lt_irrefl _)
  · exact hx
  · exact absurd hlt (h.2.1 x hx).asymm

theorem Ordered.mem_right (h : Ordered key (.node y l r)) (hx : x ∈ inorder (.node y l r))
    (hlt : key y < key x) : x ∈ inorder r := by
  rcases mem_inorder_node.mp hx with rfl | hx | hx
  · exact absurd hlt (lt_irrefl _)
  · exact absurd hlt (h.1 x hx).asymm
  · exact hx

/-! ### Insertion -/

theorem inorder_insert (t : BinaryTree α) (hx : ∀ y ∈ inorder t, key y ≠ key x) :
    (inorder (insert key x t)).Perm (x :: inorder t) := by
  induction t with
  | nil => exact .refl _
  | node y l r ihl ihr =>
    rcases lt_trichotomy (key x) (key y) with hlt | heq | hgt
    · rw [insert_left hlt]
      have hl := ihl fun z hz => hx z (mem_inorder_node.mpr (.inr (.inl hz)))
      apply hl.append_right
    · exact absurd heq.symm (hx y (mem_inorder_node.mpr (.inl rfl)))
    · rw [insert_right hgt]
      have hr := ihr fun z hz => hx z (mem_inorder_node.mpr (.inr (.inr hz)))
      have hswap : (y :: inorder (insert key x r)).Perm (x :: y :: inorder r) :=
        (hr.cons y).trans (List.Perm.swap x y _)
      exact (hswap.append_left (inorder l)).trans List.perm_middle

theorem mem_inorder_insert (h : y ∈ inorder (insert key x t)) : y = x ∨ y ∈ inorder t := by
  induction t with
  | nil => exact .inl (List.mem_singleton.mp h)
  | node z l r ihl ihr =>
    rcases lt_trichotomy (key x) (key z) with hlt | heq | hgt
    · rw [insert_left hlt, mem_inorder_node] at h
      rw [mem_inorder_node]
      rcases h with rfl | h | h
      · exact .inr (.inl rfl)
      · exact (ihl h).imp_right fun h => .inr (.inl h)
      · exact .inr (.inr (.inr h))
    · rw [insert_here heq] at h
      exact .inr h
    · rw [insert_right hgt, mem_inorder_node] at h
      rw [mem_inorder_node]
      rcases h with rfl | h | h
      · exact .inr (.inl rfl)
      · exact .inr (.inr (.inl h))
      · exact (ihr h).imp_right fun h => .inr (.inr h)

theorem Ordered.insert (h : Ordered key t) (x : α) : Ordered key (insert key x t) := by
  induction t with
  | nil => exact ⟨by simp, by simp, trivial, trivial⟩
  | node y l r ihl ihr =>
    obtain ⟨hl, hr, hol, hor⟩ := id h
    rcases lt_trichotomy (key x) (key y) with hlt | heq | hgt
    · rw [insert_left hlt]
      refine ⟨fun z hz => ?_, hr, ihl hol, hor⟩
      rcases mem_inorder_insert hz with rfl | hz
      · exact hlt
      · exact hl z hz
    · rwa [insert_here heq]
    · rw [insert_right hgt]
      refine ⟨hl, fun z hz => ?_, hol, ihr hor⟩
      rcases mem_inorder_insert hz with rfl | hz
      · exact hgt
      · exact hr z hz

theorem Ordered.insert_of_mem (h : Ordered key t) (hy : y ∈ inorder t) (heq : key y = key x) :
    SearchTree.insert key x t = t := by
  induction t with
  | nil => simp at hy
  | node z l r ihl ihr =>
    obtain ⟨-, -, hol, hor⟩ := id h
    rcases lt_trichotomy (key x) (key z) with hlt | hxz | hgt
    · rw [insert_left hlt, ihl hol (h.mem_left hy (heq ▸ hlt))]
    · exact insert_here hxz
    · rw [insert_right hgt, ihr hor (h.mem_right hy (heq ▸ hgt))]

theorem Ordered.mem_keys_insert (h : Ordered key t) {k : K} :
    k ∈ (inorder (SearchTree.insert key x t)).map key ↔ k = key x ∨ k ∈ (inorder t).map key := by
  by_cases hx : ∀ y ∈ inorder t, key y ≠ key x
  · rw [((inorder_insert t hx).map key).mem_iff, List.map_cons, List.mem_cons]
  · push Not at hx
    obtain ⟨y, hy, heq⟩ := hx
    rw [h.insert_of_mem hy heq]
    refine ⟨.inr, ?_⟩
    rintro (rfl | hk)
    · exact heq ▸ List.mem_map_of_mem hy
    · exact hk

theorem map_insert (key : α → K) (x : α) (t : BinaryTree α) :
    (insert key x t).map key = insert id (key x) (t.map key) := by
  induction t with
  | nil => rfl
  | node y l r ihl ihr =>
    rw [BinaryTree.map]
    rcases lt_trichotomy (key x) (key y) with hlt | heq | hgt
    · have hlt' : id (key x) < id (key y) := hlt
      rw [insert_left hlt, BinaryTree.map, ihl, insert_left hlt']
    · have heq' : id (key x) = id (key y) := heq
      rw [insert_here heq, BinaryTree.map, insert_here heq']
    · have hgt' : id (key y) < id (key x) := hgt
      rw [insert_right hgt, BinaryTree.map, ihr, insert_right hgt']

/-! ### Building a tree -/

theorem mem_keys_foldl_insert (xs : List α) (h : Ordered key t) {k : K} :
    k ∈ (inorder (xs.foldl (fun t x => SearchTree.insert key x t) t)).map key ↔
      k ∈ xs.map key ∨ k ∈ (inorder t).map key := by
  induction xs generalizing t with
  | nil => simp
  | cons x xs ih =>
    rw [List.foldl_cons, ih (h.insert x), h.mem_keys_insert, List.map_cons, List.mem_cons, or_left_comm,
      or_assoc]

variable {xs : List α}

theorem foldl_insert_left (h : ∀ x ∈ xs, key x < key y) :
    xs.foldl (fun t x => insert key x t) (.node y l r) =
      .node y (xs.foldl (fun t x => insert key x t) l) r := by
  induction xs generalizing l with
  | nil => rfl
  | cons x xs ih =>
    obtain ⟨hx, hxs⟩ := List.forall_mem_cons.mp h
    rw [List.foldl_cons, insert_left hx, ih hxs, List.foldl_cons]

theorem foldl_insert_right (h : ∀ x ∈ xs, key y < key x) :
    xs.foldl (fun t x => insert key x t) (.node y l r) =
      .node y l (xs.foldl (fun t x => insert key x t) r) := by
  induction xs generalizing r with
  | nil => rfl
  | cons x xs ih =>
    obtain ⟨hx, hxs⟩ := List.forall_mem_cons.mp h
    rw [List.foldl_cons, insert_right hx, ih hxs, List.foldl_cons]

theorem Ordered.foldl_insert_preorder (h : Ordered key t) :
    (preorder t).foldl (fun t x => SearchTree.insert key x t) .nil = t := by
  induction t with
  | nil => rfl
  | node x l r ihl ihr =>
    obtain ⟨hl, hr, hol, hor⟩ := h
    have hl' : ∀ y ∈ preorder l, key y < key x := fun y hy =>
      hl y ((preorder_perm l).mem_iff.mp hy)
    have hr' : ∀ y ∈ preorder r, key x < key y := fun y hy =>
      hr y ((preorder_perm r).mem_iff.mp hy)
    rw [preorder_node, List.foldl_cons, insert_nil, List.foldl_append, foldl_insert_left hl', ihl hol,
      foldl_insert_right hr', ihr hor]

/-! ### Postorder -/

/-- Every node behind those below it, those on the left first. -/
def postorder : BinaryTree α → List α
  | .nil => []
  | .node x l r => postorder l ++ postorder r ++ [x]

@[simp] theorem postorder_node {x : α} {l r : BinaryTree α} :
    postorder (.node x l r) = postorder l ++ postorder r ++ [x] := rfl

theorem postorder_map (f : α → β) (t : BinaryTree α) : postorder (t.map f) = (postorder t).map f := by
  induction t with
  | nil => rfl
  | node x l r ihl ihr =>
    rw [BinaryTree.map, postorder_node, postorder_node, ihl, ihr, List.map_append, List.map_append,
      List.map_singleton]

theorem postorder_perm (t : BinaryTree α) : (postorder t).Perm (inorder t) := by
  induction t with
  | nil => exact .refl _
  | node x l r ihl ihr =>
    rw [postorder_node, inorder_node, List.append_assoc]
    exact ihl.append ((ihr.append_right [x]).trans (List.perm_append_singleton x _))

theorem Ordered.foldl_insert_postorder (h : Ordered key t) :
    (postorder t).reverse.foldl (fun t x => SearchTree.insert key x t) .nil = t := by
  induction t with
  | nil => rfl
  | node x l r ihl ihr =>
    obtain ⟨hl, hr, hol, hor⟩ := h
    have hl' : ∀ y ∈ (postorder l).reverse, key y < key x := fun y hy =>
      hl y ((postorder_perm l).mem_iff.mp (List.mem_reverse.mp hy))
    have hr' : ∀ y ∈ (postorder r).reverse, key x < key y := fun y hy =>
      hr y ((postorder_perm r).mem_iff.mp (List.mem_reverse.mp hy))
    rw [postorder_node, List.reverse_append, List.reverse_append, List.reverse_singleton, List.singleton_append,
      List.foldl_cons, insert_nil, List.foldl_append, foldl_insert_right hr', ihr hor, foldl_insert_left hl', ihl hol]

end CodingForFun.Lib.SearchTree
