import CodingForFun.Lib.LinkedTree
import Mathlib.Data.Int.Order.Basic

/-!
# The search tree that frees the wrong node

The binary search tree of `src/bstproblems.c`. `insert` allocates the new node before it looks where
the key belongs; when it finds the key in the tree, it frees the node that it found instead of the new
one. The node above still links to it, or the root of the tree is gone. So an insertion does what it is
for exactly when the key is not in the tree (`meets_iff`).
-/

namespace CodingForFun.Bstproblems

open Lib Lib.Memory Lib.SearchTree

/-- `struct node` -/
structure Node where
  left : Option ℕ
  right : Option ℕ
  key : ℤ

instance : TreeNode Node ℤ where
  left := Node.left
  right := Node.right
  key := Node.key
  setLeft n q := { n with left := q }
  setRight n q := { n with right := q }
  left_setLeft _ _ := rfl
  right_setLeft _ _ := rfl
  key_setLeft _ _ := rfl
  left_setRight _ _ := rfl
  right_setRight _ _ := rfl
  key_setRight _ _ := rfl

def allocNode (h : Memory Node) (key : ℤ) : Option ℕ × Memory Node :=
  (some h.fresh, h.alloc ⟨none, none, key⟩)

def initTree (h : Memory Node) (key : ℤ) : Option ℕ × Memory Node := allocNode h key

/-- The loop of `insert`, cut off after `fuel` rounds. -/
def insertLoop (key : ℤ) (newnode : Option ℕ) :
    ℕ → Memory Node → Option ℕ → Except Fault (Memory Node)
  | 0, _, _ => .error .unbounded
  | fuel + 1, h, ptr => do
    if ptr = none then
      -- Failed to insert key
      pure h
    else if (← h.read ptr).key = key then
      -- key is already in tree
      h.free ptr
    else if (← h.read ptr).key > key then
      if (← h.read ptr).left = none then
        h.modify ptr fun n => { n with left := newnode }
      else
        insertLoop key newnode fuel h (← h.read ptr).left
    else if (← h.read ptr).key < key then
      if (← h.read ptr).right = none then
        h.modify ptr fun n => { n with right := newnode }
      else
        insertLoop key newnode fuel h (← h.read ptr).right
    else
      insertLoop key newnode fuel h ptr

def insert (h : Memory Node) (root : Option ℕ) (key : ℤ) : Except Fault (Memory Node) := do
  let (newnode, h) := allocNode h key
  insertLoop key newnode (h.fresh + 1) h root

/-- The keys in the order in which they are printed; cut off when the recursion is `fuel` deep. -/
def traverseInorder (h : Memory Node) : ℕ → Option ℕ → Except Fault (List ℤ)
  | 0, _ => .error .unbounded
  | fuel + 1, node => do
    if node = none then
      return []
    let left ← traverseInorder h fuel (← h.read node).left
    let current := (← h.read node).key
    let right ← traverseInorder h fuel (← h.read node).right
    pure (left ++ current :: right)

def traversePreorder (h : Memory Node) : ℕ → Option ℕ → Except Fault (List ℤ)
  | 0, _ => .error .unbounded
  | fuel + 1, node => do
    if node = none then
      return []
    let current := (← h.read node).key
    let left ← traversePreorder h fuel (← h.read node).left
    let right ← traversePreorder h fuel (← h.read node).right
    pure (current :: (left ++ right))

section lemmas

variable {h h' : Memory Node} {p : Option ℕ} {t : BinaryTree (ℕ × ℤ)} {key : ℤ} {x : ℕ × ℤ}

/-! ### The traversals -/

theorem traverseInorder_ok (fuel : ℕ) (ht : h.IsTree p t) (hfuel : (inorder t).length < fuel) :
    traverseInorder h fuel p = .ok ((inorder t).map Prod.snd) := by
  apply ht.walk_ok (traverseInorder h) (fun t => (inorder t).map Prod.snd) _ _ hfuel
  · intro fuel
    rfl
  · intro fuel n x l r hn hk hleft hright
    have hkey : n.key = x.2 := hk
    have hleft : traverseInorder h fuel n.left = _ := hleft
    have hright : traverseInorder h fuel n.right = _ := hright
    rw [traverseInorder, if_neg (Option.some_ne_none x.1), Memory.read_some hn]
    simp only [ok_bind]
    rw [hleft, ok_bind, hright, ok_bind, hkey, inorder_node, List.map_append, List.map_cons, pure_eq_ok]

theorem traversePreorder_ok (fuel : ℕ) (ht : h.IsTree p t) (hfuel : (inorder t).length < fuel) :
    traversePreorder h fuel p = .ok ((preorder t).map Prod.snd) := by
  apply ht.walk_ok (traversePreorder h) (fun t => (preorder t).map Prod.snd) _ _ hfuel
  · intro fuel
    rfl
  · intro fuel n x l r hn hk hleft hright
    have hkey : n.key = x.2 := hk
    have hleft : traversePreorder h fuel n.left = _ := hleft
    have hright : traversePreorder h fuel n.right = _ := hright
    rw [traversePreorder, if_neg (Option.some_ne_none x.1), Memory.read_some hn]
    simp only [ok_bind]
    rw [hleft, ok_bind, hright, ok_bind, hkey, preorder_node, List.map_cons, List.map_append, pure_eq_ok]

/-! ### The loop -/

theorem insertLoop_descends (key : ℤ) (newnode : Option ℕ) :
    Descends (insertLoop key newnode) key where
  goLeft := by
    intro fuel h a n hn hlt hl
    have hlt : key < n.key := hlt
    have hl : n.left ≠ none := hl
    rw [insertLoop, if_neg (Option.some_ne_none a), Memory.read_some hn]
    simp only [ok_bind]
    rw [if_neg hlt.ne', if_pos hlt, if_neg hl]
    rfl
  goRight := by
    intro fuel h a n hn hlt hr
    have hlt : n.key < key := hlt
    have hr : n.right ≠ none := hr
    rw [insertLoop, if_neg (Option.some_ne_none a), Memory.read_some hn]
    simp only [ok_bind]
    rw [if_neg hlt.ne, if_neg hlt.asymm, if_pos hlt, if_neg hr]
    rfl

theorem insertLoop_here (newnode : Option ℕ) (fuel : ℕ) {a : ℕ} {n : Node} (hn : h.node a = some n)
    (hk : n.key = key) : insertLoop key newnode (fuel + 1) h (some a) = .ok (h.erase a) := by
  rw [insertLoop, if_neg (Option.some_ne_none a), Memory.read_some hn, ok_bind, if_pos hk,
    Memory.free_some hn]

theorem insertLoop_free (new fuel : ℕ) {a : ℕ} {n : Node} (hn : h.node a = some n)
    (hfree : Free key n) :
    insertLoop key (some new) (fuel + 1) h (some a) = .ok (h.update a (attach key new)) := by
  rw [insertLoop, if_neg (Option.some_ne_none a), Memory.read_some hn]
  simp only [ok_bind]
  rcases hfree with ⟨hlt, hnone⟩ | ⟨hlt, hnone⟩
  · have hlt' : key < n.key := hlt
    have hnone : n.left = none := hnone
    rw [if_neg hlt'.ne', if_pos hlt', if_pos hnone, Memory.modify_some hn]
    exact congrArg Except.ok (Memory.update_congr hn (if_pos hlt).symm)
  · have hlt' : n.key < key := hlt
    have hnone : n.right = none := hnone
    rw [if_neg hlt'.ne, if_neg hlt'.asymm, if_pos hlt', if_pos hnone, Memory.modify_some hn]
    exact congrArg Except.ok (Memory.update_congr hn (if_neg hlt.asymm).symm)

/-! ### Insertion -/

theorem isTree_leaf (h : Memory Node) (key : ℤ) :
    (h.alloc ⟨none, none, key⟩).IsTree (some h.fresh) (.node (h.fresh, key) .nil .nil) :=
  ⟨rfl, _, Memory.alloc_self, rfl, rfl, rfl⟩

theorem insert_found (ht : h.IsTree p t) (ho : Ordered Prod.snd t) (hx : x ∈ inorder t) :
    insert h p x.2 = .ok ((h.alloc ⟨none, none, x.2⟩).erase x.1) := by
  have ht' := ht.alloc ⟨none, none, x.2⟩
  obtain ⟨n, hn, hk⟩ := ht'.node hx
  obtain ⟨fuel, hrun⟩ := (insertLoop_descends x.2 (some h.fresh)).found hx rfl
    ((h.alloc ⟨none, none, x.2⟩).fresh + 1) ht' ho (Nat.le_succ_of_le (ht'.length_le ho))
  rw [insert]
  exact hrun.trans (insertLoop_here _ _ hn hk)

theorem insert_missing (ht : h.IsTree p t) (ho : Ordered Prod.snd t) (hne : t ≠ .nil)
    (hk : ∀ x ∈ inorder t, x.2 ≠ key) :
    ∃ b, insert h p key = .ok ((h.alloc ⟨none, none, key⟩).update b (attach key h.fresh)) ∧
      ((h.alloc ⟨none, none, key⟩).update b (attach key h.fresh)).IsTree p
        (SearchTree.insert Prod.snd (h.fresh, key) t) := by
  have ht' := ht.alloc ⟨none, none, key⟩
  obtain ⟨fuel, b, hrun, hb⟩ := (insertLoop_descends key (some h.fresh)).missing hk
    (h.alloc ⟨none, none, key⟩).fresh ht' hne (ht'.nodup ho) (ht'.length_le ho)
  obtain ⟨n, hn, hfree⟩ := hb.free
  refine ⟨b, ?_, hb.insert h.fresh (isTree_leaf h key) fun hmem => (ht.lt_fresh hmem).false⟩
  rw [insert]
  exact hrun.trans (insertLoop_free h.fresh _ hn hfree)

end lemmas

/-! ### The trees that are built -/

/-- No node has been freed. -/
def NoneFreed (h : Memory Node) : Prop := ∀ a < h.fresh, h.node a ≠ none

/-- A tree built by `insert` from `init_tree`, with no node freed. -/
inductive Built : Memory Node → Option ℕ → Prop
  | initTree {h : Memory Node} (hall : NoneFreed h) (key : ℤ) :
      Built (initTree h key).2 (initTree h key).1
  | insert {h h' : Memory Node} {root : Option ℕ} (hb : Built h root) (key : ℤ)
      (hins : insert h root key = .ok h') (hall : NoneFreed h') : Built h' root

variable {h h' : Memory Node} {root : Option ℕ} {t : BinaryTree (ℕ × ℤ)} {key : ℤ}

theorem Built.isTree (hb : Built h root) :
    ∃ t, h.IsTree root t ∧ Ordered Prod.snd t ∧ t ≠ .nil := by
  induction hb with
  | @initTree h hall key =>
    exact ⟨_, isTree_leaf h key, ⟨by simp, by simp, trivial, trivial⟩, by simp⟩
  | @insert h h' root hb key hins hall ih =>
    obtain ⟨t, ht, ho, hne⟩ := ih
    by_cases hk : ∀ x ∈ inorder t, x.2 ≠ key
    · obtain ⟨b, hrun, ht'⟩ := insert_missing ht ho hne hk
      obtain rfl := Except.ok.inj (hrun.symm.trans hins)
      exact ⟨_, ht', ho.insert _, insert_ne_nil⟩
    · push Not at hk
      obtain ⟨x, hx, rfl⟩ := hk
      obtain rfl := Except.ok.inj ((insert_found ht ho hx).symm.trans hins)
      have hlt : x.1 < h.fresh + 1 := (ht.lt_fresh (mem_addresses hx)).trans (Nat.lt_succ_self _)
      exact absurd Memory.erase_self (hall x.1 hlt)

/-- The key of a node that can be reached. -/
def InTree (h : Memory Node) (root : Option ℕ) (key : ℤ) : Prop :=
  ∃ a n, h.Reaches root a ∧ h.node a = some n ∧ n.key = key

/-- What `insert` is for: nothing that can be reached is gone, and the tree is as before if it has the
key, and has one more node, with the key, otherwise. -/
def Meets (h : Memory Node) (root : Option ℕ) (key : ℤ) : Prop :=
  ∃ h', insert h root key = .ok h' ∧ (∀ a, h'.Reaches root a → h'.node a ≠ none) ∧
    (InTree h root key → ∀ t, h.IsTree root t → h'.IsTree root t) ∧
    (¬ InTree h root key → ∃ t' a, h'.IsTree root t' ∧ Ordered Prod.snd t' ∧ ¬ h.Reaches root a ∧
      ∀ t, h.IsTree root t → (inorder t').Perm ((a, key) :: inorder t))

theorem inTree_iff (ht : h.IsTree root t) : InTree h root key ↔ ∃ x ∈ inorder t, x.2 = key := by
  constructor
  · rintro ⟨a, n, hreach, hn, rfl⟩
    obtain ⟨x, hx, rfl⟩ := List.mem_map.mp (ht.reaches_iff.mp hreach)
    obtain ⟨n', hn', hk⟩ := ht.node hx
    obtain rfl := Option.some.inj (hn.symm.trans hn')
    exact ⟨x, hx, hk.symm⟩
  · rintro ⟨x, hx, rfl⟩
    obtain ⟨n, hn, hk⟩ := ht.node hx
    exact ⟨x.1, n, ht.reaches_iff.mpr (mem_addresses hx), hn, hk⟩

/-- `insert` meets its purpose exactly when the key is not in the tree. -/
theorem meets_iff (hb : Built h root) (key : ℤ) : Meets h root key ↔ ¬ InTree h root key := by
  obtain ⟨t, ht, ho, hne⟩ := hb.isTree
  constructor
  · rintro ⟨h', hrun, hall, -⟩ hin
    obtain ⟨x, hx, rfl⟩ := (inTree_iff ht).mp hin
    obtain rfl := Except.ok.inj ((insert_found ht ho hx).symm.trans hrun)
    have hreach := ((ht.reaches_iff.mpr (mem_addresses hx)).alloc ⟨none, none, x.2⟩).erase
    exact hall x.1 hreach Memory.erase_self
  · intro hnot
    have hk : ∀ x ∈ inorder t, x.2 ≠ key := fun x hx hxk => hnot ((inTree_iff ht).mpr ⟨x, hx, hxk⟩)
    obtain ⟨b, hrun, ht'⟩ := insert_missing ht ho hne hk
    refine ⟨_, hrun, ?_, fun hin => absurd hin hnot, fun _ => ?_⟩
    · intro a ha
      obtain ⟨x, hx, rfl⟩ := List.mem_map.mp (ht'.reaches_iff.mp ha)
      obtain ⟨n, hn, -⟩ := ht'.node hx
      simp [hn]
    · refine ⟨_, h.fresh, ht', ho.insert _, ?_, ?_⟩
      · rw [ht.reaches_iff]
        exact fun hmem => (ht.lt_fresh hmem).false
      · intro t₁ ht₁
        obtain rfl := ht.unique ht₁
        exact inorder_insert t hk

theorem built_oneNode (key : ℤ) : Built (Memory.empty.alloc ⟨none, none, key⟩) (some 0) :=
  .initTree (h := .empty) (fun a ha => absurd ha (Nat.not_lt_zero a)) key

theorem meets_iff_newKey : Meets (Memory.empty.alloc ⟨none, none, 6⟩) (some 0) 4 := by
  refine (meets_iff (built_oneNode 6) 4).mpr fun hin => ?_
  obtain ⟨x, hx, hk⟩ := (inTree_iff (isTree_leaf .empty 6)).mp hin
  obtain rfl := List.mem_singleton.mp hx
  exact absurd hk (by decide)

/-- The root is freed when its key is inserted once more. -/
theorem not_meets_duplicate :
    Built (Memory.empty.alloc ⟨none, none, 6⟩) (some 0) ∧
      ¬ Meets (Memory.empty.alloc ⟨none, none, 6⟩) (some 0) 6 := by
  refine ⟨built_oneNode 6, ?_⟩
  intro h
  obtain ⟨h', hrun, hall, -⟩ := h
  obtain rfl := Except.ok.inj hrun
  exact hall 0 (.here 0) rfl

end CodingForFun.Bstproblems
