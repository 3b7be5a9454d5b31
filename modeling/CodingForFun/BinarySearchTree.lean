import CodingForFun.Bstproblems

/-!
# The search tree of `binarysearchtree.c`

`insert`, `findnode` and the depth-first traversals of `src/binarysearchtree.c`. The tree in memory is
followed through the insertions as the tree of its addresses and values: an insertion is the insertion of
a search tree (`insert_ok`), so what holds of search trees holds of the tree after any sequence of calls
(`insertAll_holds`, `preorder_rebuilds`).
-/

namespace CodingForFun.BinarySearchTree

open Lib Lib.Memory Lib.SearchTree

/-- `struct node`. The traversals are those of `node_t`, which has the same members in the same order;
there the value is called `key`. -/
abbrev Node := Bstproblems.Node

abbrev Node.value (n : Node) : ℤ := n.key

/-- The variable `tree`, and the nodes in memory. -/
structure State where
  heap : Memory Node
  tree : Option ℕ

def State.empty : State := ⟨.empty, none⟩

/-- The loop of `insert`, cut off after `fuel` rounds. -/
def insertLoop (value : ℤ) (new : Option ℕ) :
    ℕ → Memory Node → Option ℕ → Except Fault (Memory Node)
  | 0, _, _ => .error .unbounded
  | fuel + 1, h, p => do
    if p = none then
      pure h
    else if (← h.read p).value > value then
      if (← h.read p).left ≠ none then
        insertLoop value new fuel h (← h.read p).left
      else
        h.modify p fun n => { n with left := new }
    else if (← h.read p).value < value then
      if (← h.read p).right ≠ none then
        insertLoop value new fuel h (← h.read p).right
      else
        h.modify p fun n => { n with right := new }
    else
      -- Duplicate
      pure h

def insert (s : State) (value : ℤ) : Except Fault State := do
  let new := some s.heap.fresh
  let h := s.heap.alloc ⟨none, none, 0⟩
  let h ← h.modify new fun n => { n with key := value }
  if s.tree = none then
    return ⟨h, new⟩
  let h ← insertLoop value new (h.fresh + 1) h s.tree
  pure ⟨h, s.tree⟩

/-- The loop of `findnode`, cut off after `fuel` rounds. -/
def findLoop (value : ℤ) : ℕ → Memory Node → Option ℕ → Except Fault (Option ℕ)
  | 0, _, _ => .error .unbounded
  | fuel + 1, h, p => do
    if p = none then
      -- Couldnt find node
      pure none
    else if (← h.read p).value = value then
      pure p
    else if (← h.read p).value > value then
      findLoop value fuel h (← h.read p).left
    else
      findLoop value fuel h (← h.read p).right

def findnode (s : State) (value : ℤ) : Except Fault (Option ℕ) := do
  if s.tree = none then
    return none
  findLoop value (s.heap.fresh + 1) s.heap s.tree

/-- `dfs_inorder(tree)` -/
def dfsInorder (s : State) : Except Fault (List ℤ) := do
  if s.tree = none then
    return []
  let left ← Bstproblems.traverseInorder s.heap (s.heap.fresh + 1) (← s.heap.read s.tree).left
  let current := (← s.heap.read s.tree).key
  let right ← Bstproblems.traverseInorder s.heap (s.heap.fresh + 1) (← s.heap.read s.tree).right
  pure (left ++ current :: right)

/-- `dfs_preorder(tree)` -/
def dfsPreorder (s : State) : Except Fault (List ℤ) := do
  if s.tree = none then
    return []
  let current := (← s.heap.read s.tree).key
  let left ← Bstproblems.traversePreorder s.heap (s.heap.fresh + 1) (← s.heap.read s.tree).left
  let right ← Bstproblems.traversePreorder s.heap (s.heap.fresh + 1) (← s.heap.read s.tree).right
  pure (current :: (left ++ right))

section loops

variable {h : Memory Node} {value : ℤ} {a : ℕ} {n : Node}

theorem insertLoop_descends (value : ℤ) (new : Option ℕ) : Descends (insertLoop value new) value where
  goLeft := by
    intro fuel h a n hn hlt hl
    have hlt : value < n.value := hlt
    have hl : n.left ≠ none := hl
    rw [insertLoop, if_neg (Option.some_ne_none a), Memory.read_some hn]
    simp only [ok_bind]
    rw [if_pos hlt, if_pos hl]
    rfl
  goRight := by
    intro fuel h a n hn hlt hr
    have hlt : n.value < value := hlt
    have hr : n.right ≠ none := hr
    rw [insertLoop, if_neg (Option.some_ne_none a), Memory.read_some hn]
    simp only [ok_bind]
    rw [if_neg hlt.asymm, if_pos hlt, if_pos hr]
    rfl

theorem insertLoop_here (new : Option ℕ) (fuel : ℕ) (hn : h.node a = some n) (hv : n.value = value) :
    insertLoop value new (fuel + 1) h (some a) = .ok h := by
  rw [insertLoop, if_neg (Option.some_ne_none a), Memory.read_some hn]
  simp only [ok_bind]
  rw [if_neg hv.not_gt, if_neg hv.not_lt, pure_eq_ok]

theorem insertLoop_free (new fuel : ℕ) (hn : h.node a = some n) (hfree : Free value n) :
    insertLoop value (some new) (fuel + 1) h (some a) = .ok (h.update a (attach value new)) := by
  rw [insertLoop, if_neg (Option.some_ne_none a), Memory.read_some hn]
  simp only [ok_bind]
  rcases hfree with ⟨hlt, hnone⟩ | ⟨hlt, hnone⟩
  · have hlt' : value < n.value := hlt
    have hnone : n.left = none := hnone
    rw [if_pos hlt', if_neg (not_not.mpr hnone), Memory.modify_some hn]
    exact congrArg Except.ok (Memory.update_congr hn (if_pos hlt).symm)
  · have hlt' : n.value < value := hlt
    have hnone : n.right = none := hnone
    rw [if_neg hlt'.asymm, if_pos hlt', if_neg (not_not.mpr hnone), Memory.modify_some hn]
    exact congrArg Except.ok (Memory.update_congr hn (if_neg hlt.asymm).symm)

theorem findLoop_left (fuel : ℕ) (hn : h.node a = some n) (hlt : value < n.value) :
    findLoop value (fuel + 1) h (some a) = findLoop value fuel h n.left := by
  rw [findLoop, if_neg (Option.some_ne_none a), Memory.read_some hn]
  simp only [ok_bind]
  rw [if_neg hlt.ne', if_pos hlt]

theorem findLoop_right (fuel : ℕ) (hn : h.node a = some n) (hlt : n.value < value) :
    findLoop value (fuel + 1) h (some a) = findLoop value fuel h n.right := by
  rw [findLoop, if_neg (Option.some_ne_none a), Memory.read_some hn]
  simp only [ok_bind]
  rw [if_neg hlt.ne, if_neg hlt.asymm]

theorem findLoop_descends (value : ℤ) : Descends (findLoop value) value where
  goLeft fuel _ _ _ hn hlt _ := findLoop_left fuel hn hlt
  goRight fuel _ _ _ hn hlt _ := findLoop_right fuel hn hlt

theorem findLoop_here (fuel : ℕ) (hn : h.node a = some n) (hv : n.value = value) :
    findLoop value (fuel + 1) h (some a) = .ok (some a) := by
  rw [findLoop, if_neg (Option.some_ne_none a), Memory.read_some hn, ok_bind, if_pos hv, pure_eq_ok]

theorem findLoop_free (fuel : ℕ) (hn : h.node a = some n) (hfree : Free value n) :
    findLoop value (fuel + 2) h (some a) = .ok none := by
  have hend : findLoop value (fuel + 1) h none = .ok none := by rw [findLoop, if_pos rfl, pure_eq_ok]
  rcases hfree with ⟨hlt, hnone⟩ | ⟨hlt, hnone⟩
  · have hnone : n.left = none := hnone
    rw [findLoop_left _ hn hlt, hnone, hend]
  · have hnone : n.right = none := hnone
    rw [findLoop_right _ hn hlt, hnone, hend]

end loops

/-! ### The calls -/

/-- The nodes of `tree`, which is a search tree. -/
def IsSearchTree (s : State) (t : BinaryTree (ℕ × ℤ)) : Prop :=
  s.heap.IsTree s.tree t ∧ Ordered Prod.snd t

theorem isSearchTree_empty : IsSearchTree .empty .nil := ⟨rfl, trivial⟩

section calls

variable {s : State} {t : BinaryTree (ℕ × ℤ)} {x : ℕ × ℤ}

theorem newNode (h : Memory Node) (value : ℤ) :
    ∃ h', (h.alloc ⟨none, none, 0⟩).modify (some h.fresh) (fun n => { n with key := value }) = .ok h' ∧
      h'.fresh = h.fresh + 1 ∧
      h'.IsTree (some h.fresh) (.node (h.fresh, value) .nil .nil) ∧
      ∀ {p : Option ℕ} {t : BinaryTree (ℕ × ℤ)}, h.IsTree p t → h'.IsTree p t := by
  refine ⟨_, Memory.modify_some Memory.alloc_self _, rfl, ⟨rfl, ⟨none, none, value⟩, ?_, rfl, rfl, rfl⟩, ?_⟩
  · rw [Memory.update_self, Memory.alloc_self]
    rfl
  · intro p t ht
    exact (ht.alloc _).update (fun hmem => (ht.lt_fresh hmem).false) _

theorem insert_ok (h : IsSearchTree s t) (value : ℤ) :
    ∃ s', insert s value = .ok s' ∧
      IsSearchTree s' (SearchTree.insert Prod.snd (s.heap.fresh, value) t) := by
  obtain ⟨ht, ho⟩ := h
  obtain ⟨h', hnew, hfresh, hleaf, hold⟩ := newNode s.heap value
  rw [insert, hnew]
  simp only [ok_bind]
  by_cases hnone : s.tree = none
  · rw [if_pos hnone, ht.eq_none_iff.mp hnone]
    exact ⟨_, rfl, hleaf, ⟨by simp, by simp, trivial, trivial⟩⟩
  · rw [if_neg hnone, hfresh]
    have hne : t ≠ .nil := fun hnil => hnone (ht.eq_none_iff.mpr hnil)
    have hlength := ht.length_le ho
    by_cases hk : ∀ x ∈ inorder t, x.2 ≠ value
    · obtain ⟨fuel, b, hrun, hb⟩ :=
        (insertLoop_descends value (some s.heap.fresh)).missing hk (s.heap.fresh + 1) (hold ht) hne
          (ht.nodup ho) (Nat.le_succ_of_le hlength)
      obtain ⟨n, hn, hfree⟩ := hb.free
      rw [hrun, insertLoop_free _ _ hn hfree, ok_bind]
      exact ⟨_, rfl, hb.insert _ hleaf fun hmem => (ht.lt_fresh hmem).false, ho.insert _⟩
    · push Not at hk
      obtain ⟨x, hx, rfl⟩ := hk
      obtain ⟨n, hn, hv⟩ := (hold ht).node hx
      obtain ⟨fuel, hrun⟩ := (insertLoop_descends x.2 (some s.heap.fresh)).found hx rfl
        (s.heap.fresh + 1 + 1) (hold ht) ho (by omega)
      have hsame : SearchTree.insert Prod.snd (s.heap.fresh, x.2) t = t := ho.insert_of_mem hx rfl
      rw [hrun, insertLoop_here _ _ hn hv, ok_bind, hsame]
      exact ⟨_, rfl, hold ht, ho⟩

theorem findnode_mem (h : IsSearchTree s t) (hx : x ∈ inorder t) :
    findnode s x.2 = .ok (some x.1) := by
  obtain ⟨ht, ho⟩ := h
  obtain ⟨n, hn, hv⟩ := ht.node hx
  obtain ⟨fuel, hrun⟩ := (findLoop_descends x.2).found hx rfl (s.heap.fresh + 1) ht ho
    (Nat.le_succ_of_le (ht.length_le ho))
  have hsome : s.tree ≠ none := by
    rw [ne_eq, ht.eq_none_iff]
    rintro rfl
    simp at hx
  rw [findnode, if_neg hsome, hrun, findLoop_here _ hn hv]

theorem findnode_missing (h : IsSearchTree s t) {value : ℤ} (hv : ∀ x ∈ inorder t, x.2 ≠ value) :
    findnode s value = .ok none := by
  obtain ⟨ht, ho⟩ := h
  rw [findnode]
  by_cases hnone : s.tree = none
  · rw [if_pos hnone, pure_eq_ok]
  · obtain ⟨fuel, b, hrun, hb⟩ := (findLoop_descends value).missing hv s.heap.fresh ht
      (fun hnil => hnone (ht.eq_none_iff.mpr hnil)) (ht.nodup ho) (ht.length_le ho)
    obtain ⟨n, hn, hfree⟩ := hb.free
    rw [if_neg hnone, hrun, findLoop_free _ hn hfree]

/-- The printing functions are those of `bstproblems.c`. -/
theorem dfsInorder_eq (s : State) :
    dfsInorder s = Bstproblems.traverseInorder s.heap (s.heap.fresh + 1 + 1) s.tree := rfl

@[inherit_doc dfsInorder_eq]
theorem dfsPreorder_eq (s : State) :
    dfsPreorder s = Bstproblems.traversePreorder s.heap (s.heap.fresh + 1 + 1) s.tree := rfl

theorem dfsInorder_ok (h : IsSearchTree s t) : dfsInorder s = .ok ((inorder t).map Prod.snd) := by
  obtain ⟨ht, ho⟩ := h
  have hlength := ht.length_le ho
  rw [dfsInorder_eq]
  exact Bstproblems.traverseInorder_ok _ ht (by omega)

theorem dfsPreorder_ok (h : IsSearchTree s t) : dfsPreorder s = .ok ((preorder t).map Prod.snd) := by
  obtain ⟨ht, ho⟩ := h
  have hlength := ht.length_le ho
  rw [dfsPreorder_eq]
  exact Bstproblems.traversePreorder_ok _ ht (by omega)

end calls

/-! ### Any sequence of insertions -/

theorem insertAll_ok (vs : List ℤ) :
    ∀ {s : State} {t : BinaryTree (ℕ × ℤ)}, IsSearchTree s t →
      ∃ s' t', vs.foldlM insert s = .ok s' ∧ IsSearchTree s' t' ∧
        t'.map Prod.snd = vs.foldl (fun t v => SearchTree.insert id v t) (t.map Prod.snd) := by
  induction vs with
  | nil =>
    intro s t h
    exact ⟨s, t, rfl, h, rfl⟩
  | cons v vs ih =>
    intro s t h
    obtain ⟨s₁, hs₁, h₁⟩ := insert_ok h v
    obtain ⟨s', t', hs', h', hmap⟩ := ih h₁
    refine ⟨s', t', ?_, h', ?_⟩
    · rw [List.foldlM_cons, hs₁, ok_bind, hs']
    · rw [hmap, SearchTree.map_insert, List.foldl_cons]

/-- What the tree is once the values `vs` have been inserted. -/
def Holds (s : State) (vs : List ℤ) : Prop :=
  ∃ t, s.heap.IsTree s.tree t ∧ Ordered Prod.snd t ∧
    (∃ out, dfsInorder s = .ok out ∧ out.Pairwise (· < ·) ∧ ∀ v, v ∈ out ↔ v ∈ vs) ∧
    (∀ v ∈ vs, ∃ s', insert s v = .ok s' ∧ s'.heap.IsTree s'.tree t) ∧
    (∀ v ∈ vs, ∃ a n, findnode s v = .ok (some a) ∧ s.heap.Reaches s.tree a ∧
      s.heap.node a = some n ∧ n.value = v) ∧
    ∀ v ∉ vs, findnode s v = .ok none

theorem insertAll_holds (vs : List ℤ) : ∃ s, vs.foldlM insert .empty = .ok s ∧ Holds s vs := by
  obtain ⟨s, t, hs, h, hmap⟩ := insertAll_ok vs isSearchTree_empty
  have hmem : ∀ v, v ∈ (inorder t).map Prod.snd ↔ v ∈ vs := by
    intro v
    have hnil : Ordered (id : ℤ → ℤ) .nil := trivial
    rw [← inorder_map, hmap, ← List.map_id (inorder _)]
    exact (mem_keys_foldl_insert vs hnil).trans (by simp)
  refine ⟨s, hs, t, h.1, h.2, ⟨_, dfsInorder_ok h, List.pairwise_map.mpr h.2.pairwise, hmem⟩, ?_, ?_, ?_⟩
  · intro v hv
    obtain ⟨x, hx, rfl⟩ := List.mem_map.mp ((hmem v).mpr hv)
    obtain ⟨s', hs', h'⟩ := insert_ok h x.2
    have hsame : SearchTree.insert Prod.snd (s.heap.fresh, x.2) t = t := h.2.insert_of_mem hx rfl
    rw [hsame] at h'
    exact ⟨s', hs', h'.1⟩
  · intro v hv
    obtain ⟨x, hx, rfl⟩ := List.mem_map.mp ((hmem v).mpr hv)
    obtain ⟨n, hn, hk⟩ := h.1.node hx
    exact ⟨x.1, n, findnode_mem h hx, h.1.reaches_iff.mpr (mem_addresses hx), hn, hk⟩
  · intro v hv
    refine findnode_missing h fun x hx hxv => hv ?_
    exact (hmem v).mp (hxv ▸ List.mem_map_of_mem hx)

/-- The values that `dfs_preorder` prints build the tree again. -/
theorem preorder_rebuilds (vs : List ℤ) :
    ∃ s t out s' t', vs.foldlM insert .empty = .ok s ∧ s.heap.IsTree s.tree t ∧
      dfsPreorder s = .ok out ∧ out.foldlM insert .empty = .ok s' ∧ s'.heap.IsTree s'.tree t' ∧
      t'.map Prod.snd = t.map Prod.snd := by
  obtain ⟨s, t, hs, h, -⟩ := insertAll_ok vs isSearchTree_empty
  obtain ⟨s', t', hs', h', hmap⟩ := insertAll_ok ((preorder t).map Prod.snd) isSearchTree_empty
  refine ⟨s, t, _, s', t', hs, h.1, dfsPreorder_ok h, hs', h'.1, ?_⟩
  have ho : Ordered id (t.map Prod.snd) := (ordered_map Prod.snd t).mpr h.2
  rw [hmap, ← preorder_map]
  exact ho.foldl_insert_preorder

end CodingForFun.BinarySearchTree
