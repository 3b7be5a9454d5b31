import CodingForFun.Bstproblems
import CodingForFun.Lib.TreeDepth

/-!
# What is read from the trees

The functions of `src/bstproblems.c` that only read: on a tree that was built without a duplicate, `find_key`
gives back the key or 0, `isbalanced` is true if and only if all levels are full (`isbalanced_iff`), and the keys
that `traverse_postorder` prints build the tree again, from the last one to the first (`postorder_rebuilds`).
-/

namespace CodingForFun.Bstproblems

open Lib Lib.Memory Lib.SearchTree

/-- The loop of `find_key` -/
def findKeyLoop (key : ℤ) : ℕ → Memory Node → Option ℕ → Except Fault ℤ
  | 0, _, _ => .error .unbounded
  | fuel + 1, h, ptr => do
    if ptr = none then
      -- cannot find key
      pure 0
    else if (← h.read ptr).key = key then
      pure (← h.read ptr).key
    else if (← h.read ptr).key > key then
      findKeyLoop key fuel h (← h.read ptr).left
    else
      findKeyLoop key fuel h (← h.read ptr).right

/-- `find_key` -/
def findKey (h : Memory Node) (root : Option ℕ) (key : ℤ) : Except Fault ℤ :=
  findKeyLoop key (h.fresh + 1) h root

/-- `traverse_postorder` -/
def traversePostorder (h : Memory Node) : ℕ → Option ℕ → Except Fault (List ℤ)
  | 0, _ => .error .unbounded
  | fuel + 1, node => do
    if node = none then
      return []
    let left ← traversePostorder h fuel (← h.read node).left
    let right ← traversePostorder h fuel (← h.read node).right
    let current := (← h.read node).key
    pure (left ++ right ++ [current])

def maxdepth (h : Memory Node) : ℕ → Option ℕ → Except Fault ℕ
  | 0, _ => .error .unbounded
  | fuel + 1, node => do
    if node = none then
      return 0
    let nleft ← maxdepth h fuel (← h.read node).left
    let nright ← maxdepth h fuel (← h.read node).right
    if nleft > nright then
      return 1 + nleft
    return 1 + nright

def mindepth (h : Memory Node) : ℕ → Option ℕ → Except Fault ℕ
  | 0, _ => .error .unbounded
  | fuel + 1, node => do
    if node = none then
      return 0
    let nleft ← mindepth h fuel (← h.read node).left
    let nright ← mindepth h fuel (← h.read node).right
    if nleft > nright then
      return 1 + nright
    return 1 + nleft

def isbalanced (h : Memory Node) (fuel : ℕ) (root : Option ℕ) : Except Fault Bool := do
  let min ← mindepth h fuel root
  let max ← maxdepth h fuel root
  pure (min == max)

section walks

variable {h : Memory Node} {p : Option ℕ} {t : BinaryTree (ℕ × ℤ)} {key : ℤ}

theorem traversePostorder_ok (fuel : ℕ) (ht : h.IsTree p t) (hfuel : (inorder t).length < fuel) :
    traversePostorder h fuel p = .ok ((postorder t).map Prod.snd) := by
  apply ht.walk_ok (traversePostorder h) (fun t => (postorder t).map Prod.snd) _ _ hfuel
  · intro fuel
    rfl
  · intro fuel n x l r hn hk hleft hright
    have hkey : n.key = x.2 := hk
    have hleft : traversePostorder h fuel n.left = _ := hleft
    have hright : traversePostorder h fuel n.right = _ := hright
    rw [traversePostorder, if_neg (Option.some_ne_none x.1), Memory.read_some hn]
    simp only [ok_bind]
    rw [hleft, ok_bind, hright, ok_bind, hkey, postorder_node, List.map_append, List.map_append, List.map_singleton,
      pure_eq_ok]

theorem maxdepth_ok (fuel : ℕ) (ht : h.IsTree p t) (hfuel : (inorder t).length < fuel) :
    maxdepth h fuel p = .ok t.height := by
  apply ht.walk_ok (maxdepth h) BinaryTree.height _ _ hfuel
  · intro fuel
    rfl
  · intro fuel n x l r hn _ hleft hright
    have hleft : maxdepth h fuel n.left = _ := hleft
    have hright : maxdepth h fuel n.right = _ := hright
    rw [maxdepth, if_neg (Option.some_ne_none x.1), Memory.read_some hn]
    simp only [ok_bind]
    rw [hleft, ok_bind, hright, ok_bind, BinaryTree.height]
    by_cases hlt : r.height < l.height
    · rw [if_pos hlt, max_eq_left hlt.le, Nat.add_comm]
      rfl
    · rw [if_neg hlt, max_eq_right (Nat.not_lt.mp hlt), Nat.add_comm]
      rfl

theorem mindepth_ok (fuel : ℕ) (ht : h.IsTree p t) (hfuel : (inorder t).length < fuel) :
    mindepth h fuel p = .ok (minDepth t) := by
  apply ht.walk_ok (mindepth h) minDepth _ _ hfuel
  · intro fuel
    rfl
  · intro fuel n x l r hn _ hleft hright
    have hleft : mindepth h fuel n.left = _ := hleft
    have hright : mindepth h fuel n.right = _ := hright
    rw [mindepth, if_neg (Option.some_ne_none x.1), Memory.read_some hn]
    simp only [ok_bind]
    rw [hleft, ok_bind, hright, ok_bind, minDepth]
    by_cases hlt : minDepth r < minDepth l
    · rw [if_pos hlt, min_eq_right hlt.le, Nat.add_comm]
      rfl
    · rw [if_neg hlt, min_eq_left (Nat.not_lt.mp hlt), Nat.add_comm]
      rfl

end walks

/-! ### The search -/

section search

variable {h : Memory Node} {a : ℕ} {n : Node} {key : ℤ}

theorem findKeyLoop_left (fuel : ℕ) (hn : h.node a = some n) (hlt : key < n.key) :
    findKeyLoop key (fuel + 1) h (some a) = findKeyLoop key fuel h n.left := by
  rw [findKeyLoop, if_neg (Option.some_ne_none a), Memory.read_some hn]
  simp only [ok_bind]
  rw [if_neg hlt.ne', if_pos hlt]

theorem findKeyLoop_right (fuel : ℕ) (hn : h.node a = some n) (hlt : n.key < key) :
    findKeyLoop key (fuel + 1) h (some a) = findKeyLoop key fuel h n.right := by
  rw [findKeyLoop, if_neg (Option.some_ne_none a), Memory.read_some hn]
  simp only [ok_bind]
  rw [if_neg hlt.ne, if_neg hlt.asymm]

theorem findKeyLoop_descends (key : ℤ) : Descends (findKeyLoop key) key where
  goLeft fuel _ _ _ hn hlt _ := findKeyLoop_left fuel hn hlt
  goRight fuel _ _ _ hn hlt _ := findKeyLoop_right fuel hn hlt

theorem findKeyLoop_here (fuel : ℕ) (hn : h.node a = some n) (hkey : n.key = key) :
    findKeyLoop key (fuel + 1) h (some a) = .ok key := by
  rw [findKeyLoop, if_neg (Option.some_ne_none a), Memory.read_some hn, ok_bind, if_pos hkey, ok_bind, hkey,
    pure_eq_ok]

theorem findKeyLoop_free (fuel : ℕ) (hn : h.node a = some n) (hfree : Free key n) :
    findKeyLoop key (fuel + 2) h (some a) = .ok 0 := by
  have hend : findKeyLoop key (fuel + 1) h none = .ok 0 := by
    rw [findKeyLoop, if_pos rfl, pure_eq_ok]
  rcases hfree with ⟨hlt, hnone⟩ | ⟨hlt, hnone⟩
  · have hnone : n.left = none := hnone
    rw [findKeyLoop_left _ hn hlt, hnone, hend]
  · have hnone : n.right = none := hnone
    rw [findKeyLoop_right _ hn hlt, hnone, hend]

end search

variable {h : Memory Node} {root : Option ℕ} {t : BinaryTree (ℕ × ℤ)}

theorem findKey_eq (hb : Built h root) (key : ℤ) :
    (InTree h root key → findKey h root key = .ok key) ∧ (¬InTree h root key → findKey h root key = .ok 0) := by
  obtain ⟨t, ht, ho, hne⟩ := hb.isTree
  rw [findKey]
  constructor
  · intro hin
    obtain ⟨x, hx, rfl⟩ := (inTree_iff ht).mp hin
    obtain ⟨n, hn, hkey⟩ := ht.node hx
    obtain ⟨fuel, hrun⟩ := (findKeyLoop_descends x.2).found hx rfl (h.fresh + 1) ht ho
      (Nat.le_succ_of_le (ht.length_le ho))
    rw [hrun, findKeyLoop_here fuel hn hkey]
  · intro hnot
    have hmissing : ∀ x ∈ inorder t, x.2 ≠ key := fun x hx hkey => hnot ((inTree_iff ht).mpr ⟨x, hx, hkey⟩)
    obtain ⟨fuel, b, hrun, hb⟩ := (findKeyLoop_descends key).missing hmissing h.fresh ht hne (ht.nodup ho)
      (ht.length_le ho)
    obtain ⟨n, hn, hfree⟩ := hb.free
    rw [hrun, findKeyLoop_free fuel hn hfree]

/-! ### The depths -/

/-- The two depths bound the number of keys, and `isbalanced` is true if and only if there are as many as there
can be. -/
theorem isbalanced_iff (hb : Built h root) :
    ∃ keys min max, traverseInorder h (h.fresh + 1) root = .ok keys ∧
      mindepth h (h.fresh + 1) root = .ok min ∧ maxdepth h (h.fresh + 1) root = .ok max ∧
      isbalanced h (h.fresh + 1) root = .ok (keys.length + 1 = 2 ^ max) ∧
      2 ^ min ≤ keys.length + 1 ∧ keys.length + 1 ≤ 2 ^ max := by
  obtain ⟨t, ht, ho, -⟩ := hb.isTree
  have hfuel : (inorder t).length < h.fresh + 1 := Nat.lt_succ_of_le (ht.length_le ho)
  refine ⟨_, _, _, traverseInorder_ok _ ht hfuel, mindepth_ok _ ht hfuel, maxdepth_ok _ ht hfuel, ?_, ?_, ?_⟩
  · rw [isbalanced, mindepth_ok _ ht hfuel, ok_bind, maxdepth_ok _ ht hfuel, ok_bind, List.length_map]
    exact congrArg Except.ok (decide_eq_decide.mpr (minDepth_eq_height_iff t))
  · rw [List.length_map]
    exact two_pow_minDepth_le t
  · rw [List.length_map]
    exact length_le_two_pow_height t

instance (h : Memory Node) : Decidable (NoneFreed h) := inferInstanceAs (Decidable (∀ a < h.fresh, h.node a ≠ none))

/-- The tree with the keys 6, 4 and 8. -/
def threeKeys : Memory Node :=
  let h := (Memory.empty.alloc ⟨none, none, 6⟩).alloc ⟨none, none, 4⟩
  ((h.update 0 fun n => { n with left := some 1 }).alloc ⟨none, none, 8⟩).update 0 fun n => { n with right := some 2 }

theorem built_threeKeys : Built threeKeys (some 0) := by
  have htwo : Built (((Memory.empty.alloc ⟨none, none, 6⟩).alloc ⟨none, none, 4⟩).update 0
      fun n => { n with left := some 1 }) (some 0) := .insert (built_oneNode 6) 4 rfl (by decide)
  exact .insert htwo 8 rfl (by decide)

theorem isbalanced_iff_threeKeys : isbalanced threeKeys 4 (some 0) = .ok true := by
  obtain ⟨keys, min, max, hkeys, -, hmax, hbalanced, -, -⟩ := isbalanced_iff built_threeKeys
  obtain rfl : [4, 6, 8] = keys := Except.ok.inj hkeys
  obtain rfl : 2 = max := Except.ok.inj hmax
  exact hbalanced

/-! ### Building the tree again -/

/-- A tree with the keys of a list, inserted in their order. -/
def buildTree (h : Memory Node) : List ℤ → Except Fault (Option ℕ × Memory Node)
  | [] => .ok (none, h)
  | key :: keys => do
    let (root, h) := initTree h key
    let h ← keys.foldlM (fun h key => insert h root key) h
    pure (root, h)

theorem insertAll_ok (keys : List ℤ) (ht : h.IsTree root t) (ho : Ordered Prod.snd t) (hne : t ≠ .nil)
    (hnodup : (keys ++ (inorder t).map Prod.snd).Nodup) :
    ∃ h' t', keys.foldlM (fun h key => insert h root key) h = .ok h' ∧ h'.IsTree root t' ∧
      t'.map Prod.snd = keys.foldl (fun t key => SearchTree.insert id key t) (t.map Prod.snd) := by
  induction keys generalizing h t with
  | nil => exact ⟨h, t, rfl, ht, rfl⟩
  | cons key keys ih =>
    obtain ⟨hkey, hkeys⟩ := List.nodup_cons.mp hnodup
    have hmissing : ∀ x ∈ inorder t, x.2 ≠ key := by
      rintro x hx rfl
      exact hkey (List.mem_append_right _ (List.mem_map_of_mem hx))
    obtain ⟨b, hrun, ht₁⟩ := insert_missing ht ho hne hmissing
    have hperm := (inorder_insert (x := (h.fresh, key)) t hmissing).map Prod.snd
    have hnodup₁ : (keys ++ (inorder (SearchTree.insert Prod.snd (h.fresh, key) t)).map Prod.snd).Nodup := by
      refine ((hperm.append_left keys).trans List.perm_middle).nodup_iff.mpr ?_
      exact List.nodup_cons.mpr ⟨hkey, hkeys⟩
    obtain ⟨h', t', hs, ht', hmap⟩ := ih ht₁ (ho.insert _) insert_ne_nil hnodup₁
    refine ⟨h', t', ?_, ht', ?_⟩
    · rw [List.foldlM_cons, hrun, ok_bind, hs]
    · rw [hmap, SearchTree.map_insert, List.foldl_cons]

theorem buildTree_ok (g : Memory Node) {keys : List ℤ} (hkeys : keys.Nodup) :
    ∃ root' g' t', buildTree g keys = .ok (root', g') ∧ g'.IsTree root' t' ∧
      t'.map Prod.snd = keys.foldl (fun t key => SearchTree.insert id key t) .nil := by
  cases keys with
  | nil => exact ⟨none, g, .nil, rfl, rfl, rfl⟩
  | cons key keys =>
    have hnodup : (keys ++ [key]).Nodup := (List.perm_append_singleton key keys).nodup_iff.mpr hkeys
    obtain ⟨g', t', hs, ht', hmap⟩ := insertAll_ok keys (isTree_leaf g key) ⟨by simp, by simp, trivial, trivial⟩
      (by simp) hnodup
    refine ⟨_, g', t', ?_, ht', hmap⟩
    show (keys.foldlM _ _ >>= _) = _
    rw [hs]
    rfl

/-- The keys that `traverse_postorder` prints build the tree again, the last one first. -/
theorem postorder_rebuilds (hb : Built h root) (g : Memory Node) :
    ∃ out root' g' t t', traversePostorder h (h.fresh + 1) root = .ok out ∧
      buildTree g out.reverse = .ok (root', g') ∧ h.IsTree root t ∧ g'.IsTree root' t' ∧
      t'.map Prod.snd = t.map Prod.snd := by
  obtain ⟨t, ht, ho, -⟩ := hb.isTree
  have hfuel : (inorder t).length < h.fresh + 1 := Nat.lt_succ_of_le (ht.length_le ho)
  have ho' : Ordered id (t.map Prod.snd) := (ordered_map Prod.snd t).mpr ho
  have hnodup : ((postorder t).map Prod.snd).reverse.Nodup := by
    rw [List.nodup_reverse, ((postorder_perm t).map Prod.snd).nodup_iff]
    exact (List.pairwise_map.mpr ho.pairwise).imp fun hlt => hlt.ne
  obtain ⟨root', g', t', hbuild, ht', hmap⟩ := buildTree_ok g hnodup
  refine ⟨_, root', g', t, t', traversePostorder_ok _ ht hfuel, hbuild, ht, ht', ?_⟩
  rw [hmap, ← postorder_map]
  exact ho'.foldl_insert_postorder

theorem postorder_rebuilds_threeKeys : ∃ root' g' t t', buildTree .empty [6, 8, 4] = .ok (root', g') ∧
    threeKeys.IsTree (some 0) t ∧ g'.IsTree root' t' ∧ t'.map Prod.snd = t.map Prod.snd := by
  obtain ⟨out, root', g', t, t', hout, hrest⟩ := postorder_rebuilds built_threeKeys .empty
  obtain rfl : [4, 8, 6] = out := Except.ok.inj hout
  exact ⟨root', g', t, t', hrest⟩

end CodingForFun.Bstproblems
