import CodingForFun.Btree.Insert

/-!
# The shape of the tree

The B-tree invariant, read off the nodes in the heap: `Below heap q a k` says that the node at `a` is
`k` levels below the pointer `q`, and `IsBTree` says of every node below the root what it has to
satisfy. Every node below the root is the root of a subtree of the tree that `insert` keeps
(`Below.subtree`), so `IsBTree` holds after every run (`insertAll_isBTree`).
-/

namespace CodingForFun.Btree

open Lib Cells BTree

/-- Following `k` pointers from `q` leads to the node at `a`. -/
inductive Below (heap : Heap) : Ptr → ℕ → ℕ → Prop
  | here (a : ℕ) : Below heap (some a) a 0
  | child {a b k i : ℕ} {node : NODE} {q : Ptr} (hnode : heap[a]? = some node) (hi : i ≤ node.n)
      (hq : node.p[i]? = some (some q)) (h : Below heap q b k) : Below heap (some a) b (k + 1)

/-- The node has the key. -/
def HasKey (node : NODE) (key : Int) : Prop := ∃ i < node.n, node.keys[i]? = some (some key)

/-- What is required of the node at `a`, with the keys `ks` and the pointers `ps`. -/
structure NodeShape (st : State) (a : ℕ) (ks : List Int) (ps : List Ptr) : Prop where
  length_ps : ps.length = ks.length + 1
  at_most : ks.length ≤ M - 1
  at_least : some a ≠ st.root → (M - 1) / 2 ≤ ks.length
  increasing : ks.Pairwise (· < ·)
  children : (∀ q ∈ ps, q = none) ∨ ∀ q ∈ ps, q ≠ none
  between : ∀ i q b k node key, ps[i]? = some q → Below st.heap q b k → st.heap[b]? = some node →
    HasKey node key →
      (∀ x, 0 < i → ks[i - 1]? = some x → x < key) ∧ ∀ x, ks[i]? = some x → key < x

/-- The node at `a` has no children. -/
def IsLeaf (heap : Heap) (a : ℕ) : Prop :=
  ∃ node, heap[a]? = some node ∧ ∀ i ≤ node.n, node.p[i]? = some (some none)

/-- The invariant of a B-tree. -/
structure IsBTree (st : State) : Prop where
  nodes : ∀ a k, Below st.heap st.root a k →
    ∃ node ks ps, st.heap[a]? = some node ∧ Stores node ks ps ∧ NodeShape st a ks ps
  leaves : ∀ a b k l, Below st.heap st.root a k → IsLeaf st.heap a → Below st.heap st.root b l →
    IsLeaf st.heap b → k = l

theorem Stores.p_eq {node : NODE} {ks : List Int} {ps : List Ptr} (h : Stores node ks ps) {i : ℕ}
    (hi : i < ps.length) : node.p[i]? = some (some ps[i]) := by
  obtain ⟨rest, hp, -⟩ := h.p
  rw [hp, List.getElem?_append_left (by simpa using hi), List.getElem?_map, List.getElem?_eq_getElem hi,
    Option.map_some]

theorem Stores.hasKey {node : NODE} {ks : List Int} {ps : List Ptr} (h : Stores node ks ps)
    {key : Int} (hkey : HasKey node key) : key ∈ ks := by
  obtain ⟨i, hi, hread⟩ := hkey
  obtain ⟨rest, hkeys, -⟩ := h.keys
  rw [h.n_eq] at hi
  rw [hkeys, List.getElem?_append_left (by simpa using hi), List.getElem?_map,
    List.getElem?_eq_getElem hi, Option.map_some] at hread
  rw [← Option.some.inj (Option.some.inj hread)]
  exact List.getElem_mem hi

theorem Below.subtree {heap : Heap} {q : Ptr} {a k : ℕ} (h : Below heap q a k) :
    ∀ {lo d : ℕ} {t : BTree Int d}, ptr d t = q → Rep heap d t → Balanced M lo d t →
      (toList d t).Pairwise (· < ·) →
      ∃ e, ∃ s : Node Int (BTree Int e), d = e + 1 + k ∧ s.name = a ∧ Rep heap (e + 1) s ∧
        Balanced M (if k = 0 then lo else (M - 1) / 2) (e + 1) s ∧
        (s.toList (toList e)).Pairwise (· < ·) ∧ ∀ x ∈ s.toList (toList e), x ∈ toList d t := by
  induction h with
  | here a =>
    intro lo d t hptr hrep hbalanced hsorted
    cases d with
    | zero => exact absurd hptr (by simp [ptr])
    | succ e => exact ⟨e, t, rfl, Option.some.inj hptr, hrep, hbalanced, hsorted, fun _ hx => hx⟩
  | child hnode hi hq _ ih =>
    rename_i a b k i node q _
    intro lo d t hptr hrep hbalanced hsorted
    cases d with
    | zero => exact absurd hptr (by simp [ptr])
    | succ d =>
      obtain ⟨⟨_, hnode', hstores⟩, hkids⟩ := hrep
      rw [Option.some.inj hptr, hnode] at hnode'
      obtain rfl := Option.some.inj hnode'
      rw [hstores.n_eq] at hi
      have hlt := hi
      rw [← Nat.lt_succ_iff, Nat.succ_eq_add_one, ← Node.length_kids t] at hlt
      have hmem := Node.kid_mem t hi
      have hkid : ptr d (Node.kid t i hi) = q := by
        rw [hstores.p_eq (by simpa using hlt), List.getElem_map] at hq
        exact Option.some.inj (Option.some.inj hq)
      have hkidsorted := Node.kid_sorted (t := t) hsorted hi
      obtain ⟨e, s, rfl, hname, hs, hbal, hsort, hsub⟩ :=
        ih hkid (hkids _ hmem) (hbalanced.2.2 _ hmem) hkidsorted
      refine ⟨e, s, by omega, hname, hs, ?_, hsort, fun x hx => Node.toList_kid_subset hi (hsub x hx)⟩
      rw [ite_self] at hbal
      simpa using hbal

section node

variable {st : State} {e : ℕ} {s : Node Int (BTree Int e)}

theorem mem_of_below_kid (hrep : Rep st.heap (e + 1) s) {lo : ℕ} (hbal : Balanced M lo (e + 1) s)
    (hsort : (s.toList (toList e)).Pairwise (· < ·)) {i : ℕ} (hi : i ≤ s.keys.length) {b k : ℕ}
    (hbelow : Below st.heap (ptr e (s.kid i hi)) b k) {node : NODE} (hnode : st.heap[b]? = some node)
    {key : Int} (hkey : HasKey node key) : key ∈ toList e (s.kid i hi) := by
  have hmem := s.kid_mem hi
  have hkidsorted := Node.kid_sorted hsort hi
  obtain ⟨e', s', -, rfl, ⟨⟨node', hnode', hstores⟩, -⟩, -, -, hsub⟩ :=
    hbelow.subtree rfl (hrep.2 _ hmem) (hbal.2.2 _ hmem) hkidsorted
  rw [hnode] at hnode'
  obtain rfl := Option.some.inj hnode'
  exact hsub key (keys_subset_toList (hstores.hasKey hkey))

theorem Rep.nodeShape (hrep : Rep st.heap (e + 1) s) {lo : ℕ} (hbal : Balanced M lo (e + 1) s)
    (hsort : (s.toList (toList e)).Pairwise (· < ·))
    (hlo : some s.name ≠ st.root → (M - 1) / 2 ≤ s.keys.length) :
    NodeShape st s.name s.keys (s.kids.map (ptr e)) where
  length_ps := by rw [List.length_map, s.length_kids]
  at_most := hbal.2.1
  at_least := hlo
  increasing := keys_sorted hsort
  children := by
    cases e with
    | zero =>
      left
      intro q hq
      obtain ⟨c, -, rfl⟩ := List.mem_map.mp hq
      rfl
    | succ e =>
      right
      intro q hq
      obtain ⟨c, -, rfl⟩ := List.mem_map.mp hq
      exact Option.some_ne_none _
  between i q b k node key hq hbelow hnode hkey := by
    have hlength := s.length_kids
    obtain ⟨hlt, hptr⟩ := List.getElem?_eq_some_iff.mp hq
    rw [List.length_map] at hlt
    have hi : i ≤ s.keys.length := by omega
    rw [List.getElem_map] at hptr
    subst hptr
    obtain ⟨hbefore, hafter⟩ :=
      Node.between hsort hi (mem_of_below_kid hrep hbal hsort hi hbelow hnode hkey)
    constructor
    · intro x hpos hx
      obtain ⟨hx, rfl⟩ := List.getElem?_eq_some_iff.mp hx
      exact hbefore _ (List.mem_take_iff_getElem.mpr ⟨i - 1, by omega, rfl⟩)
    · intro x hx
      obtain ⟨hx, rfl⟩ := List.getElem?_eq_some_iff.mp hx
      exact hafter _ (List.mem_drop_iff_getElem.mpr ⟨0, by omega, by simp⟩)

theorem IsLeaf.depth_eq (hrep : Rep st.heap (e + 1) s) (hleaf : IsLeaf st.heap s.name) : e = 0 := by
  obtain ⟨⟨node, hnode, hstores⟩, -⟩ := hrep
  obtain ⟨node', hnode', hnull⟩ := hleaf
  rw [hnode] at hnode'
  obtain rfl := Option.some.inj hnode'
  have hlength := s.length_kids
  have hfirst := hstores.p_eq (i := 0) (by rw [List.length_map]; omega)
  rw [hnull 0 (Nat.zero_le _), List.getElem_map] at hfirst
  cases e with
  | zero => rfl
  | succ e => exact absurd (Option.some.inj (Option.some.inj hfirst)) (Option.some_ne_none _).symm

end node

theorem IsTree.isBTree {st : State} {d : ℕ} {t : BTree Int d} (h : IsTree st d t) : IsBTree st where
  nodes a k hbelow := by
    obtain ⟨e, s, -, rfl, hrep, hbal, hsort, -⟩ := hbelow.subtree h.root.symm h.rep h.balanced h.sorted
    obtain ⟨node, hnode, hstores⟩ := hrep.1
    refine ⟨node, _, _, hnode, hstores, hrep.nodeShape hbal hsort fun hne => ?_⟩
    have hk : k ≠ 0 := by
      rintro rfl
      generalize st.root = q at hbelow hne
      cases hbelow
      exact hne rfl
    rw [if_neg hk] at hbal
    exact hbal.1
  leaves a b k l ha hleafa hb hleafb := by
    obtain ⟨e, s, hd, rfl, hrep, -⟩ := ha.subtree h.root.symm h.rep h.balanced h.sorted
    obtain ⟨e', s', hd', rfl, hrep', -⟩ := hb.subtree h.root.symm h.rep h.balanced h.sorted
    have he := hleafa.depth_eq hrep
    have he' := hleafb.depth_eq hrep'
    omega

/-- **The shape invariant holds after every run of `insert`.** -/
theorem insertAll_isBTree (keys : List Int) : ∃ st, insertAll keys = .ok st ∧ IsBTree st := by
  obtain ⟨st, d, t, hrun, h, -⟩ := insertAll_spec keys
  exact ⟨st, hrun, h.isBTree⟩

end CodingForFun.Btree
