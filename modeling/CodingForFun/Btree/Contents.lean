import CodingForFun.Btree.Insert
import Mathlib.Algebra.BigOperators.Group.Multiset.Basic

/-!
# The keys of the tree

`storedKeys` collects the keys of the nodes under `root`, each as often as it is stored, and
`traverse` prints the keys of a tree in order. With what `insert` does to the tree this says what it
does to the stored keys, and what `traverse` prints after a run (`insert_correct`).
-/

namespace CodingForFun.Btree

open Lib Cells BTree

/-- The keys of the nodes that can be reached from a pointer over fewer than `fuel` nodes. -/
def keysBelow : ℕ → Heap → Ptr → Multiset Int
  | 0, _, _ => 0
  | _ + 1, _, none => 0
  | fuel + 1, heap, some ptr =>
    match heap[ptr]? with
    | none => 0
    | some node => ((node.keys.take node.n).filterMap id : List Int) +
        ((node.p.take (node.n + 1)).map fun q => keysBelow fuel heap q.join).sum

/-- The keys stored in the tree. -/
def storedKeys (st : State) : Multiset Int := keysBelow (st.heap.length + 1) st.heap st.root

theorem coe_flatten (cs : List (List Int)) :
    (cs.flatten : Multiset Int) = (cs.map Multiset.ofList).sum := by
  induction cs with
  | nil => rfl
  | cons c cs ih => rw [List.flatten_cons, ← Multiset.coe_add, ih, List.map_cons, List.sum_cons]

theorem coe_interleave (ks : List Int) (cs : List (List Int)) (h : cs.length = ks.length + 1) :
    (interleave ks cs : Multiset Int) = (ks : Multiset Int) + (cs.map Multiset.ofList).sum := by
  rw [Multiset.coe_eq_coe.mpr (perm_interleave ks cs h), ← Multiset.coe_add, coe_flatten]

theorem keysBelow_eq {heap : Heap} : ∀ (d fuel : ℕ) (t : BTree Int d), d < fuel → Rep heap d t →
    keysBelow fuel heap (ptr d t) = (toList d t : Multiset Int) := by
  intro d
  induction d with
  | zero =>
    intro fuel t hfuel _
    obtain ⟨fuel, rfl⟩ : ∃ m, fuel = m + 1 := ⟨fuel - 1, by omega⟩
    rfl
  | succ d ih =>
    intro fuel t hfuel hrep
    obtain ⟨fuel, rfl⟩ : ∃ m, fuel = m + 1 := ⟨fuel - 1, by omega⟩
    obtain ⟨⟨node, hnode, hstores⟩, hkids⟩ := hrep
    obtain ⟨rest, rest', rfl, -, -⟩ := hstores.cells
    have hlength := Node.length_kids t
    have hown : ((((Node.keys t).map some ++ rest).take (Node.keys t).length).filterMap id) =
        Node.keys t := by
      rw [List.take_left' (by simp)]
      simp [List.filterMap_map]
    have hbelow : (((((Node.kids t).map (ptr d)).map some ++ rest').take
        ((Node.keys t).length + 1)).map fun q => keysBelow fuel heap q.join) =
        (Node.kids t).map fun c => (toList d c : Multiset Int) := by
      rw [List.take_left' (by simp [hlength]), List.map_map, List.map_map]
      apply List.map_congr_left
      intro c hc
      exact ih fuel c (by omega) (hkids c hc)
    rw [ptr, keysBelow, hnode]
    simp only
    rw [hown, hbelow]
    show _ = (interleave (Node.keys t) ((Node.kids t).map (toList d)) : Multiset Int)
    rw [coe_interleave _ _ (by rw [List.length_map, hlength]), List.map_map]
    rfl

theorem IsTree.storedKeys_eq {st : State} {d : ℕ} {t : BTree Int d} (h : IsTree st d t) :
    storedKeys st = (toList d t : Multiset Int) := by
  rw [storedKeys, h.root]
  exact keysBelow_eq d _ t (Nat.lt_succ_of_le h.depth_le) h.rep

/-! ## What `traverse` prints -/

section traverse

variable {d fuel : ℕ} {heap : Heap}

theorem traverse_loop (t : Node Int (BTree Int d)) (rest : Cells Int) (rest' : Cells Ptr)
    (hsub : ∀ c ∈ t.kids, traverse fuel heap (ptr d c) = .ok (toList d c)) :
    ∀ m ≤ t.keys.length, (List.range m).foldlM (fun out i => do
      let child ← read ((t.kids.map (ptr d)).map some ++ rest') i
      let sub ← traverse fuel heap child
      let k ← read (t.keys.map some ++ rest) i
      pure (out ++ sub ++ [k])) [] =
        .ok (front (t.keys.take m) ((t.kids.take m).map (toList d))) := by
  intro m
  induction m with
  | zero => intro _; rfl
  | succ m ih =>
    intro hm
    have hkids := t.length_kids
    have hkid := hsub _ (t.kid_mem (Nat.le_of_succ_le hm))
    have hlength : (t.keys.take m).length = ((t.kids.take m).map (toList d)).length := by
      simp only [List.length_take, List.length_map]
      omega
    rw [List.range_succ, List.foldlM_append, ih (Nat.le_of_succ_le hm), ok_bind, List.foldlM_cons,
      read_kid rest' (Nat.le_of_succ_le hm), ok_bind, hkid, ok_bind, read_map_append hm, ok_bind]
    rw [← List.take_concat_get' _ _ hm, ← List.take_concat_get' _ _ (by omega : m < t.kids.length),
      List.map_append, List.map_singleton, front_concat hlength]
    rfl

theorem traverse_eq : ∀ (d fuel : ℕ) (t : BTree Int d), d < fuel → Rep heap d t →
    traverse fuel heap (ptr d t) = .ok (toList d t) := by
  intro d
  induction d with
  | zero =>
    intro fuel t hfuel _
    obtain ⟨fuel, rfl⟩ : ∃ m, fuel = m + 1 := ⟨fuel - 1, by omega⟩
    rfl
  | succ d ih =>
    intro fuel t hfuel hrep
    obtain ⟨fuel, rfl⟩ : ∃ m, fuel = m + 1 := ⟨fuel - 1, by omega⟩
    obtain ⟨⟨node, hnode, hstores⟩, hkids⟩ := hrep
    obtain ⟨rest, rest', rfl, -, -⟩ := hstores.cells
    have hsub : ∀ c ∈ Node.kids t, traverse fuel heap (ptr d c) = .ok (toList d c) :=
      fun c hc => ih fuel c (by omega) (hkids c hc)
    have hkids := Node.length_kids t
    have hlast := Node.toList_eq (t := t) (f := toList d) le_rfl
    rw [ptr, traverse, deref, hnode, ok_bind]
    simp only
    rw [traverse_loop t rest rest' hsub _ le_rfl, ok_bind, read_kid (d := d) (t := t) rest' le_rfl, ok_bind,
      hsub _ (Node.kid_mem t le_rfl), ok_bind, pure_eq_ok]
    show _ = Except.ok (Node.toList t (toList d))
    rw [hlast, List.drop_length, back_nil, List.append_nil]

end traverse

/-- **`insertHelper` reports a key as a duplicate exactly when it is stored, and then changes
nothing. Else the stored keys grow by the key. `traverse` prints the keys in order.** -/
theorem insert_correct (keys : List Int) (key : Int) : ∃ st heap value new st',
    insertAll keys = .ok st ∧
    insertHelper (st.heap.length + 1) st.heap st.root key = .ok (heap, value, new) ∧
    insert st key = .ok st' ∧
    (value = .duplicate ↔ key ∈ storedKeys st) ∧
    (value = .duplicate → heap = st.heap ∧ st' = st) ∧
    (value ≠ .duplicate → storedKeys st' = key ::ₘ storedKeys st) ∧
    ∃ out, traverse (st.heap.length + 1) st.heap st.root = .ok out ∧ out.Pairwise (· < ·) ∧
      ∀ x, x ∈ out ↔ x ∈ keys := by
  obtain ⟨st, d, t, hrun, h, hkeys⟩ := insertAll_spec keys
  have hprint : traverse (st.heap.length + 1) st.heap st.root = .ok (toList d t) := by
    rw [h.root]
    exact traverse_eq d _ t (Nat.lt_succ_of_le h.depth_le) h.rep
  rcases h.insert key with ⟨hmem, hinsert, hcall⟩ |
    ⟨heap, value, new, st', d', t', hcall, hvalue, hinsert, h', hspliced⟩
  · refine ⟨st, st.heap, .duplicate, none, st, hrun, hcall, hinsert, ?_, fun _ => ⟨rfl, rfl⟩,
      fun hne => absurd rfl hne, toList d t, hprint, h.sorted, hkeys⟩
    rw [h.storedKeys_eq]
    exact ⟨fun _ => hmem, fun _ => rfl⟩
  · refine ⟨st, heap, value, new, st', hrun, hcall, hinsert, ?_, fun heq => absurd heq hvalue,
      fun _ => ?_, toList d t, hprint, h.sorted, hkeys⟩
    · rw [h.storedKeys_eq]
      exact ⟨fun heq => absurd heq hvalue, fun hmem => absurd hmem hspliced.notMem⟩
    · rw [h.storedKeys_eq, h'.storedKeys_eq]
      exact Multiset.coe_eq_coe.mpr hspliced.perm

end CodingForFun.Btree
