import CodingForFun.Btree.Refine
import Mathlib.Data.List.Perm.Subperm
import Mathlib.Tactic.Tauto

/-!
# Runs of `insert`

`IsTree st d t` says that the tree under `root` is the B-tree `t`. `insert` adds a root when
`insertHelper` hands up a key, so it leads from tree to tree and puts the key in its place, or finds
it there and changes nothing (`IsTree.insert`). Every run of `insert` from `root == NULL` ends in a
tree with the keys that were inserted (`insertAll_spec`).
-/

namespace CodingForFun.Btree

open Lib Cells BTree

/-- The tree under `root` is `t`. -/
structure IsTree (st : State) (d : ℕ) (t : BTree Int d) : Prop where
  root : st.root = ptr d t
  rep : Rep st.heap d t
  nodup : (names d t).Nodup
  balanced : Balanced M 1 d t
  sorted : (toList d t).Pairwise (· < ·)

theorem length_names_le {l : List ℕ} {n : ℕ} (hnodup : l.Nodup) (hlt : ∀ a ∈ l, a < n) :
    l.length ≤ n := by
  have hsub : l ⊆ List.range n := fun a ha => List.mem_range.mpr (hlt a ha)
  simpa using (List.subperm_of_subset hnodup hsub).length_le

theorem depth_le_names : ∀ (d : ℕ) (t : BTree Int d), d ≤ (names d t).length := by
  intro d
  induction d with
  | zero => intro t; exact Nat.zero_le _
  | succ d ih =>
    intro t
    have hkid := Node.kid_mem t (Nat.zero_le (Node.keys t).length)
    have hsub := List.sublist_flatten_of_mem (List.mem_map_of_mem (f := names d) hkid)
    have hle : (names d (Node.kid t 0 (Nat.zero_le _))).length ≤
        ((Node.kids t).flatMap (names d)).length := by
      rw [List.flatMap_def]
      exact hsub.length_le
    have hd := ih (Node.kid t 0 (Nat.zero_le _))
    show d + 1 ≤ ((Node.kids t).flatMap (names d)).length + 1
    omega

theorem IsTree.depth_le {st : State} {d : ℕ} {t : BTree Int d} (h : IsTree st d t) :
    d ≤ st.heap.length :=
  (depth_le_names d t).trans (length_names_le h.nodup h.rep.lt)

theorem nodup_append_range' {l : List ℕ} {n : ℕ} (hnodup : l.Nodup) (hlt : ∀ a ∈ l, a < n) (k : ℕ) :
    (l ++ List.range' n k).Nodup := by
  refine List.nodup_append.mpr ⟨hnodup, List.nodup_range', fun a ha b hb heq => ?_⟩
  have := hlt a ha
  have := (List.mem_range'_1.mp hb).1
  omega

theorem isTree_empty : IsTree ⟨[], none⟩ 0 () where
  root := rfl
  rep := trivial
  nodup := List.nodup_nil
  balanced := trivial
  sorted := List.Pairwise.nil

variable {st : State} {d : ℕ} {t : BTree Int d}

theorem IsTree.newRoot {heap : Heap} {left right : BTree Int d} {up : Int}
    (hleft : Rep heap d left) (hright : Rep heap d right)
    (hnodup : (names d left ++ names d right).Nodup)
    (hbalanced : Balanced M ((M - 1) / 2) d left ∧ Balanced M ((M - 1) / 2) d right)
    (hsorted : (toList d left ++ up :: toList d right).Pairwise (· < ·)) {node : NODE}
    (hstores : Stores node [up] [ptr d left, ptr d right]) :
    IsTree ⟨heap ++ [node], some heap.length⟩ (d + 1)
      (⟨heap.length, [up], [left, right], rfl⟩ : Node Int (BTree Int d)) := by
  have hkeep : ∀ {s : BTree Int d}, Rep heap d s → Rep (heap ++ [node]) d s := fun hs =>
    hs.frame fun a ha => List.getElem?_append_left (hs.lt a ha)
  refine ⟨rfl, ⟨⟨node, ?_, hstores⟩, fun c hc => ?_⟩, ?_, ⟨le_rfl, (by decide : 1 ≤ M - 1), fun c hc => ?_⟩, ?_⟩
  · show (heap ++ [node])[heap.length]? = some node
    simp
  · rcases List.mem_pair.mp hc with rfl | rfl
    · exact hkeep hleft
    · exact hkeep hright
  · show (heap.length :: [left, right].flatMap (names d)).Nodup
    simp only [List.flatMap_cons, List.flatMap_nil, List.append_nil]
    refine List.nodup_cons.mpr ⟨fun hmem => ?_, hnodup⟩
    rcases List.mem_append.mp hmem with hmem | hmem
    · exact lt_irrefl _ (hleft.lt _ hmem)
    · exact lt_irrefl _ (hright.lt _ hmem)
  · rcases List.mem_pair.mp hc with rfl | rfl
    · exact hbalanced.1
    · exact hbalanced.2
  · exact hsorted

theorem IsTree.insert (h : IsTree st d t) (key : Int) :
    (key ∈ toList d t ∧ Btree.insert st key = .ok st ∧
      insertHelper (st.heap.length + 1) st.heap st.root key = .ok (st.heap, .duplicate, none)) ∨
    ∃ heap value new st' d', ∃ t' : BTree Int d',
      insertHelper (st.heap.length + 1) st.heap st.root key = .ok (heap, value, new) ∧
      value ≠ .duplicate ∧ Btree.insert st key = .ok st' ∧ IsTree st' d' t' ∧
      Spliced (toList d t) key (toList d' t') := by
  have hdepth := h.depth_le
  have hrefines := insertHelper_refines key d (st.heap.length + 1) st.heap t 1 (by omega) h.rep
    h.nodup h.balanced h.sorted
  have hinserts := ins_inserts M key d t st.heap.length h.sorted
  have hbalances := ins_balances M key d 1 t st.heap.length h.balanced
  have hrenames := ins_renames M key d t st.heap.length
  have hfresh := nodup_append_range' h.nodup h.rep.lt
  rw [← h.root] at hrefines
  cases hout : ins M key d t st.heap.length with
  | duplicate =>
    left
    rw [hout] at hrefines hinserts
    have hcall : insertHelper (st.heap.length + 1) st.heap st.root key =
        .ok (st.heap, .duplicate, none) := hrefines
    refine ⟨hinserts, ?_, hcall⟩
    rw [Btree.insert, hcall]
    rfl
  | done t' next =>
    right
    rw [hout] at hrefines hinserts hbalances hrenames
    obtain ⟨heap, hcall, -, hrep, hptr, -⟩ := hrefines
    refine ⟨heap, .success, none, ⟨heap, st.root⟩, d, t', hcall, by decide, ?_,
      ⟨by rw [hptr, h.root], hrep, ?_, hbalances, hinserts.sorted h.sorted⟩, hinserts⟩
    · rw [Btree.insert, hcall]
      rfl
    · exact hrenames.2.nodup_iff.mpr (hfresh _)
  | split left up right next =>
    right
    rw [hout] at hrefines hinserts hbalances hrenames
    obtain ⟨heap, hcall, -, hleft, hright, hptr, -⟩ := hrefines
    let node : NODE := ⟨1, [some up, none, none, none],
      [some (ptr d left), some (ptr d right), none, none, none]⟩
    have hstores : Stores node [up] [ptr d left, ptr d right] :=
      ⟨rfl, ⟨[none, none, none], rfl, rfl⟩, ⟨[none, none, none], rfl, rfl⟩⟩
    refine ⟨heap, .insertIt, _, ⟨heap ++ [node], some heap.length⟩, d + 1, _, hcall, by decide, ?_,
      IsTree.newRoot hleft hright (hrenames.2.nodup_iff.mpr (hfresh _)) hbalances
        (hinserts.sorted h.sorted) hstores, hinserts⟩
    rw [Btree.insert, hcall, ok_bind, h.root, ← hptr]
    rfl

theorem IsTree.insertAll (keys : List Int) :
    ∀ {st : State} {d : ℕ} {t : BTree Int d}, IsTree st d t →
      ∃ st' d', ∃ t' : BTree Int d', keys.foldlM Btree.insert st = .ok st' ∧ IsTree st' d' t' ∧
        ∀ x, x ∈ toList d' t' ↔ x ∈ keys ∨ x ∈ toList d t := by
  induction keys with
  | nil => intro st d t h; exact ⟨st, d, t, rfl, h, fun x => by simp⟩
  | cons key keys ih =>
    intro st d t h
    rcases h.insert key with ⟨hmem, hrun, -⟩ | ⟨-, -, -, st₁, d₁, t₁, -, -, hrun, h₁, hspliced⟩
    · obtain ⟨st', d', t', hrest, h', hkeys⟩ := ih h
      refine ⟨st', d', t', by rw [List.foldlM_cons, hrun, ok_bind, hrest], h', fun x => ?_⟩
      rw [hkeys x, List.mem_cons]
      constructor
      · rintro (hx | hx)
        · exact .inl (.inr hx)
        · exact .inr hx
      · rintro ((rfl | hx) | hx)
        · exact .inr hmem
        · exact .inl hx
        · exact .inr hx
    · obtain ⟨st', d', t', hrest, h', hkeys⟩ := ih h₁
      refine ⟨st', d', t', by rw [List.foldlM_cons, hrun, ok_bind, hrest], h', fun x => ?_⟩
      rw [hkeys x, hspliced.mem_iff, List.mem_cons]
      tauto

theorem insertAll_spec (keys : List Int) :
    ∃ st d, ∃ t : BTree Int d, insertAll keys = .ok st ∧ IsTree st d t ∧
      ∀ x, x ∈ toList d t ↔ x ∈ keys := by
  obtain ⟨st, d, t, hrun, h, hkeys⟩ := isTree_empty.insertAll keys
  refine ⟨st, d, t, hrun, h, fun x => ?_⟩
  rw [hkeys x]
  simp [toList]

end CodingForFun.Btree
