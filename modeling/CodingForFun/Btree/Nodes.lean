import CodingForFun.Btree.Basic
import CodingForFun.Lib.BTree
import Mathlib.Data.Int.Order.Basic
import Mathlib.Data.List.Basic
import Mathlib.Data.List.Induction

/-!
# The arrays of a node

`Stores` says which keys and pointers the cells of a node start with. The loops on the arrays of one
node, seen as operations on lists: `searchPos` finds the rank of a key, `placeKey` puts a key and a
pointer in their places, and `spill` and `splitNode` cut a node of five keys and six pointers at its
middle key.
-/

namespace CodingForFun.Btree

open Lib Cells

/-- The node has the keys `ks` and the pointers `ps`; what the other cells hold does not matter. -/
structure Stores (node : NODE) (ks : List Int) (ps : List Ptr) : Prop where
  n_eq : node.n = ks.length
  keys : ∃ rest, node.keys = ks.map some ++ rest ∧ ks.length + rest.length = M - 1
  p : ∃ rest, node.p = ps.map some ++ rest ∧ ps.length + rest.length = M

theorem Stores.cells {node : NODE} {ks : List Int} {ps : List Ptr} (h : Stores node ks ps) :
    ∃ rest rest', node = ⟨ks.length, ks.map some ++ rest, ps.map some ++ rest'⟩ ∧
      ks.length + rest.length = M - 1 ∧ ps.length + rest'.length = M := by
  obtain ⟨n, nodeKeys, nodeP⟩ := node
  obtain ⟨hn, ⟨rest, hkeys, hrest⟩, ⟨rest', hp, hrest'⟩⟩ := h
  simp only at hn hkeys hp
  subst hn hkeys hp
  exact ⟨rest, rest', rfl, hrest, hrest'⟩

theorem searchPos_spec (key : Int) (ks : List Int) (rest : Cells Int) :
    searchPos key (ks.map some ++ rest) ks.length = .ok (rank key ks) := by
  have hle := rank_le key ks
  have hloop : ∃ pos, searchPos key (ks.map some ++ rest) ks.length = .ok pos ∧
      pos = rank key ks := by
    refine whileM_ok (fun pos => pos ≤ rank key ks) (fun pos => ks.length - pos) ?_ _ 0
      (Nat.zero_le _) (by omega)
    intro pos hpos
    by_cases hlt : pos < rank key ks
    · left
      have hk := lt_getElem_of_lt_rank (by omega) hlt
      refine ⟨pos + 1, ?_, rfl, hlt, by omega⟩
      rw [if_pos (by omega), read_map_append (by omega), ok_bind, pure_eq_ok, decide_eq_true hk]
    · right
      obtain rfl : pos = rank key ks := by omega
      refine ⟨?_, rfl⟩
      by_cases hn : rank key ks < ks.length
      · rw [if_pos hn, read_map_append hn, ok_bind, pure_eq_ok,
          decide_eq_false (not_getElem_rank_lt hn)]
      · rw [if_neg hn, pure_eq_ok]
  obtain ⟨pos, hrun, rfl⟩ := hloop
  exact hrun

theorem isDuplicate_spec (key : Int) (ks : List Int) (rest : Cells Int) (pos : ℕ) :
    isDuplicate key (ks.map some ++ rest) ks.length pos = .ok (decide (ks[pos]? = some key)) := by
  unfold isDuplicate
  by_cases hpos : pos < ks.length
  · rw [if_pos hpos, read_map_append hpos, ok_bind, pure_eq_ok, List.getElem?_eq_getElem hpos]
    simp [eq_comm]
  · rw [if_neg hpos, pure_eq_ok, List.getElem?_eq_none (not_lt.mp hpos)]
    simp

theorem shiftRight_spec (n : ℕ) (A : List Int) (C : List Ptr) (hC : C.length = A.length + 1) :
    ∀ (B : List Int) (Q : List Ptr), Q.length = B.length → ∀ y rest z rest',
      ∃ y' z', shiftRight A.length (A.length + B.length)
          ⟨n, (A ++ B).map some ++ y :: rest, (C ++ Q).map some ++ z :: rest'⟩ =
        .ok ⟨n, A.map some ++ y' :: (B.map some ++ rest), C.map some ++ z' :: (Q.map some ++ rest')⟩ := by
  intro B
  induction B using List.reverseRecOn with
  | nil =>
    intro Q hQ y rest z rest'
    obtain rfl := List.length_eq_zero_iff.mp hQ
    refine ⟨y, z, ?_⟩
    rw [List.length_nil, Nat.add_zero, List.append_nil, List.append_nil, List.map_nil, List.map_nil,
      List.nil_append, List.nil_append]
    cases A with
    | nil => rfl
    | cons a A => rw [List.length_cons, shiftRight, if_neg (lt_irrefl _), pure_eq_ok]
  | append_singleton B b ih =>
    intro Q hQ y rest z rest'
    rcases List.eq_nil_or_concat' Q with rfl | ⟨Q, q, rfl⟩
    · simp at hQ
    · have hQB : Q.length = B.length := by simpa using hQ
      have hk : read (((A ++ (B ++ [b])).map some) ++ y :: rest) (A.length + B.length) = .ok b := by
        rw [read_map_append (by simp)]
        simp
      have hq : read (((C ++ (Q ++ [q])).map some) ++ z :: rest') (A.length + B.length + 1) = .ok q := by
        rw [read_map_append (by simp [hC, hQB]; omega)]
        simp [hC, hQB]
      have hwk : write (((A ++ (B ++ [b])).map some) ++ y :: rest) (A.length + B.length + 1) b =
          .ok ((A ++ (B ++ [b])).map some ++ some b :: rest) :=
        write_append _ y rest b (by simp; omega)
      have hwq : write (((C ++ (Q ++ [q])).map some) ++ z :: rest') (A.length + B.length + 2) q =
          .ok ((C ++ (Q ++ [q])).map some ++ some q :: rest') :=
        write_append _ z rest' q (by simp [hC, hQB]; omega)
      obtain ⟨y', z', hrun⟩ := ih Q hQB (some b) (some b :: rest) (some q) (some q :: rest')
      refine ⟨y', z', ?_⟩
      have hlength : A.length + (B ++ [b]).length = A.length + B.length + 1 := by simp; omega
      rw [hlength, shiftRight, if_pos (by omega)]
      simp only [hk, hq, hwk, hwq, ok_bind]
      simp only [List.map_append, List.map_cons, List.map_nil, List.append_assoc, List.cons_append,
        List.nil_append] at hrun ⊢
      exact hrun

/-- A key and a pointer are put in their places; `y` and `z` are the cells that the shift fills. -/
theorem placeKey_spec (n : ℕ) (A B : List Int) (C Q : List Ptr) (hC : C.length = A.length + 1)
    (hQ : Q.length = B.length) (newKey : Int) (newPtr : Ptr) (y : Option Int) (rest : Cells Int)
    (z : Option Ptr) (rest' : Cells Ptr) :
    placeKey ⟨n, (A ++ B).map some ++ y :: rest, (C ++ Q).map some ++ z :: rest'⟩
        (A.length + B.length) A.length newKey newPtr =
      .ok ⟨n, (A ++ newKey :: B).map some ++ rest, (C ++ newPtr :: Q).map some ++ rest'⟩ := by
  obtain ⟨y', z', hshift⟩ := shiftRight_spec n A C hC B Q hQ y rest z rest'
  have hwk : write (A.map some ++ y' :: (B.map some ++ rest)) A.length newKey =
      .ok (A.map some ++ some newKey :: (B.map some ++ rest)) := write_append _ y' _ newKey (by simp)
  have hwq : write (C.map some ++ z' :: (Q.map some ++ rest')) (A.length + 1) newPtr =
      .ok (C.map some ++ some newPtr :: (Q.map some ++ rest')) :=
    write_append _ z' _ newPtr (by simp [hC])
  rw [placeKey, hshift, ok_bind]
  simp only [hwk, hwq, ok_bind, pure_eq_ok]
  simp

theorem spill_spec (n : ℕ) (A B : List Int) (C Q : List Ptr) (hC : C.length = A.length + 1)
    (hQ : Q.length = B.length) (hfull : A.length + B.length = M - 1) (newKey : Int) (newPtr : Ptr) :
    ∃ ks ps lastKey lastPtr, A ++ newKey :: B = ks ++ [lastKey] ∧ C ++ newPtr :: Q = ps ++ [lastPtr] ∧
      spill ⟨n, (A ++ B).map some, (C ++ Q).map some⟩ A.length newKey newPtr =
        .ok (⟨n, ks.map some, ps.map some⟩, lastKey, lastPtr) := by
  rcases List.eq_nil_or_concat' B with rfl | ⟨B, lastKey, rfl⟩
  · obtain rfl := List.length_eq_zero_iff.mp hQ
    refine ⟨A, C, newKey, newPtr, rfl, rfl, ?_⟩
    have hA : A.length = M - 1 := hfull
    rw [spill, if_pos hA, List.append_nil, List.append_nil, pure_eq_ok]
  · rcases List.eq_nil_or_concat' Q with rfl | ⟨Q, lastPtr, rfl⟩
    · simp at hQ
    · have hQB : Q.length = B.length := by simpa using hQ
      have hM : M = 5 := rfl
      have hAB : A.length + B.length = M - 2 := by
        simp only [List.length_append, List.length_cons, List.length_nil] at hfull
        omega
      have hk : read ((A ++ (B ++ [lastKey])).map some) (M - 2) = .ok lastKey := by
        rw [← List.append_nil (List.map some _), read_map_append (by simp; omega)]
        simp [← hAB]
      have hq : read ((C ++ (Q ++ [lastPtr])).map some) (M - 1) = .ok lastPtr := by
        rw [← List.append_nil (List.map some _), read_map_append (by simp; omega)]
        have : M - 1 = C.length + Q.length := by omega
        simp [this]
      have hplace := placeKey_spec n A B C Q hC hQB newKey newPtr (some lastKey) [] (some lastPtr) []
      rw [hAB] at hplace
      refine ⟨A ++ newKey :: B, C ++ newPtr :: Q, lastKey, lastPtr, by simp, by simp, ?_⟩
      rw [spill, if_neg (by omega)]
      simp only [hk, hq, ok_bind]
      simp only [List.map_append, List.map_cons, List.map_nil, List.append_assoc, List.append_nil]
        at hplace ⊢
      rw [hplace, ok_bind, pure_eq_ok]

theorem splitNode_spec (n : ℕ) {ks : List Int} {ps : List Ptr} {lastKey : Int} {lastPtr : Ptr}
    {ks' : List Int} {ps' : List Ptr} (hks : ks' = ks ++ [lastKey]) (hps : ps' = ps ++ [lastPtr])
    (hks' : ks'.length = M) (hps' : ps'.length = M + 1) :
    ∃ left right, splitNode ⟨n, ks.map some, ps.map some⟩ lastKey lastPtr =
        .ok (left, ks'.get ⟨splitPos, by rw [hks']; decide⟩, right) ∧
      Stores left (ks'.take splitPos) (ps'.take (splitPos + 1)) ∧
      Stores right (ks'.drop (splitPos + 1)) (ps'.drop (splitPos + 1)) := by
  subst hks hps
  have hks₄ : ks.length = 4 := by simpa [M] using hks'
  have hps₅ : ps.length = 5 := by simpa [M] using hps'
  match ks, hks₄, ps, hps₅ with
  | [a, b, c, d], _, [p₀, p₁, p₂, p₃, p₄], _ =>
    refine ⟨_, _, rfl, ⟨?_, ⟨[some c, some d], ?_, ?_⟩, ⟨[some p₃, some p₄], ?_, ?_⟩⟩,
      ⟨?_, ⟨[none, none], ?_, ?_⟩, ⟨[none, none], ?_, ?_⟩⟩⟩ <;>
        first | rfl | simp [M, splitPos]

section addKey

variable {heap : Heap} {name : ℕ} {node : NODE} {A B : List Int} {C Q : List Ptr} {newKey : Int}
  (newPtr : Ptr)

theorem addKey_room (hnode : heap[name]? = some node) (hstores : Stores node (A ++ B) (C ++ Q))
    (hC : C.length = A.length + 1) (hQ : Q.length = B.length) (hroom : (A ++ B).length < M - 1)
    (hsorted : (A ++ newKey :: B).Pairwise (· < ·)) :
    ∃ node', addKey heap name (A ++ B).length A.length newKey newPtr =
        .ok (heap.set name node', .success, none) ∧
      Stores node' (A ++ newKey :: B) (C ++ newPtr :: Q) := by
  obtain ⟨rest, rest', rfl, hrest, hrest'⟩ := hstores.cells
  have hM : M = 5 := rfl
  obtain ⟨hbefore, hafter, hacross⟩ := List.pairwise_append.mp hsorted
  have hrank : rank newKey (A ++ B) = A.length :=
    rank_append (fun k hk => hacross k hk newKey List.mem_cons_self) (List.pairwise_cons.mp hafter).1
  have hlength : (A ++ B).length = A.length + B.length := List.length_append
  obtain ⟨y, rest, rfl⟩ : ∃ y l, rest = y :: l := List.exists_cons_of_length_pos (by omega)
  obtain ⟨z, rest', rfl⟩ : ∃ z l, rest' = z :: l := by
    apply List.exists_cons_of_length_pos
    rw [List.length_append] at hrest'
    omega
  have hplace := placeKey_spec (A ++ B).length A B C Q hC hQ newKey newPtr y rest z rest'
  rw [← hlength] at hplace
  refine ⟨⟨(A ++ B).length + 1, (A ++ newKey :: B).map some ++ rest,
    (C ++ newPtr :: Q).map some ++ rest'⟩, ?_, ⟨?_, ⟨rest, rfl, ?_⟩, ⟨rest', rfl, ?_⟩⟩⟩
  · rw [addKey, deref, hnode]
    simp only [ok_bind, if_pos hroom, searchPos_spec, hrank, hplace, pure_eq_ok]
  · simp only [List.length_append, List.length_cons]
    omega
  · simp only [List.length_append, List.length_cons] at hrest ⊢
    omega
  · simp only [List.length_append, List.length_cons] at hrest' ⊢
    omega

theorem addKey_full (hnode : heap[name]? = some node) (hstores : Stores node (A ++ B) (C ++ Q))
    (hC : C.length = A.length + 1) (hQ : Q.length = B.length) (hfull : (A ++ B).length = M - 1)
    (hs : splitPos < (A ++ newKey :: B).length) :
    ∃ left right, addKey heap name (A ++ B).length A.length newKey newPtr =
        .ok (heap.set name left ++ [right], .insertIt,
          some ((A ++ newKey :: B).get ⟨splitPos, hs⟩, some heap.length)) ∧
      Stores left ((A ++ newKey :: B).take splitPos) ((C ++ newPtr :: Q).take (splitPos + 1)) ∧
      Stores right ((A ++ newKey :: B).drop (splitPos + 1)) ((C ++ newPtr :: Q).drop (splitPos + 1)) := by
  obtain ⟨rest, rest', rfl, hrest, hrest'⟩ := hstores.cells
  have hM : M = 5 := rfl
  have hlength : (A ++ B).length = A.length + B.length := List.length_append
  obtain rfl : rest = [] := List.eq_nil_of_length_eq_zero (by omega)
  obtain rfl : rest' = [] := by
    apply List.eq_nil_of_length_eq_zero
    rw [List.length_append] at hrest'
    omega
  obtain ⟨ks, ps, lastKey, lastPtr, hks, hps, hspill⟩ :=
    spill_spec (A ++ B).length A B C Q hC hQ (hlength ▸ hfull) newKey newPtr
  have hks' : (A ++ newKey :: B).length = M := by
    simp only [List.length_append, List.length_cons] at hlength hfull ⊢
    omega
  have hps' : (C ++ newPtr :: Q).length = M + 1 := by
    simp only [List.length_append, List.length_cons] at hlength hfull ⊢
    omega
  obtain ⟨left, right, hsplit, hleft, hright⟩ := splitNode_spec (A ++ B).length hks hps hks' hps'
  refine ⟨left, right, ?_, hleft, hright⟩
  have hnot : ¬ (A ++ B).length < M - 1 := by omega
  rw [List.append_nil, List.append_nil] at hnode
  rw [addKey, deref, hnode]
  simp only [ok_bind, if_neg hnot, hspill, hsplit, pure_eq_ok]

end addKey

end CodingForFun.Btree
