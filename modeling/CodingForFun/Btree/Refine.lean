import CodingForFun.Btree.Nodes
import Mathlib.Data.List.Nodup

/-!
# `insertHelper` on a B-tree in the heap

`Rep heap d t` says that the nodes of the tree `t` of depth `d` lie in the heap, each at the position
that is its name. A call of `insertHelper` changes only nodes of the tree it is called on and puts
new ones at the end of the heap, so what it leaves holds the outcome of `BTree.ins`, and trees
without a node in common with that one are where they were (`insertHelper_refines`).
-/

namespace CodingForFun.Btree

open Lib Cells BTree

/-- The pointer to a tree. -/
def ptr : (d : ℕ) → BTree Int d → Ptr
  | 0, _ => none
  | _ + 1, t => some (Node.name t)

/-- The tree lies in the heap. -/
def Rep (heap : Heap) : (d : ℕ) → BTree Int d → Prop
  | 0, _ => True
  | d + 1, t => (∃ node, heap[Node.name t]? = some node ∧
      Stores node (Node.keys t) ((Node.kids t).map (ptr d))) ∧ ∀ c ∈ Node.kids t, Rep heap d c

theorem Rep.lt {heap : Heap} : ∀ {d : ℕ} {t : BTree Int d}, Rep heap d t →
    ∀ a ∈ names d t, a < heap.length := by
  intro d
  induction d with
  | zero => intro t _ a ha; exact absurd ha List.not_mem_nil
  | succ d ih =>
    intro t h a ha
    obtain ⟨⟨node, hnode, -⟩, hkids⟩ := h
    rcases List.mem_cons.mp ha with rfl | ha
    · exact (List.getElem?_eq_some_iff.mp hnode).1
    · obtain ⟨c, hc, hac⟩ := List.mem_flatMap.mp ha
      exact ih (hkids c hc) a hac

theorem Rep.frame {heap heap' : Heap} : ∀ {d : ℕ} {t : BTree Int d}, Rep heap d t →
    (∀ a ∈ names d t, heap'[a]? = heap[a]?) → Rep heap' d t := by
  intro d
  induction d with
  | zero => intro t _ _; trivial
  | succ d ih =>
    intro t h hsame
    obtain ⟨⟨node, hnode, hstores⟩, hkids⟩ := h
    refine ⟨⟨node, ?_, hstores⟩, fun c hc => ih (hkids c hc) fun a ha => hsame a ?_⟩
    · rw [hsame _ List.mem_cons_self, hnode]
    · exact List.mem_cons_of_mem _ (List.mem_flatMap.mpr ⟨c, hc, ha⟩)

/-- The heap has grown, and its old nodes other than those of `N` are as they were. -/
def SameOff (N : List ℕ) (heap heap' : Heap) : Prop :=
  heap.length ≤ heap'.length ∧ ∀ a < heap.length, a ∉ N → heap'[a]? = heap[a]?

/-- What a call of `insertHelper` on `t` leaves when the outcome of the insertion is the last
argument. -/
def Refines (heap : Heap) (d : ℕ) (t : BTree Int d)
    (r : Except Fault (Heap × KeyStatus × Option (Int × Ptr))) : Outcome Int (BTree Int d) → Prop
  | .duplicate => r = .ok (heap, .duplicate, none)
  | .done t' next => ∃ heap', r = .ok (heap', .success, none) ∧ heap'.length = next ∧
      Rep heap' d t' ∧ ptr d t' = ptr d t ∧ SameOff (names d t) heap heap'
  | .split left up right next => ∃ heap', r = .ok (heap', .insertIt, some (up, ptr d right)) ∧
      heap'.length = next ∧ Rep heap' d left ∧ Rep heap' d right ∧ ptr d left = ptr d t ∧
      SameOff (names d t) heap heap'

/-! ## One node -/

section node

variable {d : ℕ} {t : Node Int (BTree Int d)} {i : ℕ}

theorem name_notMem_kid (hnodup : (t.names (names d)).Nodup) {c : BTree Int d} (hc : c ∈ t.kids) :
    t.name ∉ names d c := by
  intro hmem
  exact (List.nodup_cons.mp hnodup).1 (List.mem_flatMap.mpr ⟨c, hc, hmem⟩)

theorem notMem_kid (hnodup : (t.names (names d)).Nodup) (hi : i ≤ t.keys.length) {c : BTree Int d}
    (hc : c ∈ t.kids.take i ∨ c ∈ t.kids.drop (i + 1)) {a : ℕ} (ha : a ∈ names d c) :
    a ∉ names d (t.kid i hi) := by
  have hkids := (List.nodup_cons.mp hnodup).2
  rw [t.kids_eq hi, List.flatMap_append, List.flatMap_cons] at hkids
  obtain ⟨-, hrest, hbefore⟩ := List.nodup_append.mp hkids
  obtain ⟨-, -, hafter⟩ := List.nodup_append.mp hrest
  intro hmem
  rcases hc with hc | hc
  · exact hbefore a (List.mem_flatMap.mpr ⟨c, hc, ha⟩) a (List.mem_append_left _ hmem) rfl
  · exact hafter a hmem a (List.mem_flatMap.mpr ⟨c, hc, ha⟩) rfl

theorem map_ptr_kids (hi : i ≤ t.keys.length) :
    t.kids.map (ptr d) = ((t.kids.take i).map (ptr d) ++ [ptr d (t.kid i hi)]) ++
      (t.kids.drop (i + 1)).map (ptr d) := by
  rw [List.append_assoc, List.singleton_append, ← List.map_cons, ← List.map_append, ← t.kids_eq hi]

theorem read_kid (rest : Cells Ptr) (hi : i ≤ t.keys.length) :
    read ((t.kids.map (ptr d)).map some ++ rest) i = .ok (ptr d (t.kid i hi)) := by
  have hlt : i < (t.kids.map (ptr d)).length := by
    rw [List.length_map, t.length_kids]
    omega
  rw [read_map_append hlt, List.getElem_map]
  rfl

theorem Rep.others {heap heap₁ : Heap} (h : Rep heap (d + 1) t) (hnodup : (t.names (names d)).Nodup)
    (hi : i ≤ t.keys.length) (hsame : SameOff (names d (t.kid i hi)) heap heap₁) {c : BTree Int d}
    (hc : c ∈ t.kids.take i ∨ c ∈ t.kids.drop (i + 1)) : c ∈ t.kids ∧ Rep heap₁ d c := by
  have hmem : c ∈ t.kids := by
    rcases hc with hc | hc
    · exact List.mem_of_mem_take hc
    · exact List.mem_of_mem_drop hc
  refine ⟨hmem, (h.2 c hmem).frame fun a ha => ?_⟩
  exact hsame.2 a ((h.2 c hmem).lt a ha) (notMem_kid hnodup hi hc ha)

theorem Rep.node {heap heap₁ : Heap} (h : Rep heap (d + 1) t) (hnodup : (t.names (names d)).Nodup)
    (hi : i ≤ t.keys.length) (hsame : SameOff (names d (t.kid i hi)) heap heap₁) :
    ∃ node, heap₁[t.name]? = some node ∧ Stores node t.keys (t.kids.map (ptr d)) := by
  obtain ⟨⟨node, hnode, hstores⟩, -⟩ := h
  refine ⟨node, ?_, hstores⟩
  rw [← hnode]
  exact hsame.2 _ (List.getElem?_eq_some_iff.mp hnode).1 (name_notMem_kid hnodup (t.kid_mem hi))

theorem Rep.replace {heap heap₁ : Heap} (h : Rep heap (d + 1) t) (hnodup : (t.names (names d)).Nodup)
    (hi : i ≤ t.keys.length) {c : BTree Int d} (hc : Rep heap₁ d c)
    (hptr : ptr d c = ptr d (t.kid i hi)) (hsame : SameOff (names d (t.kid i hi)) heap heap₁) :
    Rep heap₁ (d + 1) (t.replace i c) := by
  obtain ⟨node, hnode, hstores⟩ := h.node hnodup hi hsame
  refine ⟨⟨node, hnode, ?_⟩, fun a ha => ?_⟩
  · rw [map_ptr_kids hi, ← hptr] at hstores
    rw [Node.kids_replace t hi]
    simp only [List.map_append, List.map_cons, List.append_assoc, List.singleton_append] at hstores ⊢
    exact hstores
  · rw [Node.kids_replace t hi] at ha
    rcases List.mem_append.mp ha with ha | ha
    · exact (h.others hnodup hi hsame (.inl ha)).2
    · rcases List.mem_cons.mp ha with rfl | ha
      · exact hc
      · exact (h.others hnodup hi hsame (.inr ha)).2

theorem SameOff.parent {heap heap₁ : Heap} (hi : i ≤ t.keys.length)
    (hsame : SameOff (names d (t.kid i hi)) heap heap₁) : SameOff (names (d + 1) t) heap heap₁ := by
  refine ⟨hsame.1, fun a ha hmem => hsame.2 a ha fun hkid => hmem ?_⟩
  exact List.mem_cons_of_mem _ (List.mem_flatMap.mpr ⟨_, t.kid_mem hi, hkid⟩)

theorem Rep.spread {heap heap₁ : Heap} (h : Rep heap (d + 1) t) (hnodup : (t.names (names d)).Nodup)
    (hi : i ≤ t.keys.length) {key up : Int} {l r : BTree Int d}
    (hout : ins M key d (t.kid i hi) heap.length = .split l up r heap₁.length)
    (hl : Rep heap₁ d l) (hr : Rep heap₁ d r) (hsame : SameOff (names d (t.kid i hi)) heap heap₁) :
    ∀ c ∈ (t.spread i hi l up r).kids, Rep heap₁ d c ∧ t.name ∉ names d c := by
  have hname : t.name < heap.length := h.lt _ List.mem_cons_self
  have hsplit : t.name ∉ names d l ++ names d r := by
    have hrenames := ins_renames M key d (t.kid i hi) heap.length
    rw [hout] at hrenames
    intro hmem
    rcases List.mem_append.mp (hrenames.2.mem_iff.mp hmem) with hmem | hmem
    · exact name_notMem_kid hnodup (t.kid_mem hi) hmem
    · have := (List.mem_range'_1.mp hmem).1
      omega
  intro c hc
  simp only [Node.spread, List.mem_append, List.mem_cons] at hc
  rcases hc with hc | rfl | rfl | hc
  · obtain ⟨hmem, hrep⟩ := h.others hnodup hi hsame (.inl hc)
    exact ⟨hrep, name_notMem_kid hnodup hmem⟩
  · exact ⟨hl, fun hmem => hsplit (List.mem_append_left _ hmem)⟩
  · exact ⟨hr, fun hmem => hsplit (List.mem_append_right _ hmem)⟩
  · obtain ⟨hmem, hrep⟩ := h.others hnodup hi hsame (.inr hc)
    exact ⟨hrep, name_notMem_kid hnodup hmem⟩

theorem SameOff.set {heap heap₁ : Heap} (hi : i ≤ t.keys.length)
    (hsame : SameOff (names d (t.kid i hi)) heap heap₁) (node : NODE) (new : List NODE) :
    SameOff (names (d + 1) t) heap (heap₁.set t.name node ++ new) := by
  refine ⟨?_, fun a ha hmem => ?_⟩
  · rw [List.length_append, List.length_set]
    exact hsame.1.trans (Nat.le_add_right _ _)
  · have hname : t.name ≠ a := fun heq => hmem (heq ▸ List.mem_cons_self)
    have hlt : a < heap₁.length := lt_of_lt_of_le ha hsame.1
    rw [List.getElem?_append_left (by simpa using hlt), List.getElem?_set_ne hname]
    exact (hsame.parent hi).2 a ha hmem

theorem Rep.set {heap₁ : Heap} {c : BTree Int d} (h : Rep heap₁ d c) {name : ℕ}
    (hname : name ∉ names d c) (node : NODE) (new : List NODE) :
    Rep (heap₁.set name node ++ new) d c := by
  apply h.frame
  intro a ha
  have hne : name ≠ a := fun heq => hname (heq ▸ ha)
  rw [List.getElem?_append_left (by simpa using h.lt a ha), List.getElem?_set_ne hne]

end node

/-! ## The insertion -/

section insertion

variable {d : ℕ} {t : Node Int (BTree Int d)} {heap heap₁ : Heap} {key up : Int} {l r : BTree Int d}

theorem addKey_refines (h : Rep heap (d + 1) t) (hnodup : (t.names (names d)).Nodup)
    (hle : t.keys.length ≤ M - 1) (hsorted : (t.toList (toList d)).Pairwise (· < ·))
    (hdup : t.keys[rank key t.keys]? ≠ some key)
    (hout : ins M key d (t.kid _ (rank_le key t.keys)) heap.length = .split l up r heap₁.length)
    (hl : Rep heap₁ d l) (hr : Rep heap₁ d r)
    (hptr : ptr d l = ptr d (t.kid _ (rank_le key t.keys)))
    (hsame : SameOff (names d (t.kid _ (rank_le key t.keys))) heap heap₁) :
    Refines heap (d + 1) t (addKey heap₁ t.name t.keys.length (rank key t.keys) up (ptr d r))
      (ins M key (d + 1) t heap.length) := by
  have hi := rank_le key t.keys
  have hkids := h.spread hnodup hi hout hl hr hsame
  obtain ⟨node, hnode, hstores⟩ := h.node hnodup hi hsame
  have hname : t.name < heap₁.length := (List.getElem?_eq_some_iff.mp hnode).1
  have hins : ins M key (d + 1) t heap.length = Node.insertWith M (ins M key d) t key heap.length := rfl
  have hinserts := ins_inserts M key (d + 1) t heap.length hsorted
  rw [hins, Node.insertWith, if_neg hdup, hout] at hinserts ⊢
  -- the node in terms of what stands before and after the child
  have hlength := t.length_kids
  have hC : ((t.kids.take (rank key t.keys)).map (ptr d) ++ [ptr d (t.kid _ hi)]).length =
      (t.keys.take (rank key t.keys)).length + 1 := by
    simp only [List.length_append, List.length_map, List.length_take, List.length_singleton]
    omega
  have hQ : ((t.kids.drop (rank key t.keys + 1)).map (ptr d)).length =
      (t.keys.drop (rank key t.keys)).length := by
    simp only [List.length_map, List.length_drop]
    omega
  have hkeys : t.keys.take (rank key t.keys) ++ t.keys.drop (rank key t.keys) = t.keys :=
    List.take_append_drop ..
  have hpos : (t.keys.take (rank key t.keys)).length = rank key t.keys := by
    rw [List.length_take]
    omega
  have hptrs : (t.spread _ hi l up r).kids.map (ptr d) =
      ((t.kids.take (rank key t.keys)).map (ptr d) ++ [ptr d (t.kid _ hi)]) ++
        ptr d r :: (t.kids.drop (rank key t.keys + 1)).map (ptr d) := by
    rw [← hptr]
    simp [Node.spread]
  have haround : Stores node (t.keys.take (rank key t.keys) ++ t.keys.drop (rank key t.keys))
      (((t.kids.take (rank key t.keys)).map (ptr d) ++ [ptr d (t.kid _ hi)]) ++
        (t.kids.drop (rank key t.keys + 1)).map (ptr d)) := by
    rw [hkeys, ← map_ptr_kids hi]
    exact hstores
  by_cases hroom : t.keys.length < M - 1
  · simp only [dif_pos hroom, Outcome.Inserts] at hinserts ⊢
    have hsorted' := keys_sorted (hinserts.sorted hsorted)
    rw [← hkeys] at hroom
    obtain ⟨node', hadd, hstores'⟩ := addKey_room (ptr d r) hnode haround hC hQ hroom hsorted'
    rw [hkeys, hpos] at hadd
    rw [← hptrs] at hstores'
    have hset := hsame.set hi node' []
    rw [List.append_nil] at hset
    refine ⟨_, hadd, List.length_set, ⟨⟨node', List.getElem?_set_self hname, hstores'⟩, fun c hc => ?_⟩,
      rfl, hset⟩
    have hrep := (hkids c hc).1.set (hkids c hc).2 node' []
    rwa [List.append_nil] at hrep
  · simp only [dif_neg hroom]
    have hs := Node.half_lt_of_full (l := l) (k := up) (r := r) hi hroom
    have hfull : (t.keys.take (rank key t.keys) ++ t.keys.drop (rank key t.keys)).length = M - 1 := by
      rw [hkeys]
      omega
    obtain ⟨left, right, hadd, hleft, hright⟩ := addKey_full (ptr d r) hnode haround hC hQ hfull hs
    rw [hkeys, hpos] at hadd
    rw [← hptrs, ← List.map_take] at hleft
    rw [← hptrs, ← List.map_drop] at hright
    have hkid : ∀ c ∈ (t.spread _ hi l up r).kids, Rep (heap₁.set t.name left ++ [right]) d c :=
      fun c hc => (hkids c hc).1.set (hkids c hc).2 left [right]
    refine ⟨_, hadd, by simp, ⟨⟨left, ?_, hleft⟩, fun c hc => hkid c (List.mem_of_mem_take hc)⟩,
      ⟨⟨right, ?_, hright⟩, fun c hc => hkid c (List.mem_of_mem_drop hc)⟩, rfl, hsame.set hi left [right]⟩
    · show (heap₁.set t.name left ++ [right])[t.name]? = some left
      rw [List.getElem?_append_left (by simpa using hname)]
      exact List.getElem?_set_self hname
    · show (heap₁.set t.name left ++ [right])[heap₁.length]? = some right
      simp

theorem insertNode_refines {fuel lo : ℕ} (h : Rep heap (d + 1) t) (hnodup : (t.names (names d)).Nodup)
    (hbounded : t.Bounded M lo (Balanced M ((M - 1) / 2) d))
    (hsorted : (t.toList (toList d)).Pairwise (· < ·))
    (hcall : ∀ c, Rep heap d c → (names d c).Nodup → Balanced M ((M - 1) / 2) d c →
      (toList d c).Pairwise (· < ·) →
        Refines heap d c (insertHelper fuel heap (ptr d c) key) (ins M key d c heap.length)) :
    Refines heap (d + 1) t (insertHelper (fuel + 1) heap (some t.name) key)
      (ins M key (d + 1) t heap.length) := by
  have hi := rank_le key t.keys
  obtain ⟨node, hnode, hstores⟩ := h.1
  obtain ⟨rest, rest', rfl, hrest, hrest'⟩ := hstores.cells
  have hchild := read_kid rest' hi
  have hrun : insertHelper (fuel + 1) heap (some t.name) key =
      if t.keys[rank key t.keys]? = some key then .ok (heap, .duplicate, none)
      else insertHelper fuel heap (ptr d (t.kid _ hi)) key >>=
        afterCall t.name t.keys.length (rank key t.keys) := by
    rw [insertHelper, deref, hnode]
    simp only [ok_bind, searchPos_spec, isDuplicate_spec, hchild, pure_eq_ok, decide_eq_true_eq]
  have hins : ins M key (d + 1) t heap.length = Node.insertWith M (ins M key d) t key heap.length := rfl
  rw [hrun]
  by_cases hdup : t.keys[rank key t.keys]? = some key
  · rw [if_pos hdup, hins, Node.insertWith, if_pos hdup]
    rfl
  · rw [if_neg hdup]
    have hmem := t.kid_mem hi
    have hkidsorted := Node.kid_sorted hsorted hi
    have hkidnodup : (names d (t.kid _ hi)).Nodup :=
      (List.nodup_flatMap.mp (List.nodup_cons.mp hnodup).2).1 _ hmem
    have hrefines := hcall (t.kid _ hi) (h.2 _ hmem) hkidnodup (hbounded.2.2 _ hmem) hkidsorted
    cases hout : ins M key d (t.kid _ hi) heap.length with
    | duplicate =>
      rw [hout] at hrefines
      rw [hins, Node.insertWith, if_neg hdup, hout, show insertHelper fuel heap _ key = _ from hrefines]
      rfl
    | done c next =>
      rw [hout] at hrefines
      obtain ⟨heap₁, hcall, hnext, hc, hptr, hsame⟩ := hrefines
      rw [hins, Node.insertWith, if_neg hdup, hout, hcall]
      exact ⟨heap₁, rfl, hnext, h.replace hnodup hi hc hptr hsame, rfl, hsame.parent hi⟩
    | split l up r next =>
      rw [hout] at hrefines
      obtain ⟨heap₁, hcall, rfl, hl, hr, hptr, hsame⟩ := hrefines
      rw [hcall]
      exact addKey_refines h hnodup hbounded.2.1 hsorted hdup hout hl hr hptr hsame

theorem insertHelper_refines (key : Int) :
    ∀ (d fuel : ℕ) (heap : Heap) (t : BTree Int d) (lo : ℕ), d < fuel → Rep heap d t →
      (names d t).Nodup → Balanced M lo d t → (toList d t).Pairwise (· < ·) →
      Refines heap d t (insertHelper fuel heap (ptr d t) key) (ins M key d t heap.length) := by
  intro d
  induction d with
  | zero =>
    intro fuel heap t lo hfuel _ _ _ _
    obtain ⟨fuel, rfl⟩ : ∃ m, fuel = m + 1 := ⟨fuel - 1, by omega⟩
    exact ⟨heap, rfl, rfl, trivial, trivial, rfl, le_rfl, fun _ _ _ => rfl⟩
  | succ d ih =>
    intro fuel heap t lo hfuel hrep hnodup hbalanced hsorted
    obtain ⟨fuel, rfl⟩ : ∃ m, fuel = m + 1 := ⟨fuel - 1, by omega⟩
    exact insertNode_refines hrep hnodup hbalanced hsorted (ih fuel heap · ((M - 1) / 2) (by omega))

end insertion

end CodingForFun.Btree
