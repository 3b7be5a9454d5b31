import CodingForFun.Lib.Orbit
import Mathlib.Data.Int.Notation

/-!
# `linkedlistproblems.c`

Lists of `struct node`, which `insert_beginning` builds, and `nodefromend`. The pointer that is to be
`k` nodes ahead has run off a list of exactly `k` nodes, and so `nodefromend` misses its first node.
-/

namespace CodingForFun.Linkedlistproblems

open Lib

/-- `struct node` -/
structure Node where
  next : Option ℕ
  value : ℤ

instance : LinkedNode Node ℤ where
  next := Node.next
  value := Node.value
  setNext n q := { n with next := q }
  next_setNext _ _ := rfl
  value_setNext _ _ := rfl

/-- The nodes in memory, and the pointer to the list. -/
structure State where
  heap : Memory Node
  list : Option ℕ

def State.empty : State := ⟨.empty, none⟩

/-- The nodes and values of a list that ends. -/
def IsList (s : State) (l : List (ℕ × ℤ)) : Prop := s.heap.Path s.list l none

/-- The pointer behind `k` links from the list. -/
def ptr (s : State) (k : ℕ) : Option ℕ := follow s.heap.link s.list k

/-! ### Building a list -/

/-- `insert_beginning` -/
def insertBeginning (s : State) (value : ℤ) : State :=
  ⟨s.heap.alloc ⟨s.list, value⟩, some s.heap.fresh⟩

/-- The list of these values, inserted from the last one on. -/
def listOf (vs : List ℤ) : State := vs.foldr (fun v s => insertBeginning s v) .empty

theorem IsList.insertBeginning {s : State} {l : List (ℕ × ℤ)} (h : IsList s l) (v : ℤ) :
    IsList (insertBeginning s v) ((s.heap.fresh, v) :: l) :=
  ⟨rfl, _, Memory.alloc_self, rfl, h.alloc _⟩

theorem listOf_isList (vs : List ℤ) : ∃ l, IsList (listOf vs) l ∧ l.map Prod.snd = vs := by
  induction vs with
  | nil => exact ⟨[], rfl, rfl⟩
  | cons v vs ih =>
    obtain ⟨l, hl, hvs⟩ := ih
    exact ⟨_, hl.insertBeginning v, by rw [List.map_cons, hvs]⟩

/-! ### `nodefromend` -/

/-- `first != NULL && i < k` -/
def firstGoesOn (k : ℤ) (s : Option ℕ × ℤ) : Except Fault Bool :=
  pure (s.1 != none && decide (s.2 < k))

/-- The body of the first loop of `nodefromend`, on `first` and `i`. -/
def moveFirst (h : Memory Node) (s : Option ℕ × ℤ) : Except Fault (Option ℕ × ℤ) := do
  pure ((← h.read s.1).next, s.2 + 1)

/-- `first != NULL` -/
def bothGoOn (s : Option ℕ × Option ℕ) : Except Fault Bool := pure (s.1 != none)

/-- The body of the second loop, on `first` and `second`. -/
def moveBoth (h : Memory Node) (s : Option ℕ × Option ℕ) : Except Fault (Option ℕ × Option ℕ) := do
  let first := (← h.read s.1).next
  let second := (← h.read s.2).next
  pure (first, second)

def nodefromend (s : State) (k : ℤ) : Except Fault (Option ℕ) := do
  let (first, _) ← whileM .unbounded (firstGoesOn k) (moveFirst s.heap) (s.heap.fresh + 1) (s.list, 0)
  if first = none then
    pure none
  else
    let (_, second) ← whileM .unbounded bothGoOn (moveBoth s.heap) (s.heap.fresh + 1) (first, s.list)
    pure second

section nodefromend

variable {s : State} {l : List (ℕ × ℤ)} {k : ℤ}

theorem IsList.ptr_eq (h : IsList s l) (k : ℕ) : ptr s k = (l.map Prod.fst)[k]? := h.follow_eq k

theorem IsList.ptr_ne_none_iff (h : IsList s l) {k : ℕ} : ptr s k ≠ none ↔ k < l.length :=
  h.follow_ne_none_iff

theorem IsList.read_next (h : IsList s l) {k : ℕ} (hk : k < l.length) :
    ∃ n, s.heap.read (ptr s k) = .ok n ∧ n.next = ptr s (k + 1) := by
  obtain ⟨n, hn, -, hnext⟩ := h.read (by rwa [List.length_map])
  exact ⟨n, hn, hnext⟩

theorem firstLoop_eq (h : IsList s l) (k : ℕ) :
    whileM .unbounded (firstGoesOn k) (moveFirst s.heap) (s.heap.fresh + 1) (s.list, 0) =
      .ok (ptr s (min k l.length), (min k l.length : ℕ)) := by
  refine whileM_states (fun i => (ptr s i, (i : ℤ))) (min k l.length) (fun i hi => ⟨?_, ?_⟩) ?_ ?_
  · have hptr : ptr s i ≠ none := h.ptr_ne_none_iff.mpr (by omega)
    have hlt : i < k := by omega
    simp [firstGoesOn, hptr, hlt]
  · obtain ⟨n, hn, hnext⟩ := h.read_next (show i < l.length by omega)
    simp only [moveFirst, hn, ok_bind, pure_eq_ok, hnext, Int.natCast_succ]
  · by_cases hk : k ≤ l.length
    · simp [firstGoesOn, Nat.min_eq_left hk]
    · have hptr : ptr s l.length = none := by
        by_contra hne
        exact absurd (h.ptr_ne_none_iff.mp hne) (Nat.lt_irrefl _)
      simp [firstGoesOn, Nat.min_eq_right (Nat.le_of_not_le hk), hptr]
  · have hle := h.length_le_fresh
    omega

theorem secondLoop_eq (h : IsList s l) {k : ℕ} (hk : k ≤ l.length) :
    whileM .unbounded bothGoOn (moveBoth s.heap) (s.heap.fresh + 1) (ptr s k, s.list) =
      .ok (none, ptr s (l.length - k)) := by
  have hend : ptr s (k + (l.length - k)) = none := by
    by_contra hne
    have := h.ptr_ne_none_iff.mp hne
    omega
  have hrun : whileM .unbounded bothGoOn (moveBoth s.heap) (s.heap.fresh + 1) (ptr s k, ptr s 0) =
      .ok (ptr s (k + (l.length - k)), ptr s (l.length - k)) := by
    refine whileM_states (fun i => (ptr s (k + i), ptr s i)) (l.length - k) (fun i hi => ⟨?_, ?_⟩) ?_ ?_
    · have hptr : ptr s (k + i) ≠ none := h.ptr_ne_none_iff.mpr (by omega)
      simp [bothGoOn, hptr]
    · obtain ⟨n, hn, hnext⟩ := h.read_next (show k + i < l.length by omega)
      obtain ⟨n', hn', hnext'⟩ := h.read_next (show i < l.length by omega)
      simp only [moveBoth, hn, hn', ok_bind, pure_eq_ok, hnext, hnext', Nat.add_assoc]
    · simp [bothGoOn, hend]
    · have hle := h.length_le_fresh
      omega
  rw [hend] at hrun
  exact hrun

theorem nodefromend_eq (h : IsList s l) (k : ℕ) :
    nodefromend s k = .ok (if k < l.length then ptr s (l.length - k) else none) := by
  rw [nodefromend, firstLoop_eq h k, ok_bind]
  by_cases hk : k < l.length
  · have hptr : ptr s k ≠ none := h.ptr_ne_none_iff.mpr hk
    simp only [Nat.min_eq_left hk.le, if_neg hptr, if_pos hk, secondLoop_eq h hk.le, ok_bind,
      pure_eq_ok]
  · have hptr : ptr s l.length = none := by
      by_contra hne
      exact absurd (h.ptr_ne_none_iff.mp hne) (Nat.lt_irrefl _)
    simp only [Nat.min_eq_right (not_lt.mp hk), hptr, if_pos, if_neg hk, pure_eq_ok]

/-- `r` is the node with `k - 1` nodes after it, or null when the list has fewer than `k`. -/
def FromEnd (l : List (ℕ × ℤ)) (k : ℤ) (r : Option ℕ) : Prop :=
  (k ≤ l.length → ∃ front x back, l = front ++ x :: back ∧ back.length = k - 1 ∧ r = some x.1) ∧
    (l.length < k → r = none)

/-- Only the first node is not found. -/
theorem nodefromend_fromEnd_iff (h : IsList s l) (hk : 1 ≤ k) :
    (∃ r, nodefromend s k = .ok r ∧ FromEnd l k r) ↔ k ≠ l.length := by
  obtain ⟨k, rfl⟩ := Int.eq_ofNat_of_zero_le (show 0 ≤ k by omega)
  rw [nodefromend_eq h k]
  constructor
  · rintro ⟨r, hr, hclaim, -⟩ heq
    rw [if_neg (by omega)] at hr
    obtain ⟨front, x, back, -, -, hx⟩ := hclaim (by omega)
    rw [← Except.ok.inj hr] at hx
    exact absurd hx (Option.some_ne_none x.1).symm
  · intro hlen
    refine ⟨_, rfl, fun hle => ?_, fun hlt => if_neg (by omega)⟩
    have hlt : l.length - k < l.length := by omega
    refine ⟨l.take (l.length - k), l[l.length - k], l.drop (l.length - k + 1), ?_, ?_, ?_⟩
    · rw [List.getElem_cons_drop, List.take_append_drop]
    · rw [List.length_drop]
      omega
    · rw [if_pos (by omega), h.ptr_eq, List.getElem?_map, List.getElem?_eq_getElem hlt, Option.map_some]

theorem nodefromend_fromEnd_example :
    (∃ r, nodefromend (listOf [4, 5]) 1 = .ok r ∧ FromEnd [(1, 4), (0, 5)] 1 r) ↔ (1 : ℤ) ≠ 2 :=
  nodefromend_fromEnd_iff ⟨rfl, _, rfl, rfl, rfl, _, rfl, rfl, rfl⟩ (by decide)

/-- A list of one node, and the last node asked for. -/
theorem nodefromend_misses : ∃ l, IsList (listOf [7]) l ∧ l ≠ [] ∧
    ¬∃ r, nodefromend (listOf [7]) 1 = .ok r ∧ FromEnd l 1 r := by
  have hlist : IsList (listOf [7]) [(0, 7)] := ⟨rfl, _, rfl, rfl, rfl⟩
  have hresult : nodefromend (listOf [7]) 1 = .ok none := rfl
  refine ⟨_, hlist, by decide, ?_⟩
  intro h
  obtain ⟨r, hr, hclaim, -⟩ := h
  obtain ⟨front, x, back, -, -, hx⟩ := hclaim (by decide)
  rw [hresult] at hr
  rw [← Except.ok.inj hr] at hx
  exact absurd hx (Option.some_ne_none x.1).symm

end nodefromend

end CodingForFun.Linkedlistproblems
