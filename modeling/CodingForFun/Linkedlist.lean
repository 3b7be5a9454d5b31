import CodingForFun.Lib.Memory
import CodingForFun.Lib.Runs
import Mathlib.Algebra.Order.Group.Multiset
import Mathlib.Data.Int.Order.Basic

/-!
# The list with `insertOrder` and `remove`

The class `List` of `src/cpp/linkedlist.cpp`. Both loops start at the node behind `head`: a value below
the first one comes in behind it, and the first node is never removed. So the values are in order as
long as none comes in below the first one (`always_ordered_iff`), and `remove` is right about a value
that is not only in the first node (`removes_iff`).
-/

namespace CodingForFun.Linkedlist

open Lib

/-- `class Node` -/
structure Node where
  data : ℤ
  next : Option ℕ

instance : LinkedNode Node ℤ where
  next := Node.next
  value := Node.data
  setNext n q := { n with next := q }
  next_setNext _ _ := rfl
  value_setNext _ _ := rfl

/-- An object of the class `List`, and the nodes in memory. -/
structure State where
  heap : Memory Node
  head : Option ℕ

/-- `List::List` -/
def State.empty : State := ⟨.empty, none⟩

def isEmpty (s : State) : Bool := s.head.isNone

def allocNode (h : Memory Node) (data : ℤ) : Option ℕ × Memory Node :=
  (some h.fresh, h.alloc ⟨data, none⟩)

/-- The loop of `insertOrder`, cut off after `fuel` rounds. -/
def insertLoop (data : ℤ) (newnode : Option ℕ) :
    ℕ → Memory Node → Option ℕ → Option ℕ → Except Fault (Memory Node)
  | 0, _, _, _ => .error .unbounded
  | fuel + 1, h, prev, current => do
    if current = none then
      -- inserting at end
      let h ← h.modify prev fun n => { n with next := newnode }
      h.modify newnode fun n => { n with next := none }
    else if (← h.read current).data > data then
      -- insert node
      let h ← h.modify prev fun n => { n with next := newnode }
      h.modify newnode fun n => { n with next := current }
    else
      -- move forward
      insertLoop data newnode fuel h current (← h.read current).next

def insertOrder (s : State) (data : ℤ) : Except Fault State := do
  let (newnode, h) := allocNode s.heap data
  if isEmpty s then
    return ⟨h, newnode⟩
  let current := (← h.read s.head).next
  let h ← insertLoop data newnode (h.fresh + 1) h s.head current
  pure ⟨h, s.head⟩

/-- The loop of `remove`, cut off after `fuel` rounds. -/
def removeLoop (d : ℤ) :
    ℕ → Memory Node → Option ℕ → Option ℕ → Except Fault (Bool × Memory Node)
  | 0, _, _, _ => .error .unbounded
  | fuel + 1, h, prev, current => do
    if current = none then
      pure (false, h)
    else if (← h.read current).data = d then
      let next := (← h.read current).next
      let h ← h.modify prev fun n => { n with next := next }
      let h ← h.free current
      pure (true, h)
    else
      removeLoop d fuel h current (← h.read current).next

def remove (s : State) (d : ℤ) : Except Fault (Bool × State) := do
  let current := (← s.heap.read s.head).next
  let (removed, h) ← removeLoop d (s.heap.fresh + 1) s.heap s.head current
  pure (removed, ⟨h, s.head⟩)

/-- The nodes and values of the list, from `head` along `next`. -/
def IsList (s : State) (l : List (ℕ × ℤ)) : Prop := s.heap.Path s.head l none

section loops

variable {h : Memory Node} {p : Option ℕ} {v : ℤ} {a : ℕ}

/-- The stores with which `insertOrder` ends: the new node comes in behind the node `x`. -/
theorem insertBehind_ok (hnew : h.node a = some ⟨v, none⟩) {rest front : List (ℕ × ℤ)} {x : ℕ × ℤ}
    {r : Option ℕ} (hfront : h.Path p (front ++ [x]) r) (hrest : h.Path r rest none)
    (hnodup : ((front ++ [x] ++ rest).map Prod.fst).Nodup)
    (ha : a ∉ (front ++ [x] ++ rest).map Prod.fst) :
    ∃ h', (do
        let h ← h.modify (some x.1) fun n => { n with next := some a }
        h.modify (some a) fun n => { n with next := r }) = .ok h' ∧
      h'.Path p (front ++ [x] ++ (a, v) :: rest) none := by
  obtain ⟨-, n, hn, -, -⟩ := Memory.path_concat.mp hfront
  have hax := Memory.ne_middle ha
  refine ⟨_, ?_, hfront.insertBehind hrest hnodup hnew ha⟩
  rw [Memory.modify_some hn, ok_bind, Memory.modify_some ((Memory.update_of_ne hax).trans hnew)]
  rfl

theorem insertLoop_ok (hnew : h.node a = some ⟨v, none⟩) :
    ∀ (rest front : List (ℕ × ℤ)) (x : ℕ × ℤ) (r : Option ℕ) (fuel : ℕ),
      h.Path p (front ++ [x]) r → h.Path r rest none →
      ((front ++ [x] ++ rest).map Prod.fst).Nodup → a ∉ (front ++ [x] ++ rest).map Prod.fst →
      rest.length < fuel →
      ∃ h' l₁ l₂, insertLoop v (some a) fuel h (some x.1) r = .ok h' ∧ rest = l₁ ++ l₂ ∧
        (∀ y ∈ l₁, y.2 ≤ v) ∧ (∀ y, l₂.head? = some y → v < y.2) ∧
        h'.Path p (front ++ [x] ++ l₁ ++ (a, v) :: l₂) none := by
  intro rest
  induction rest with
  | nil =>
    intro front x r fuel hfront hrest hnodup ha hfuel
    obtain ⟨fuel, rfl⟩ := Nat.exists_eq_succ_of_ne_zero (Nat.ne_zero_of_lt hfuel)
    obtain ⟨h', hh', hpath⟩ := insertBehind_ok hnew hfront hrest hnodup ha
    obtain rfl : r = none := hrest
    refine ⟨h', [], [], ?_, rfl, by simp, by simp, by simpa using hpath⟩
    rw [insertLoop, if_pos rfl, hh']
  | cons y rest ih =>
    intro front x r fuel hfront hrest hnodup ha hfuel
    obtain ⟨fuel, rfl⟩ := Nat.exists_eq_succ_of_ne_zero (Nat.ne_zero_of_lt hfuel)
    obtain ⟨rfl, n, hn, hv, hback⟩ := id hrest
    have hv : n.data = y.2 := hv
    rw [insertLoop, if_neg (Option.some_ne_none y.1), Memory.read_some hn]
    simp only [ok_bind]
    by_cases hlt : v < y.2
    · obtain ⟨h', hh', hpath⟩ := insertBehind_ok hnew hfront hrest hnodup ha
      refine ⟨h', [], y :: rest, ?_, rfl, by simp, ?_, by simpa using hpath⟩
      · rw [if_pos (by rw [hv]; exact hlt), hh']
      · intro z hz
        obtain rfl := Option.some.inj hz
        exact hlt
    · have hpassed : h.Path p (front ++ [x] ++ [y]) n.next :=
        Memory.path_concat.mpr ⟨hfront, n, hn, hv, rfl⟩
      rw [List.append_cons] at hnodup ha
      obtain ⟨h', l₁, l₂, hrun, rfl, hle, hgt, hpath⟩ := ih (front ++ [x]) y n.next fuel hpassed hback
        hnodup ha (Nat.lt_of_succ_lt_succ hfuel)
      refine ⟨h', y :: l₁, l₂, ?_, rfl, ?_, hgt, by simpa using hpath⟩
      · rw [if_neg (by rw [hv]; exact hlt), hrun]
      · intro z hz
        rcases List.mem_cons.mp hz with rfl | hz
        · exact not_lt.mp hlt
        · exact hle z hz

theorem removeLoop_ok {d : ℤ} :
    ∀ (rest front : List (ℕ × ℤ)) (x : ℕ × ℤ) (r : Option ℕ) (fuel : ℕ),
      h.Path p (front ++ [x]) r → h.Path r rest none →
      ((front ++ [x] ++ rest).map Prod.fst).Nodup → rest.length < fuel →
      (d ∉ rest.map Prod.snd ∧ removeLoop d fuel h (some x.1) r = .ok (false, h)) ∨
        ∃ h' l₁ a l₂, removeLoop d fuel h (some x.1) r = .ok (true, h') ∧
          rest = l₁ ++ (a, d) :: l₂ ∧ h'.Path p (front ++ [x] ++ (l₁ ++ l₂)) none := by
  intro rest
  induction rest with
  | nil =>
    intro front x r fuel _ hrest _ hfuel
    obtain ⟨fuel, rfl⟩ := Nat.exists_eq_succ_of_ne_zero (Nat.ne_zero_of_lt hfuel)
    obtain rfl : r = none := hrest
    refine .inl ⟨by simp, ?_⟩
    rw [removeLoop, if_pos rfl]
    rfl
  | cons y rest ih =>
    intro front x r fuel hfront hrest hnodup hfuel
    obtain ⟨fuel, rfl⟩ := Nat.exists_eq_succ_of_ne_zero (Nat.ne_zero_of_lt hfuel)
    obtain ⟨n, hn, hv, hunlinked⟩ := hfront.unlink hrest hnodup
    obtain ⟨rfl, n', hn', -, hback⟩ := hrest
    obtain rfl : n = n' := Option.some.inj (hn.symm.trans hn')
    have hv : n.data = y.2 := hv
    obtain ⟨-, k, hk, -, -⟩ := Memory.path_concat.mp hfront
    rw [removeLoop, if_neg (Option.some_ne_none y.1), Memory.read_some hn]
    simp only [ok_bind]
    by_cases hd : y.2 = d
    · subst hd
      have hxy : y.1 ≠ x.1 := by
        intro hyx
        apply (Memory.notMem_around hnodup).2
        simp [hyx]
      refine .inr ⟨_, [], y.1, rest, ?_, rfl, hunlinked⟩
      rw [if_pos hv, Memory.modify_some hk, ok_bind,
        Memory.free_some ((Memory.update_of_ne hxy).trans hn)]
      rfl
    · have hpassed : h.Path p (front ++ [x] ++ [y]) n.next :=
        Memory.path_concat.mpr ⟨hfront, n, hn, hv, rfl⟩
      rw [List.append_cons] at hnodup
      rw [if_neg (by rwa [hv])]
      rcases ih (front ++ [x]) y n.next fuel hpassed hback hnodup (Nat.lt_of_succ_lt_succ hfuel) with
        ⟨hnone, hrun⟩ | ⟨h', l₁, a, l₂, hrun, rfl, hpath⟩
      · refine .inl ⟨?_, hrun⟩
        rw [List.map_cons, List.mem_cons, not_or]
        exact ⟨Ne.symm hd, hnone⟩
      · exact .inr ⟨h', y :: l₁, a, l₂, hrun, rfl, by simpa using hpath⟩

end loops

/-! ### Removal -/

section remove

variable {s : State} {x : ℕ × ℤ} {rest : List (ℕ × ℤ)} {d : ℤ}

theorem remove_empty (h : IsList s []) (d : ℤ) : remove s d = .error .outOfBounds := by
  have hhead : s.head = none := h
  rw [remove, hhead]
  rfl

theorem remove_ok (h : IsList s (x :: rest)) (d : ℤ) :
    (d ∉ rest.map Prod.snd ∧ remove s d = .ok (false, s)) ∨
      ∃ s' l₁ a l₂, remove s d = .ok (true, s') ∧ rest = l₁ ++ (a, d) :: l₂ ∧
        IsList s' (x :: (l₁ ++ l₂)) := by
  have hlength := h.length_le_fresh
  have hnodup := h.nodup
  have hhead : s.head = some x.1 := h.1
  obtain ⟨-, n, hn, hv, hrest⟩ := h
  have hstart : s.heap.Path s.head ([] ++ [x]) n.next := ⟨hhead, n, hn, hv, rfl⟩
  have hread : s.heap.read s.head = .ok n := by rw [hhead, Memory.read_some hn]
  rw [remove, hread, ok_bind]
  rcases removeLoop_ok rest [] x n.next (s.heap.fresh + 1) hstart hrest hnodup
      (Nat.lt_succ_of_lt hlength) with ⟨hnone, hrun⟩ | ⟨h', l₁, a, l₂, hrun, hl, hpath⟩
  · rw [← hhead] at hrun
    refine .inl ⟨hnone, ?_⟩
    simp only [hrun, ok_bind, pure_eq_ok]
  · rw [← hhead] at hrun
    refine .inr ⟨⟨h', s.head⟩, l₁, a, l₂, ?_, hl, hpath⟩
    simp only [hrun, ok_bind, pure_eq_ok]

/-- What `remove` is for: it follows no null pointer, tells whether the value was there, takes out one
node with it, and changes nothing else. -/
def Removes (s : State) (l : List (ℕ × ℤ)) (d : ℤ) : Prop :=
  ∃ removed s' l', remove s d = .ok (removed, s') ∧ IsList s' l' ∧
    (removed = true ↔ d ∈ l.map Prod.snd) ∧
    (removed = true → ∃ l₁ a l₂, l = l₁ ++ (a, d) :: l₂ ∧ l' = l₁ ++ l₂) ∧
    (removed = false → s' = s)

/-- `remove` does so exactly when the list is not empty and the value is not only in the first node. -/
theorem removes_iff {s : State} {l : List (ℕ × ℤ)} (h : IsList s l) (d : ℤ) :
    Removes s l d ↔ ∃ x rest, l = x :: rest ∧ (x.2 = d → d ∈ rest.map Prod.snd) := by
  cases l with
  | nil =>
    constructor
    · rintro ⟨removed, s', l', hrun, -⟩
      rw [remove_empty h] at hrun
      cases hrun
    · rintro ⟨x, rest, hl, -⟩
      exact absurd hl (List.cons_ne_nil x rest).symm
  | cons x rest =>
    have hmem : d ∈ (x :: rest).map Prod.snd ↔ x.2 = d ∨ d ∈ rest.map Prod.snd := by
      rw [List.map_cons, List.mem_cons, eq_comm]
    rcases remove_ok h d with ⟨hnone, hrun⟩ | ⟨s', l₁, a, l₂, hrun, hrest, h'⟩
    · constructor
      · rintro ⟨removed, s', l', hrun', -, hiff, -⟩
        obtain ⟨rfl, -⟩ := Prod.mk.inj (Except.ok.inj (hrun.symm.trans hrun'))
        refine ⟨x, rest, rfl, fun hx => ?_⟩
        exact absurd (hiff.mpr (hmem.mpr (.inl hx))) Bool.false_ne_true
      · rintro ⟨x', rest', hl, honly⟩
        obtain ⟨rfl, rfl⟩ := List.cons.inj hl
        refine ⟨false, s, x :: rest, hrun, h, ?_, by simp, fun _ => rfl⟩
        rw [hmem]
        exact iff_of_false Bool.false_ne_true fun hor => hnone (hor.elim honly id)
    · have hd : d ∈ rest.map Prod.snd := by
        rw [hrest]
        simp
      refine iff_of_true ⟨true, s', x :: (l₁ ++ l₂), hrun, h', ?_, ?_, by simp⟩ ⟨x, rest, rfl, fun _ => hd⟩
      · rw [hmem]
        exact iff_of_true rfl (.inr hd)
      · intro _
        refine ⟨x :: l₁, a, l₂, ?_, rfl⟩
        rw [hrest]
        rfl

/-- A list of one node. -/
def oneNode (d : ℤ) : State := ⟨Memory.empty.alloc ⟨d, none⟩, some 0⟩

theorem isList_oneNode (d : ℤ) : IsList (oneNode d) [(0, d)] :=
  ⟨rfl, ⟨d, none⟩, rfl, rfl, rfl⟩

theorem removes_iff_otherValue : Removes (oneNode 5) [(0, 5)] 3 :=
  (removes_iff (isList_oneNode 5) 3).mpr ⟨_, _, rfl, by decide⟩

/-- The value of the only node is not found. -/
theorem not_removes_first :
    IsList (oneNode 5) [(0, 5)] ∧ ¬ Removes (oneNode 5) [(0, 5)] 5 := by
  refine ⟨isList_oneNode 5, ?_⟩
  intro h
  obtain ⟨removed, s', l', hrun, -, hiff, -⟩ := h
  have hremove : remove (oneNode 5) 5 = .ok (false, oneNode 5) := rfl
  obtain ⟨rfl, -⟩ := Prod.mk.inj (Except.ok.inj (hremove.symm.trans hrun))
  exact absurd (hiff.mpr (by decide)) Bool.false_ne_true

end remove

/-! ### Sequences of calls -/

section insert

variable {s : State} {x : ℕ × ℤ} {rest : List (ℕ × ℤ)}

theorem insertOrder_empty (h : IsList s []) (v : ℤ) :
    ∃ s', insertOrder s v = .ok s' ∧ IsList s' [(s.heap.fresh, v)] := by
  have hhead : s.head = none := h
  refine ⟨⟨s.heap.alloc ⟨v, none⟩, some s.heap.fresh⟩, ?_, rfl, _, Memory.alloc_self, rfl, rfl⟩
  rw [insertOrder, isEmpty, hhead]
  rfl

/-- The new node comes in behind the first node and the nodes with values up to its own. -/
theorem insertOrder_ok (h : IsList s (x :: rest)) (v : ℤ) :
    ∃ s' l₁ l₂, insertOrder s v = .ok s' ∧ rest = l₁ ++ l₂ ∧ (∀ y ∈ l₁, y.2 ≤ v) ∧
      (∀ y, l₂.head? = some y → v < y.2) ∧ IsList s' (x :: l₁ ++ (s.heap.fresh, v) :: l₂) := by
  have hlength := h.length_le_fresh
  have hnodup := h.nodup
  have hhead : s.head = some x.1 := h.1
  have hfresh : s.heap.fresh ∉ (x :: rest).map Prod.fst := fun hmem =>
    absurd (Memory.Path.lt_fresh h hmem) (lt_irrefl _)
  obtain ⟨-, n, hn, hv, hrest⟩ := Memory.Path.alloc h ⟨v, none⟩
  have hread : (s.heap.alloc ⟨v, none⟩).read s.head = .ok n := by rw [hhead, Memory.read_some hn]
  have hstart : (s.heap.alloc ⟨v, none⟩).Path s.head ([] ++ [x]) n.next := ⟨hhead, n, hn, hv, rfl⟩
  obtain ⟨h', l₁, l₂, hrun, hl, hle, hgt, hpath⟩ := insertLoop_ok Memory.alloc_self rest [] x n.next
    ((s.heap.alloc ⟨v, none⟩).fresh + 1) hstart hrest hnodup hfresh
    (Nat.lt_succ_of_lt (Nat.lt_succ_of_lt hlength))
  rw [← hhead] at hrun
  refine ⟨⟨h', s.head⟩, l₁, l₂, ?_, hl, hle, hgt, hpath⟩
  have hsome : ¬ isEmpty s = true := by simp [isEmpty, hhead]
  rw [insertOrder]
  simp only [allocNode, hread, hrun, ok_bind, pure_eq_ok]
  rw [if_neg hsome]

end insert

inductive Call
  | insertOrder (data : ℤ)
  | remove (d : ℤ)

/-- The list, with the values that were inserted and, for each `remove` that returned true, the one it
was called with. -/
structure Run where
  state : State
  inserted : Multiset ℤ
  removed : Multiset ℤ

def Run.start : Run := ⟨.empty, 0, 0⟩

def call (r : Run) : Call → Except Fault Run
  | .insertOrder data => do
    let s ← insertOrder r.state data
    pure ⟨s, data ::ₘ r.inserted, r.removed⟩
  | .remove d => do
    let (found, s) ← remove r.state d
    pure ⟨s, r.inserted, if found then d ::ₘ r.removed else r.removed⟩

/-- The values are in order, and are the inserted ones less the removed ones. -/
def Ordered (r : Run) : Prop :=
  ∃ l, IsList r.state l ∧ (l.map Prod.snd).Pairwise (· ≤ ·) ∧
    (l.map Prod.snd : Multiset ℤ) + r.removed = r.inserted

/-- `remove` is called when the list is not empty. -/
def NonEmpty (r : Run) : Call → Prop
  | .insertOrder _ => True
  | .remove _ => isEmpty r.state = false

instance (r : Run) : (c : Call) → Decidable (NonEmpty r c)
  | .insertOrder _ => .isTrue trivial
  | .remove _ => inferInstanceAs (Decidable (isEmpty r.state = false))

/-- The value that is inserted is not below the first one. -/
def NotBelowFirst (r : Run) : Call → Prop
  | .insertOrder data => ∀ n, r.state.heap.read r.state.head = .ok n → n.data ≤ data
  | .remove _ => True

theorem ordered_start : Ordered .start := ⟨[], rfl, .nil, rfl⟩

theorem pairwise_behind_iff {x : ℕ × ℤ} {l₁ l₂ : List (ℕ × ℤ)} {a : ℕ} {v : ℤ}
    (hsorted : ((x :: (l₁ ++ l₂)).map Prod.snd).Pairwise (· ≤ ·)) (hle : ∀ y ∈ l₁, y.2 ≤ v)
    (hgt : ∀ y, l₂.head? = some y → v < y.2) :
    ((x :: l₁ ++ (a, v) :: l₂).map Prod.snd).Pairwise (· ≤ ·) ↔ x.2 ≤ v := by
  rw [List.map_append]
  constructor
  · intro h
    exact (List.pairwise_append.mp h).2.2 x.2 (by simp) v (by simp)
  · intro hfirst
    rw [← List.cons_append, List.map_append] at hsorted
    apply pairwise_le_insert hsorted
    · intro w hw
      obtain ⟨y, hy, rfl⟩ := List.mem_map.mp hw
      rcases List.mem_cons.mp hy with rfl | hy
      · exact hfirst
      · exact hle y hy
    · intro w hw
      rw [List.head?_map, Option.map_eq_some_iff] at hw
      obtain ⟨y, hy, rfl⟩ := hw
      exact (hgt y hy).le

theorem Ordered.insertOrder {r : Run} (h : Ordered r) (v : ℤ) :
    ∃ r', call r (.insertOrder v) = .ok r' ∧ (Ordered r' ↔ NotBelowFirst r (.insertOrder v)) := by
  obtain ⟨l, hl, hsorted, hvalues⟩ := h
  cases l with
  | nil =>
    obtain ⟨s', hs', h'⟩ := insertOrder_empty hl v
    have hhead : r.state.head = none := hl
    refine ⟨⟨s', v ::ₘ r.inserted, r.removed⟩, ?_, iff_of_true ⟨_, h', by simp, ?_⟩ ?_⟩
    · simp only [call, hs', ok_bind, pure_eq_ok]
    · rw [← hvalues]
      simp
    · intro n hn
      rw [hhead, Memory.read_none] at hn
      cases hn
  | cons x rest =>
    obtain ⟨s', l₁, l₂, hs', rfl, hle, hgt, h'⟩ := insertOrder_ok hl v
    obtain ⟨hhead, n, hn, hdata, -⟩ := id hl
    have hdata : n.data = x.2 := hdata
    have hread : r.state.heap.read r.state.head = .ok n := by rw [hhead, Memory.read_some hn]
    have hbelow : NotBelowFirst r (.insertOrder v) ↔ x.2 ≤ v := by
      rw [← hdata]
      constructor
      · intro hall
        exact hall n hread
      · intro hle n' hn'
        obtain rfl := Except.ok.inj (hread.symm.trans hn')
        exact hle
    refine ⟨⟨s', v ::ₘ r.inserted, r.removed⟩, ?_, ?_⟩
    · simp only [call, hs', ok_bind, pure_eq_ok]
    rw [hbelow, ← pairwise_behind_iff hsorted hle hgt]
    constructor
    · rintro ⟨l', hl', hsorted', -⟩
      rwa [Memory.Path.unique hl' h'] at hsorted'
    · intro hsorted'
      refine ⟨_, h', hsorted', ?_⟩
      rw [← hvalues, ← Multiset.cons_add, Multiset.cons_coe]
      congr 1
      rw [Multiset.coe_eq_coe, List.map_append, List.map_cons, ← List.cons_append, List.map_append]
      exact List.perm_middle

theorem Ordered.remove {r : Run} (h : Ordered r) {d : ℤ} (hd : NonEmpty r (.remove d)) :
    ∃ r', call r (.remove d) = .ok r' ∧ Ordered r' := by
  obtain ⟨l, hl, hsorted, hvalues⟩ := h
  cases l with
  | nil =>
    have hhead : r.state.head = none := hl
    simp [NonEmpty, isEmpty, hhead] at hd
  | cons x rest =>
    rcases remove_ok hl d with ⟨-, hrun⟩ | ⟨s', l₁, a, l₂, hrun, rfl, h'⟩
    · refine ⟨r, ?_, x :: rest, hl, hsorted, hvalues⟩
      simp only [call, hrun, ok_bind, pure_eq_ok]
      rw [if_neg Bool.false_ne_true]
    · refine ⟨⟨s', r.inserted, d ::ₘ r.removed⟩, ?_, _, h', ?_, ?_⟩
      · simp only [call, hrun, ok_bind, pure_eq_ok]
        rw [if_pos trivial]
      · refine hsorted.sublist (List.Sublist.map _ ?_)
        exact ((List.sublist_cons_self _ _).append_left l₁).cons_cons x
      · rw [← hvalues, Multiset.add_cons, ← Multiset.cons_add, Multiset.cons_coe]
        congr 1
        rw [Multiset.coe_eq_coe]
        simp only [List.map_cons, List.map_append]
        exact (List.Perm.swap _ _ _).trans (List.perm_middle.symm.cons _)

theorem Ordered.call {r : Run} (h : Ordered r) {c : Call} (hc : NonEmpty r c) :
    ∃ r', call r c = .ok r' ∧ (Ordered r' ↔ NotBelowFirst r c) := by
  cases c with
  | insertOrder data => exact h.insertOrder data
  | remove d =>
    obtain ⟨r', hr', h'⟩ := h.remove hc
    exact ⟨r', hr', iff_of_true h' trivial⟩

/-- From the empty list on, with `remove` called on lists that are not empty only: the values are always
in order, and the inserted ones less the removed ones, exactly when no value is inserted that is below
the first one at that time. -/
theorem always_ordered_iff (calls : List Call) (h : Each call NonEmpty .start calls) :
    Always call Ordered .start calls ↔ Each call NotBelowFirst .start calls := by
  have hstep : ∀ r c, True → Ordered r → NonEmpty r c →
      ∃ r', call r c = .ok r' ∧ (Ordered r' ↔ NotBelowFirst r c) ∧ True := by
    intro r c _ hordered hc
    obtain ⟨r', hr', hiff⟩ := hordered.call hc
    exact ⟨r', hr', hiff, trivial⟩
  exact always_iff hstep calls .start trivial ordered_start h

/-- The values come in behind the first one, and one of them is removed. -/
theorem always_ordered_behindFirst : Always call Ordered .start
    [.insertOrder 1, .insertOrder 4, .insertOrder 2, .remove 4] := by
  refine (always_ordered_iff _ (by decide)).mpr ?_
  refine (each_cons rfl).mpr ⟨?_, (each_cons rfl).mpr ⟨?_, (each_cons rfl).mpr ⟨?_, ?_⟩⟩⟩
  · intro n hn
    cases hn
  · intro n hn
    cases hn
    decide
  · intro n hn
    cases hn
    decide
  · exact (each_cons rfl).mpr ⟨trivial, trivial⟩

/-- A value below the first one comes in behind it. -/
theorem not_always_ordered :
    Each call NonEmpty .start [.insertOrder 2, .insertOrder 1] ∧
      ¬ Always call Ordered .start [.insertOrder 2, .insertOrder 1] := by
  refine ⟨by decide, fun h => ?_⟩
  obtain ⟨r, hr, l, hl, hsorted, -⟩ := h.final
  obtain rfl := Except.ok.inj hr
  obtain rfl : l = [(0, 2), (1, 1)] := hl.unique ⟨rfl, _, rfl, rfl, rfl, _, rfl, rfl, rfl⟩
  exact absurd hsorted (by decide)

end CodingForFun.Linkedlist
