import CodingForFun.AllLinkedLists.Basic
import CodingForFun.Lib.Orbit
import Mathlib.Data.List.TakeWhile

/-!
# The singly linked list

`insert_single`, `insert_single2` and `reverse_single` of `src/alllinkedlists.c`. (`insert_single2` calls
the node type `node_st` and the value `val`, which the file has under other names only.)

The look-ahead pointer of `insert_single2` goes where `prev` goes in `insert_single` (`lookAhead_eq_scan`),
but where a node follows the place of the new one, `insert_single2` links the new node to the node behind
that one. So the two routines agree exactly where nothing is to follow the new node, or the new node comes
in first (`inserts_agree_iff`).
-/

namespace CodingForFun.AllLinkedLists

open Lib

/-- `node_ts` -/
structure NodeTs where
  next : Option ℕ
  value : ℤ

instance : LinkedNode NodeTs ℤ where
  next := NodeTs.next
  value := NodeTs.value
  setNext n q := { n with next := q }
  next_setNext _ _ := rfl
  value_setNext _ _ := rfl

/-- The nodes and the pointer `*list`. -/
structure SingleState where
  heap : Memory NodeTs
  list : Option ℕ

def SingleState.empty : SingleState := ⟨.empty, none⟩

/-- `ptr != *list && ptr->value < value`, for the pointers `prev` and `ptr`; with `NULL` for `*list` where the
list ends. -/
def scanGoesOn (h : Memory NodeTs) (list : Option ℕ) (value : ℤ) (s : Option ℕ × Option ℕ) :
    Except Fault Bool := do
  if s.2 = list then
    pure false
  else
    pure (decide ((← h.read s.2).value < value))

def scanStep (h : Memory NodeTs) (s : Option ℕ × Option ℕ) : Except Fault (Option ℕ × Option ℕ) := do
  pure (s.2, (← h.read s.2).next)

/-- `insert_single`; `malloc` succeeds. -/
def insertSingle (s : SingleState) (value : ℤ) : Except Fault SingleState := do
  let new := some s.heap.fresh
  let h := s.heap.alloc ⟨none, value⟩
  -- empty
  if s.list = none then return ⟨h, new⟩
  -- element becomes first
  if (← h.read s.list).value > value then
    let h ← h.modify new fun n => { n with next := s.list }
    return ⟨h, new⟩
  let (prev, ptr) ← whileM .unbounded (scanGoesOn h none value) (scanStep h) (h.fresh + 1)
    (s.list, (← h.read s.list).next)
  let h ← h.modify prev fun n => { n with next := new }
  let h ← h.modify new fun n => { n with next := ptr }
  pure ⟨h, s.list⟩

/-- `ptr->next && ptr->next->val < val` -/
def lookAheadGoesOn (h : Memory NodeTs) (val : ℤ) (ptr : Option ℕ) : Except Fault Bool := do
  let next := (← h.read ptr).next
  if next = none then
    pure false
  else
    pure (decide ((← h.read next).value < val))

def lookAheadStep (h : Memory NodeTs) (ptr : Option ℕ) : Except Fault (Option ℕ) := do
  pure (← h.read ptr).next

/-- `!*list || (*list)->val > val` -/
def comesFirst (h : Memory NodeTs) (list : Option ℕ) (val : ℤ) : Except Fault Bool := do
  if list = none then
    pure true
  else
    pure (decide ((← h.read list).value > val))

/-- `insert_single2`; `malloc` succeeds. -/
def insertSingle2 (s : SingleState) (val : ℤ) : Except Fault SingleState := do
  let new := some s.heap.fresh
  let h := s.heap.alloc ⟨none, val⟩
  if ← comesFirst h s.list val then
    let h ← h.modify new fun n => { n with next := s.list }
    return ⟨h, new⟩
  let ptr ← whileM .unbounded (lookAheadGoesOn h val) (lookAheadStep h) (h.fresh + 1) s.list
  let next := (← h.read ptr).next
  if next = none then
    let h ← h.modify ptr fun n => { n with next := new }
    pure ⟨h, s.list⟩
  else
    let behind := (← h.read next).next
    let h ← h.modify new fun n => { n with next := behind }
    let h ← h.modify ptr fun n => { n with next := new }
    pure ⟨h, s.list⟩

/-- The local variables of `reverse_single` and `reverse_singlecircular`. -/
structure SingleSweep where
  heap : Memory NodeTs
  prev : Option ℕ
  current : Option ℕ
  next : Option ℕ

def singleSweepStep (s : SingleSweep) : Except Fault SingleSweep := do
  let h ← s.heap.modify s.current fun n => { n with next := s.prev }
  pure ⟨h, s.current, s.next, (← h.read s.next).next⟩

/-- `next != NULL` -/
def reverseSingleGoesOn (t : SingleSweep) : Except Fault Bool := pure (decide (t.next ≠ none))

def reverseSingle (s : SingleState) : Except Fault SingleState := do
  -- empty or one element
  if s.list = none then return s
  let next := (← s.heap.read s.list).next
  if next = none then return s
  let t ← whileM .unbounded reverseSingleGoesOn singleSweepStep (s.heap.fresh + 1) ⟨s.heap, none, s.list, next⟩
  -- current points to last element
  let h ← t.heap.modify t.current fun n => { n with next := t.prev }
  pure ⟨h, t.current⟩

/-- The nodes and values of a list that ends. -/
def IsSingle (s : SingleState) (l : List (ℕ × ℤ)) : Prop := s.heap.Path s.list l none

/-! ### What the calls do to the values -/

/-- A new value in front of a first value above it, or else behind the first value and the values below
it that follow. -/
def place (v : ℤ) : List ℤ → List ℤ
  | [] => [v]
  | a :: vs =>
    if v < a then v :: a :: vs
    else a :: (vs.takeWhile (fun x => decide (x < v)) ++ v :: vs.dropWhile fun x => decide (x < v))

/-- The same, but without the value that is to follow. -/
def placeOver (v : ℤ) : List ℤ → List ℤ
  | [] => [v]
  | a :: vs =>
    if v < a then v :: a :: vs
    else a :: (vs.takeWhile (fun x => decide (x < v)) ++ v :: (vs.dropWhile fun x => decide (x < v)).tail)

theorem place_of_lt {v a : ℤ} {vs : List ℤ} (h : v < a) : place v (a :: vs) = v :: a :: vs :=
  if_pos h

theorem place_behind {v : ℤ} {x : ℕ × ℤ} {rest : List (ℕ × ℤ)} (new : ℕ) (h : ¬ v < x.2) :
    place v ((x :: rest).map Prod.snd) =
      ((x :: rest.takeWhile fun y => decide (y.2 < v)) ++
        (new, v) :: rest.dropWhile fun y => decide (y.2 < v)).map Prod.snd := by
  rw [List.map_cons, place, if_neg h, List.map_append, List.map_cons, List.map_cons,
    List.takeWhile_map, List.dropWhile_map]
  rfl

theorem scan_ok {h : Memory NodeTs} {p list : Option ℕ} {v : ℤ} :
    ∀ (rest front : List (ℕ × ℤ)) (x : ℕ × ℤ) (r : Option ℕ) (fuel : ℕ),
      h.Path p (front ++ [x]) r → h.Path r rest list → (∀ y ∈ rest, list ≠ some y.1) →
      rest.length < fuel →
      ∃ front' x' r', whileM .unbounded (scanGoesOn h list v) (scanStep h) fuel (some x.1, r) =
          .ok (some x'.1, r') ∧
        front ++ [x] ++ rest.takeWhile (fun y => decide (y.2 < v)) = front' ++ [x'] ∧
        h.Path p (front' ++ [x']) r' ∧
        h.Path r' (rest.dropWhile fun y => decide (y.2 < v)) list := by
  intro rest
  induction rest with
  | nil =>
    intro front x r fuel hfront hrest _ hfuel
    obtain ⟨fuel, rfl⟩ := Nat.exists_eq_succ_of_ne_zero (Nat.ne_zero_of_lt hfuel)
    obtain rfl : r = list := hrest
    refine ⟨front, x, r, whileM_false fuel ?_, by simp, hfront, rfl⟩
    simp [scanGoesOn]
  | cons y rest ih =>
    intro front x r fuel hfront hrest hlist hfuel
    obtain ⟨fuel, rfl⟩ := Nat.exists_eq_succ_of_ne_zero (Nat.ne_zero_of_lt hfuel)
    have hwhole := hrest
    obtain ⟨rfl, n, hn, hv, hrest⟩ := hrest
    have hcond : scanGoesOn h list v (some x.1, some y.1) = .ok (decide (y.2 < v)) := by
      have hne := (hlist y List.mem_cons_self).symm
      rw [← hv]
      simp [scanGoesOn, hne, Memory.read_some hn, LinkedNode.value]
    by_cases hlt : y.2 < v
    · have hbody : scanStep h (some x.1, some y.1) = .ok (some y.1, n.next) := by
        simp [scanStep, Memory.read_some hn]
      have hpassed : h.Path p (front ++ [x] ++ [y]) n.next :=
        Memory.path_concat.mpr ⟨hfront, n, hn, hv, rfl⟩
      rw [decide_eq_true hlt] at hcond
      obtain ⟨front', x', r', hrun, htake, hfront', hback⟩ := ih (front ++ [x]) y n.next fuel hpassed
        hrest (fun z hz => hlist z (List.mem_cons_of_mem y hz)) (Nat.lt_of_succ_lt_succ hfuel)
      refine ⟨front', x', r', ?_, ?_, hfront', ?_⟩
      · rw [whileM_true fuel hcond hbody, hrun]
      · rw [List.takeWhile_cons_of_pos (by simpa using hlt), ← htake, List.append_assoc,
          List.append_assoc, List.append_assoc]
        rfl
      · rwa [List.dropWhile_cons_of_pos (by simpa using hlt)]
    · rw [decide_eq_false hlt] at hcond
      refine ⟨front, x, _, whileM_false fuel hcond, ?_, hfront, ?_⟩
      · rw [List.takeWhile_cons_of_neg (by simpa using hlt), List.append_nil]
      · rwa [List.dropWhile_cons_of_neg (by simpa using hlt)]

theorem placeOver_of_lt {v a : ℤ} {vs : List ℤ} (h : v < a) : placeOver v (a :: vs) = v :: a :: vs :=
  if_pos h

theorem placeOver_behind {v : ℤ} {x : ℕ × ℤ} {rest : List (ℕ × ℤ)} (new : ℕ) (h : ¬ v < x.2) :
    placeOver v ((x :: rest).map Prod.snd) =
      ((x :: rest.takeWhile fun y => decide (y.2 < v)) ++
        (new, v) :: (rest.dropWhile fun y => decide (y.2 < v)).tail).map Prod.snd := by
  rw [List.map_cons, placeOver, if_neg h, List.map_append, List.map_cons, List.map_cons, List.map_tail,
    List.takeWhile_map, List.dropWhile_map]
  rfl

theorem lookAhead_eq_scan {h : Memory NodeTs} {v : ℤ} :
    ∀ (fuel : ℕ) (prev : Option ℕ) (n : NodeTs), h.read prev = .ok n →
      whileM .unbounded (lookAheadGoesOn h v) (lookAheadStep h) fuel prev =
        (whileM .unbounded (scanGoesOn h none v) (scanStep h) fuel (prev, n.next) >>= fun s => pure s.1) := by
  intro fuel
  induction fuel with
  | zero => intro prev n _; rfl
  | succ fuel ih =>
    intro prev n hn
    have hcond : lookAheadGoesOn h v prev = scanGoesOn h none v (prev, n.next) := by
      rw [lookAheadGoesOn, hn, ok_bind, scanGoesOn]
    have hbody : lookAheadStep h prev = .ok n.next := by rw [lookAheadStep, hn, ok_bind, pure_eq_ok]
    cases hgo : scanGoesOn h none v (prev, n.next) with
    | error e => rw [whileM_cond_error fuel (hcond.trans hgo), whileM_cond_error fuel hgo, error_bind]
    | ok go =>
      cases go with
      | false => rw [whileM_false fuel (hcond.trans hgo), whileM_false fuel hgo, ok_bind, pure_eq_ok]
      | true =>
        obtain ⟨n', hn'⟩ : ∃ n', h.read n.next = .ok n' := by
          cases hread : h.read n.next with
          | ok n' => exact ⟨n', rfl⟩
          | error e =>
            rw [scanGoesOn, hread] at hgo
            by_cases hnone : n.next = none <;> simp [hnone] at hgo
        have hstep : scanStep h (prev, n.next) = .ok (n.next, n'.next) := by
          rw [scanStep, hn', ok_bind, pure_eq_ok]
        rw [whileM_true fuel (hcond.trans hgo) hbody, whileM_true fuel hgo hstep, ih n.next n' hn']

/-! ### Insertion -/

section insert

variable {s : SingleState} {l rest : List (ℕ × ℤ)} {x : ℕ × ℤ} {v : ℤ}

theorem IsSingle.fresh_notMem (h : IsSingle s l) : s.heap.fresh ∉ l.map Prod.fst := fun hmem =>
  absurd (h.lt_fresh hmem) (lt_irrefl _)

theorem IsSingle.front (h : IsSingle s l) (v : ℤ) :
    IsSingle ⟨(s.heap.alloc ⟨none, v⟩).update s.heap.fresh fun n => { n with next := s.list },
      some s.heap.fresh⟩ ((s.heap.fresh, v) :: l) := by
  refine ⟨rfl, ⟨s.list, v⟩, ?_, rfl, (h.alloc _).update h.fresh_notMem _⟩
  rw [Memory.update_self, Memory.alloc_self]
  rfl

theorem IsSingle.scan (h : IsSingle s (x :: rest)) (v : ℤ) :
    ∃ first front y r, (s.heap.alloc ⟨none, v⟩).read s.list = .ok first ∧ first.value = x.2 ∧
      whileM .unbounded (scanGoesOn (s.heap.alloc ⟨none, v⟩) none v) (scanStep (s.heap.alloc ⟨none, v⟩))
        ((s.heap.alloc ⟨none, v⟩).fresh + 1) (s.list, first.next) = .ok (some y.1, r) ∧
      (x :: rest.takeWhile fun z => decide (z.2 < v)) = front ++ [y] ∧
      (s.heap.alloc ⟨none, v⟩).Path s.list (front ++ [y]) r ∧
      (s.heap.alloc ⟨none, v⟩).Path r (rest.dropWhile fun z => decide (z.2 < v)) none := by
  have hpath := h.alloc ⟨none, v⟩
  obtain ⟨hlist, first, hfirst, hvalue, hrest⟩ := hpath
  have hstart : (s.heap.alloc ⟨none, v⟩).Path s.list ([] ++ [x]) first.next :=
    ⟨hlist, first, hfirst, hvalue, rfl⟩
  have hfuel : rest.length < (s.heap.alloc ⟨none, v⟩).fresh + 1 := by
    have hle := h.length_le_fresh
    rw [List.length_cons] at hle
    rw [Memory.fresh_alloc]
    omega
  obtain ⟨front, y, r, hrun, htake, hfront, hback⟩ := scan_ok rest [] x first.next _ hstart hrest
    (fun z _ => (Option.some_ne_none z.1).symm) hfuel
  refine ⟨first, front, y, r, by rw [hlist, Memory.read_some hfirst], hvalue, ?_, htake, hfront, hback⟩
  rw [hlist, hrun]

theorem scan_split {front : List (ℕ × ℤ)} {y : ℕ × ℤ}
    (htake : (x :: rest.takeWhile fun z => decide (z.2 < v)) = front ++ [y]) :
    x :: rest = front ++ [y] ++ rest.dropWhile fun z => decide (z.2 < v) := by
  rw [← htake, List.cons_append, List.takeWhile_append_dropWhile]

theorem insertSingle_behind (h : IsSingle s (x :: rest)) (hle : ¬ v < x.2) :
    ∃ s', insertSingle s v = .ok s' ∧ IsSingle s' ((x :: rest.takeWhile fun z => decide (z.2 < v)) ++
      (s.heap.fresh, v) :: rest.dropWhile fun z => decide (z.2 < v)) := by
  have hlist : s.list ≠ none := h.start_ne_none
  have hnodup := h.nodup
  have hfresh := h.fresh_notMem
  obtain ⟨first, front, y, r, hread, hvalue, hrun, htake, hfront, hback⟩ := h.scan v
  rw [scan_split htake] at hnodup hfresh
  obtain ⟨n, hn, -⟩ := hfront.node (show y ∈ front ++ [y] by simp)
  have hne := Memory.ne_middle hfresh
  refine ⟨⟨((s.heap.alloc ⟨none, v⟩).update y.1 fun n => { n with next := some s.heap.fresh }).update
    s.heap.fresh fun n => { n with next := r }, s.list⟩, ?_, ?_⟩
  · have hnew : ((s.heap.alloc ⟨none, v⟩).update y.1 fun n =>
        { n with next := some s.heap.fresh }).node s.heap.fresh = some ⟨none, v⟩ := by
      rw [Memory.update_of_ne hne, Memory.alloc_self]
    have hgt : ¬first.value > v := by
      rw [hvalue]
      exact hle
    simp only [insertSingle, if_neg hlist, hread, ok_bind, if_neg hgt, hrun, Memory.modify_some hn,
      Memory.modify_some hnew, pure_eq_ok]
  · rw [htake]
    exact hfront.insertBehind hback hnodup Memory.alloc_self hfresh

theorem insertSingle_ok (h : IsSingle s l) (v : ℤ) :
    ∃ s' l', insertSingle s v = .ok s' ∧ IsSingle s' l' ∧ l'.map Prod.snd = place v (l.map Prod.snd) := by
  cases l with
  | nil =>
    have hlist : s.list = none := h
    refine ⟨⟨s.heap.alloc ⟨none, v⟩, some s.heap.fresh⟩, [(s.heap.fresh, v)], ?_, ?_, rfl⟩
    · rw [insertSingle, if_pos hlist, pure_eq_ok]
    · exact ⟨rfl, _, Memory.alloc_self, rfl, rfl⟩
  | cons x rest =>
    by_cases hlt : v < x.2
    · have hlist : s.list ≠ none := h.start_ne_none
      obtain ⟨first, -, -, -, hread, hvalue, -⟩ := h.scan v
      have hgt : first.value > v := by
        rw [hvalue]
        exact hlt
      refine ⟨_, _, ?_, h.front v, (place_of_lt hlt).symm⟩
      simp only [insertSingle, if_neg hlist, hread, ok_bind, if_pos hgt,
        Memory.modify_some Memory.alloc_self, pure_eq_ok]
    · obtain ⟨s', hs', h'⟩ := insertSingle_behind h hlt
      exact ⟨s', _, hs', h', (place_behind _ hlt).symm⟩

theorem insertSingle2_behind (h : IsSingle s (x :: rest)) (hle : ¬ v < x.2) :
    ∃ s', insertSingle2 s v = .ok s' ∧ IsSingle s' ((x :: rest.takeWhile fun z => decide (z.2 < v)) ++
      (s.heap.fresh, v) :: (rest.dropWhile fun z => decide (z.2 < v)).tail) := by
  have hlist : s.list ≠ none := h.start_ne_none
  have hnodup := h.nodup
  have hfresh := h.fresh_notMem
  obtain ⟨first, front, y, r, hread, hvalue, hrun, htake, hfront, hback⟩ := h.scan v
  rw [scan_split htake] at hnodup hfresh
  have hlook := @lookAhead_eq_scan _ v ((s.heap.alloc ⟨none, v⟩).fresh + 1) s.list first hread
  rw [hrun, ok_bind, pure_eq_ok] at hlook
  obtain ⟨-, n, hn, hyvalue, hr⟩ := Memory.path_concat.mp hfront
  have hfirst : comesFirst (s.heap.alloc ⟨none, v⟩) s.list v = .ok false := by
    rw [comesFirst, if_neg hlist, hread, ok_bind, hvalue, decide_eq_false hle]
    rfl
  have hnext : n.next = r := hr
  have hne := Memory.ne_middle hfresh
  rw [htake]
  obtain ⟨hy, -⟩ := Memory.notMem_around hnodup
  generalize rest.dropWhile (fun z => decide (z.2 < v)) = back at hback hnodup hfresh ⊢
  cases back with
  | nil =>
    -- nothing is to follow
    have hend : r = none := hback
    refine ⟨⟨(s.heap.alloc ⟨none, v⟩).update y.1 fun n => { n with next := some s.heap.fresh }, s.list⟩,
      ?_, ?_⟩
    · simp only [insertSingle2, hfirst, hlook, ok_bind, Memory.read_some hn, hnext, if_pos hend,
        Memory.modify_some hn, pure_eq_ok, Bool.false_eq_true, if_false]
    · refine Memory.path_append.mpr ⟨_, hfront.redirect hy _, rfl, ⟨none, v⟩, ?_, rfl, rfl⟩
      rw [Memory.update_of_ne hne, Memory.alloc_self]
  | cons z back =>
    -- the node that is to follow is left out
    have hsome := hback.start_ne_none
    obtain ⟨hz, n', hn', -, hbehind⟩ := hback
    have hread' : (s.heap.alloc ⟨none, v⟩).read r = .ok n' := by rw [hz, Memory.read_some hn']
    have hn₁ : ((s.heap.alloc ⟨none, v⟩).update s.heap.fresh fun n =>
        { n with next := n'.next }).node y.1 = some n := by
      rw [Memory.update_of_ne hne.symm, hn]
    refine ⟨⟨((s.heap.alloc ⟨none, v⟩).update s.heap.fresh fun n => { n with next := n'.next }).update
      y.1 fun n => { n with next := some s.heap.fresh }, s.list⟩, ?_, ?_⟩
    · simp only [insertSingle2, hfirst, hlook, ok_bind, Memory.read_some hn, hnext, if_neg hsome, hread',
        Memory.modify_some Memory.alloc_self, Memory.modify_some hn₁, pure_eq_ok, Bool.false_eq_true,
        if_false]
    · have hsub : (front ++ [y] ++ back).Sublist (front ++ [y] ++ z :: back) :=
        (List.Sublist.refl _).append (List.sublist_cons_self z back)
      rw [List.tail_cons, Memory.update_comm hne]
      exact hfront.insertBehind hbehind (hnodup.sublist (hsub.map _)) Memory.alloc_self
        fun hmem => hfresh ((hsub.map _).subset hmem)

theorem insertSingle2_ok (h : IsSingle s l) (v : ℤ) :
    ∃ s' l', insertSingle2 s v = .ok s' ∧ IsSingle s' l' ∧
      l'.map Prod.snd = placeOver v (l.map Prod.snd) := by
  cases l with
  | nil =>
    have hlist : s.list = none := h
    refine ⟨_, _, ?_, h.front v, rfl⟩
    simp only [insertSingle2, comesFirst, if_pos hlist, ok_bind, pure_eq_ok, if_true,
      Memory.modify_some Memory.alloc_self]
  | cons x rest =>
    by_cases hlt : v < x.2
    · have hlist : s.list ≠ none := h.start_ne_none
      obtain ⟨first, -, -, -, hread, hvalue, -⟩ := h.scan v
      have hfirst : comesFirst (s.heap.alloc ⟨none, v⟩) s.list v = .ok true := by
        rw [comesFirst, if_neg hlist, hread, ok_bind, hvalue, decide_eq_true hlt]
        rfl
      refine ⟨_, _, ?_, h.front v, (placeOver_of_lt hlt).symm⟩
      simp only [insertSingle2, hfirst, ok_bind, if_true, Memory.modify_some Memory.alloc_self, pure_eq_ok]
    · obtain ⟨s', hs', h'⟩ := insertSingle2_behind h hlt
      exact ⟨s', _, hs', h', (placeOver_behind _ hlt).symm⟩

end insert

theorem place_perm (v : ℤ) (vs : List ℤ) : (place v vs).Perm (v :: vs) := by
  cases vs with
  | nil => exact List.Perm.refl _
  | cons a vs =>
    rw [place]
    by_cases hlt : v < a
    · rw [if_pos hlt]
    · rw [if_neg hlt]
      have hsplit : (vs.takeWhile (fun x => decide (x < v)) ++
          vs.dropWhile fun x => decide (x < v)) = vs := List.takeWhile_append_dropWhile
      have hfront : (a :: (vs.takeWhile (fun x => decide (x < v)) ++
          v :: vs.dropWhile fun x => decide (x < v))).Perm (a :: v :: vs) := by
        have hmiddle := @List.perm_middle _ v (vs.takeWhile fun x => decide (x < v))
          (vs.dropWhile fun x => decide (x < v))
        rw [hsplit] at hmiddle
        exact hmiddle.cons a
      exact hfront.trans (List.Perm.swap v a vs)

theorem place_sorted {v : ℤ} {vs : List ℤ} (h : vs.Pairwise (· ≤ ·)) :
    (place v vs).Pairwise (· ≤ ·) := by
  cases vs with
  | nil => exact List.pairwise_singleton _ v
  | cons a vs =>
    rw [place]
    by_cases hlt : v < a
    · rw [if_pos hlt]
      refine List.pairwise_cons.mpr ⟨fun w hw => ?_, h⟩
      rcases List.mem_cons.mp hw with rfl | hw
      · exact hlt.le
      · exact hlt.le.trans ((List.pairwise_cons.mp h).1 w hw)
    · rw [if_neg hlt, ← List.cons_append]
      apply pairwise_le_insert
      · rwa [List.cons_append, List.takeWhile_append_dropWhile]
      · intro w hw
        rcases List.mem_cons.mp hw with rfl | hw
        · exact not_lt.mp hlt
        · have hbelow := List.mem_takeWhile_imp hw
          exact (of_decide_eq_true hbelow).le
      · intro w hw
        have hstop := List.head?_dropWhile_not (fun x => decide (x < v)) vs
        rw [hw] at hstop
        simpa using hstop

theorem placeOver_eq_place_iff (v : ℤ) (vs : List ℤ) :
    placeOver v vs = place v vs ↔ ∀ a ws, vs = a :: ws → v < a ∨ ∀ w ∈ ws, w < v := by
  cases vs with
  | nil => exact ⟨fun _ a ws h => absurd h (List.cons_ne_nil a ws).symm, fun _ => rfl⟩
  | cons a vs =>
    have hcons : (∀ b ws, a :: vs = b :: ws → v < b ∨ ∀ w ∈ ws, w < v) ↔ v < a ∨ ∀ w ∈ vs, w < v := by
      constructor
      · exact fun h => h a vs rfl
      · rintro h b ws heq
        obtain ⟨rfl, rfl⟩ := List.cons.inj heq
        exact h
    rw [hcons, placeOver, place]
    by_cases hlt : v < a
    · rw [if_pos hlt, if_pos hlt, iff_true_intro hlt, true_or]
      exact iff_of_true rfl trivial
    · rw [if_neg hlt, if_neg hlt, iff_false_intro hlt, false_or, List.cons_inj_right,
        List.append_cancel_left_eq, List.cons_inj_right]
      have htail : ∀ ws : List ℤ, ws.tail = ws ↔ ws = [] := by
        intro ws
        cases ws with
        | nil => exact iff_of_true rfl rfl
        | cons b ws =>
          refine iff_of_false (fun h => ?_) (List.cons_ne_nil b ws)
          have hlen := congrArg List.length h
          rw [List.tail_cons, List.length_cons] at hlen
          omega
      rw [htail, List.dropWhile_eq_nil_iff]
      simp only [decide_eq_true_iff]

/-- Both routines insert the value, and lose none, when the list is empty, or its first value is above
the new one, or all values behind the first are below it. -/
theorem inserts_agree_iff {s : SingleState} {l : List (ℕ × ℤ)} (h : IsSingle s l)
    (hsorted : (l.map Prod.snd).Pairwise (· ≤ ·)) (v : ℤ) :
    (∃ s₁ s₂ l₁ l₂, insertSingle s v = .ok s₁ ∧ insertSingle2 s v = .ok s₂ ∧ IsSingle s₁ l₁ ∧
      IsSingle s₂ l₂ ∧ l₁.map Prod.snd = l₂.map Prod.snd ∧ (l₁.map Prod.snd).Pairwise (· ≤ ·) ∧
      (l₁.map Prod.snd).Perm (v :: l.map Prod.snd)) ↔
      ∀ a vs, l.map Prod.snd = a :: vs → v < a ∨ ∀ w ∈ vs, w < v := by
  obtain ⟨s₁, l₁, hs₁, hl₁, hv₁⟩ := insertSingle_ok h v
  obtain ⟨s₂, l₂, hs₂, hl₂, hv₂⟩ := insertSingle2_ok h v
  rw [← placeOver_eq_place_iff, ← hv₁, ← hv₂]
  constructor
  · rintro ⟨s₁', s₂', l₁', l₂', hs₁', hs₂', hl₁', hl₂', hsame, -⟩
    obtain rfl := Except.ok.inj (hs₁.symm.trans hs₁')
    obtain rfl := Except.ok.inj (hs₂.symm.trans hs₂')
    rw [hl₁.unique hl₁', hl₂.unique hl₂', hsame]
  · intro hsame
    refine ⟨s₁, s₂, l₁, l₂, hs₁, hs₂, hl₁, hl₂, hsame.symm, ?_, ?_⟩
    · rw [hv₁]
      exact place_sorted hsorted
    · rw [hv₁]
      exact place_perm v _

/-- The list `1, 3`. -/
def shortList : SingleState := ⟨(Memory.empty.alloc ⟨none, 3⟩).alloc ⟨some 0, 1⟩, some 1⟩

theorem shortList_isSingle : IsSingle shortList [(1, 1), (0, 3)] :=
  ⟨rfl, _, rfl, rfl, rfl, _, rfl, rfl, rfl⟩

theorem inserts_agree_example :
    (∃ s₁ s₂ l₁ l₂, insertSingle shortList 4 = .ok s₁ ∧ insertSingle2 shortList 4 = .ok s₂ ∧
      IsSingle s₁ l₁ ∧ IsSingle s₂ l₂ ∧ l₁.map Prod.snd = l₂.map Prod.snd ∧
      (l₁.map Prod.snd).Pairwise (· ≤ ·) ∧ (l₁.map Prod.snd).Perm [4, 1, 3]) ↔
      ∀ a vs, [1, 3] = a :: vs → (4 : ℤ) < a ∨ ∀ w ∈ vs, w < 4 :=
  inserts_agree_iff shortList_isSingle (by decide) 4

/-- The value 2 takes the place of the 3. -/
theorem inserts_differ :
    (([(1, 1), (0, 3)] : List (ℕ × ℤ)).map Prod.snd).Pairwise (· ≤ ·) ∧ IsSingle shortList [(1, 1), (0, 3)] ∧
      ¬∃ s₁ s₂ l₁ l₂, insertSingle shortList 2 = .ok s₁ ∧ insertSingle2 shortList 2 = .ok s₂ ∧
        IsSingle s₁ l₁ ∧ IsSingle s₂ l₂ ∧ l₁.map Prod.snd = l₂.map Prod.snd ∧
        (l₁.map Prod.snd).Pairwise (· ≤ ·) ∧ (l₁.map Prod.snd).Perm [2, 1, 3] := by
  refine ⟨by decide, shortList_isSingle, ?_⟩
  intro h
  obtain ⟨s₁, s₂, l₁, l₂, -, hs₂, -, hl₂, hsame, -, hperm⟩ := h
  obtain ⟨s₂', l₂', hs₂', hl₂', hv₂'⟩ := insertSingle2_ok shortList_isSingle 2
  obtain rfl := Except.ok.inj (hs₂.symm.trans hs₂')
  rw [hsame, hl₂.unique hl₂', hv₂'] at hperm
  exact absurd hperm.length_eq (by decide)

/-! ### Reversal -/

/-- The sweep of `reverse_single` at the node `x`: the nodes `done` before it are linked backwards, the
nodes `rest` behind it have not been touched, nor has any other node. -/
structure Reversing (h : Memory NodeTs) (done : List (ℕ × ℤ)) (x : ℕ × ℤ) (rest : List (ℕ × ℤ))
    (t : SingleSweep) : Prop where
  nodup : ((done ++ [x] ++ rest).map Prod.fst).Nodup
  turned : t.heap.Path t.prev done.reverse none
  current : t.current = some x.1
  node : ∃ n, t.heap.node x.1 = some n ∧ n.value = x.2
  coming : t.heap.Path t.next rest none
  fresh : t.heap.fresh = h.fresh
  frame : ∀ a ∉ (done ++ [x] ++ rest).map Prod.fst, t.heap.node a = h.node a

namespace Reversing

variable {h : Memory NodeTs} {done rest : List (ℕ × ℤ)} {x y : ℕ × ℤ} {t : SingleSweep}

theorem turn (hr : Reversing h done x rest t) :
    ∃ heap, t.heap.modify t.current (fun n => { n with next := t.prev }) = .ok heap ∧
      heap.Path t.current (done ++ [x]).reverse none ∧ heap.Path t.next rest none ∧
      heap.fresh = h.fresh ∧ ∀ a ∉ (done ++ [x] ++ rest).map Prod.fst, heap.node a = h.node a := by
  obtain ⟨n, hn, hvalue⟩ := hr.node
  obtain ⟨hdone, hrest⟩ := Memory.notMem_around hr.nodup
  have hturned : x.1 ∉ done.reverse.map Prod.fst := by
    rwa [List.map_reverse, List.mem_reverse]
  refine ⟨t.heap.update x.1 fun n => { n with next := t.prev }, ?_, ?_, ?_, hr.fresh, fun a ha => ?_⟩
  · rw [hr.current, Memory.modify_some hn]
  · rw [List.reverse_concat]
    refine ⟨hr.current, { n with next := t.prev }, ?_, hvalue, hr.turned.update hturned _⟩
    rw [Memory.update_self, hn]
    rfl
  · exact hr.coming.update hrest _
  · have hne : a ≠ x.1 := by
      rintro rfl
      apply ha
      simp
    rw [Memory.update_of_ne hne, hr.frame a ha]

theorem step (hr : Reversing h done x (y :: rest) t) :
    ∃ t', singleSweepStep t = .ok t' ∧ Reversing h (done ++ [x]) y rest t' := by
  obtain ⟨heap, hmodify, hturned, hcoming, hfresh, hframe⟩ := hr.turn
  obtain ⟨hnext, n, hn, hvalue, hrest⟩ := hcoming
  refine ⟨⟨heap, t.current, t.next, n.next⟩, ?_, ?_⟩
  · simp only [singleSweepStep, hmodify, ok_bind, hnext, Memory.read_some hn, pure_eq_ok]
  · have hnodes := List.append_cons (done ++ [x]) y rest
    exact ⟨hnodes ▸ hr.nodup, hturned, hnext, ⟨n, hn, hvalue⟩, hrest, hfresh, hnodes ▸ hframe⟩

end Reversing

theorem reversing_ok {h : Memory NodeTs} :
    ∀ (rest done : List (ℕ × ℤ)) (x : ℕ × ℤ) (t : SingleSweep) (fuel : ℕ), Reversing h done x rest t →
      rest.length < fuel →
      ∃ t' done' x', whileM .unbounded reverseSingleGoesOn singleSweepStep fuel t = .ok t' ∧
        done ++ [x] ++ rest = done' ++ [x'] ∧ Reversing h done' x' [] t' := by
  intro rest
  induction rest with
  | nil =>
    intro done x t fuel hr hfuel
    obtain ⟨fuel, rfl⟩ := Nat.exists_eq_succ_of_ne_zero (Nat.ne_zero_of_lt hfuel)
    have hend : t.next = none := hr.coming
    exact ⟨t, done, x, whileM_false fuel (by simp [reverseSingleGoesOn, hend]), List.append_nil _, hr⟩
  | cons y rest ih =>
    intro done x t fuel hr hfuel
    obtain ⟨fuel, rfl⟩ := Nat.exists_eq_succ_of_ne_zero (Nat.ne_zero_of_lt hfuel)
    have hnext : t.next = some y.1 := hr.coming.1
    obtain ⟨t₁, hstep, hr₁⟩ := hr.step
    obtain ⟨t', done', x', hrun, hnodes, hr'⟩ := ih (done ++ [x]) y t₁ fuel hr₁
      (Nat.lt_of_succ_lt_succ hfuel)
    refine ⟨t', done', x', ?_, ?_, hr'⟩
    · rw [whileM_true fuel (by simp [reverseSingleGoesOn, hnext]) hstep, hrun]
    · rw [List.append_cons, hnodes]

theorem reverseSingle_ok {s : SingleState} {l : List (ℕ × ℤ)} (h : IsSingle s l) :
    ∃ s', reverseSingle s = .ok s' ∧ IsSingle s' l.reverse ∧ s'.heap.fresh = s.heap.fresh ∧
      ∀ a ∉ l.map Prod.fst, s'.heap.node a = s.heap.node a := by
  have hpath : s.heap.Path s.list l none := h
  cases l with
  | nil =>
    have hlist : s.list = none := hpath
    exact ⟨s, by rw [reverseSingle, if_pos hlist, pure_eq_ok], h, rfl, fun _ _ => rfl⟩
  | cons x rest =>
    have hsome := hpath.start_ne_none
    obtain ⟨hlist, n, hn, hvalue, hrest⟩ := hpath
    have hread : s.heap.read s.list = .ok n := by rw [hlist, Memory.read_some hn]
    by_cases hone : n.next = none
    · cases rest with
      | nil =>
        refine ⟨s, ?_, h, rfl, fun _ _ => rfl⟩
        rw [reverseSingle, if_neg hsome, hread, ok_bind, if_pos hone, pure_eq_ok]
      | cons y rest => exact absurd hone hrest.start_ne_none
    · have hstart : Reversing s.heap [] x rest ⟨s.heap, none, s.list, n.next⟩ :=
        ⟨h.nodup, rfl, hlist, ⟨n, hn, hvalue⟩, hrest, rfl, fun _ _ => rfl⟩
      have hfuel : rest.length < s.heap.fresh + 1 := by
        have hle := h.length_le_fresh
        rw [List.length_cons] at hle
        omega
      obtain ⟨t, done, y, hrun, hnodes, hr⟩ := reversing_ok rest [] x _ _ hstart hfuel
      obtain ⟨heap, hmodify, hturned, -, hfresh, hframe⟩ := hr.turn
      have hwhole : x :: rest = done ++ [y] := hnodes
      refine ⟨⟨heap, t.current⟩, ?_, ?_, hfresh, fun a ha => hframe a ?_⟩
      · simp only [reverseSingle, if_neg hsome, hread, ok_bind, if_neg hone, hrun, hmodify, pure_eq_ok]
      · rw [hwhole]
        exact hturned
      · rwa [List.append_nil, ← hwhole]

theorem node_eq_of_path {h h' : Memory NodeTs} {p : Option ℕ} {l : List (ℕ × ℤ)} (hl : h.Path p l none)
    (hl' : h'.Path p l none) : ∀ a ∈ l.map Prod.fst, h.node a = h'.node a := by
  induction l generalizing p with
  | nil => exact fun a ha => absurd ha List.not_mem_nil
  | cons x l ih =>
    obtain ⟨-, ⟨next, value⟩, hn, hvalue, hrest⟩ := hl
    obtain ⟨-, ⟨next', value'⟩, hn', hvalue', hrest'⟩ := hl'
    obtain rfl : next = next' := hrest.start.trans hrest'.start.symm
    obtain rfl : value = value' := hvalue.trans hvalue'.symm
    intro a ha
    rcases List.mem_cons.mp ha with rfl | ha
    · rw [hn, hn']
    · exact ih hrest hrest' a ha

/-- `reverse_single` leaves the same nodes with their values in the opposite order, and a second call
leaves the memory and the list as they were. -/
theorem reverseSingle_twice {s : SingleState} {l : List (ℕ × ℤ)} (h : IsSingle s l) :
    ∃ s', reverseSingle s = .ok s' ∧ IsSingle s' l.reverse ∧ reverseSingle s' = .ok s := by
  obtain ⟨s', hs', h', hfresh', hframe'⟩ := reverseSingle_ok h
  obtain ⟨s'', hs'', h'', hfresh'', hframe''⟩ := reverseSingle_ok h'
  rw [List.reverse_reverse] at h''
  have hlist : s''.list = s.list := by
    rw [show s''.list = _ from Memory.Path.start h'', show s.list = _ from Memory.Path.start h]
  have hnode : s''.heap.node = s.heap.node := by
    funext a
    by_cases ha : a ∈ l.map Prod.fst
    · have hpath : s''.heap.Path s.list l none := hlist ▸ h''
      exact node_eq_of_path hpath h a ha
    · have ha' : a ∉ l.reverse.map Prod.fst := by rwa [List.map_reverse, List.mem_reverse]
      rw [hframe'' a ha', hframe' a ha]
  refine ⟨s', hs', h', ?_⟩
  rw [hs'']
  obtain ⟨⟨node, fresh, unused⟩, list⟩ := s''
  obtain rfl : node = s.heap.node := hnode
  obtain rfl : fresh = s.heap.fresh := hfresh''.trans hfresh'
  obtain rfl : list = s.list := hlist
  rfl

theorem reverseSingle_twice_example : ∃ s', reverseSingle shortList = .ok s' ∧
    IsSingle s' [(0, 3), (1, 1)] ∧ reverseSingle s' = .ok shortList :=
  reverseSingle_twice shortList_isSingle

end CodingForFun.AllLinkedLists
