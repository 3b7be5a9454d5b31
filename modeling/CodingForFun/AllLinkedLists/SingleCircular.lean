import CodingForFun.AllLinkedLists.Single

/-!
# The circular singly linked list

`insert_singlecircular` and `reverse_singlecircular` of `src/alllinkedlists.c`. A value below the first
one comes in at the front in one of two ways: the build with `TRAVERSE` walks to the last node and lets
it link to the new one, the other build copies the first node into the new one and overwrites it. The
nodes end up in different places of the two rings, but the values read from `*list` are the same:
both builds do to them what `place` does to a list (`builds_agree`).
-/

namespace CodingForFun.AllLinkedLists

open Lib

/-- `ptr->next != *list` -/
def traverseGoesOn (h : Memory NodeTs) (list ptr : Option ℕ) : Except Fault Bool := do
  pure (decide ((← h.read ptr).next ≠ list))

def traverseStep (h : Memory NodeTs) (ptr : Option ℕ) : Except Fault (Option ℕ) := do
  let n ← h.read ptr
  -- assert(ptr->next != NULL)
  if n.next = none then .error .exit else pure n.next

/-- `insert_singlecircular`, in the build with `TRAVERSE` or in the one without it. -/
def insertSinglecircular (traverse : Bool) (s : SingleState) (value : ℤ) :
    Except Fault SingleState := do
  let new := some s.heap.fresh
  let h := s.heap.alloc ⟨none, value⟩
  -- empty list
  if s.list = none then
    let h ← h.modify new fun n => { n with next := new }
    return ⟨h, new⟩
  let first ← h.read s.list
  -- place at first location
  if first.value > value then
    if traverse then
      -- if list has only one node
      if first.next = s.list then
        let h ← h.modify new fun n => { n with next := s.list }
        let h ← h.modify s.list fun n => { n with next := new }
        return ⟨h, new⟩
      -- if list has more nodes, get last node
      let ptr ← whileM .unbounded (traverseGoesOn h s.list) (traverseStep h) (h.fresh + 1) first.next
      let h ← h.modify ptr fun n => { n with next := new }
      let h ← h.modify new fun n => { n with next := s.list }
      return ⟨h, new⟩
    else
      -- memcpy(new, *list, sizeof(node_ts))
      let h ← h.modify new fun _ => first
      let h ← h.modify s.list fun n => { n with value := value }
      let h ← h.modify s.list fun n => { n with next := new }
      return ⟨h, s.list⟩
  let (prev, ptr) ← whileM .unbounded (scanGoesOn h s.list value) (scanStep h) (h.fresh + 1)
    (s.list, first.next)
  let h ← h.modify prev fun n => { n with next := new }
  let h ← h.modify new fun n => { n with next := ptr }
  pure ⟨h, s.list⟩

def reverseSinglecircular (s : SingleState) : Except Fault SingleState := do
  if s.list = none then
    return s
  let first ← s.heap.read s.list
  if first.next = s.list then
    return s
  let second ← s.heap.read first.next
  let t ← whileM .unbounded (fun t : SingleSweep => pure (decide (t.current ≠ s.list)))
    singleSweepStep (s.heap.fresh + 1) ⟨s.heap, s.list, first.next, second.next⟩
  let h ← t.heap.modify t.current fun n => { n with next := t.prev }
  pure ⟨h, t.prev⟩

def Call.singlecircular (traverse : Bool) (s : SingleState) : Call → Except Fault SingleState
  | .insert value => insertSinglecircular traverse s value
  | .reverse => reverseSinglecircular s

/-- A sequence of calls from the empty list on. -/
def runSinglecircular (traverse : Bool) (calls : List Call) : Except Fault SingleState :=
  calls.foldlM (Call.singlecircular traverse) .empty

/-- All nodes are on one ring, which starts at the list pointer with the nodes and values `l`. -/
structure IsRing (s : SingleState) (l : List (ℕ × ℤ)) : Prop where
  path : s.heap.Path s.list l s.list
  list : s.list = l.head?.map Prod.fst
  perm : (l.map Prod.fst).Perm (List.range s.heap.fresh)

theorem isRing_empty : IsRing .empty [] := ⟨rfl, rfl, .nil⟩

namespace IsRing

variable {s : SingleState} {l : List (ℕ × ℤ)}

theorem nodup (h : IsRing s l) : (l.map Prod.fst).Nodup := h.perm.nodup_iff.mpr List.nodup_range

theorem length_eq (h : IsRing s l) : l.length = s.heap.fresh := by
  have hlength := h.perm.length_eq
  rwa [List.length_map, List.length_range] at hlength

theorem fresh_notMem (h : IsRing s l) : s.heap.fresh ∉ l.map Prod.fst := fun hmem =>
  absurd (h.path.lt_fresh hmem) (lt_irrefl _)

end IsRing

/-! ### Insertion -/

theorem traverse_ok {h : Memory NodeTs} {list : Option ℕ} :
    ∀ (rest : List (ℕ × ℤ)) (x : ℕ × ℤ) (fuel : ℕ), h.Path (some x.1) (x :: rest) list →
      (∀ y ∈ rest, list ≠ some y.1) → rest.length < fuel →
      ∃ front y, x :: rest = front ++ [y] ∧
        whileM .unbounded (traverseGoesOn h list) (traverseStep h) fuel (some x.1) =
          .ok (some y.1) := by
  intro rest
  induction rest with
  | nil =>
    intro x fuel hpath _ hfuel
    obtain ⟨fuel, rfl⟩ := Nat.exists_eq_succ_of_ne_zero (Nat.ne_zero_of_lt hfuel)
    obtain ⟨-, n, hn, -, hnext⟩ := hpath
    refine ⟨[], x, rfl, whileM_false fuel ?_⟩
    have hnext : n.next = list := hnext
    simp [traverseGoesOn, Memory.read_some hn, hnext]
  | cons y rest ih =>
    intro x fuel hpath hlist hfuel
    obtain ⟨fuel, rfl⟩ := Nat.exists_eq_succ_of_ne_zero (Nat.ne_zero_of_lt hfuel)
    obtain ⟨-, n, hn, -, hrest⟩ := hpath
    have hnext : n.next = some y.1 := hrest.1
    have hne := (hlist y List.mem_cons_self).symm
    have hcond : traverseGoesOn h list (some x.1) = .ok true := by
      simp [traverseGoesOn, Memory.read_some hn, hnext, hne]
    have hbody : traverseStep h (some x.1) = .ok (some y.1) := by
      simp [traverseStep, Memory.read_some hn, hnext]
    rw [show LinkedNode.next n = some y.1 from hnext] at hrest
    obtain ⟨front, z, hfront, hrun⟩ := ih y fuel hrest
      (fun z hz => hlist z (List.mem_cons_of_mem y hz)) (Nat.lt_of_succ_lt_succ hfuel)
    refine ⟨x :: front, z, ?_, ?_⟩
    · rw [hfront]
      rfl
    · rw [whileM_true fuel hcond hbody, hrun]

section insert

variable {s : SingleState} {l rest : List (ℕ × ℤ)} {x : ℕ × ℤ} {v : ℤ}

theorem IsRing.perm_insert {l₁ l₂ : List (ℕ × ℤ)} (h : IsRing s (l₁ ++ l₂)) (w : ℤ) :
    ((l₁ ++ (s.heap.fresh, w) :: l₂).map Prod.fst).Perm (List.range (s.heap.fresh + 1)) := by
  have hperm := h.perm
  rw [List.map_append] at hperm ⊢
  exact perm_range_insert hperm

theorem IsRing.first_ne (h : IsRing s (x :: rest)) : ∀ y ∈ rest, some x.1 ≠ some y.1 := by
  intro y hy hxy
  refine (List.nodup_cons.mp h.nodup).1 ?_
  rw [Option.some.inj hxy]
  exact List.mem_map_of_mem hy

theorem insertSinglecircular_empty (traverse : Bool) (h : IsRing s []) (v : ℤ) :
    ∃ s', insertSinglecircular traverse s v = .ok s' ∧ IsRing s' [(s.heap.fresh, v)] := by
  have hlist : s.list = none := h.list
  refine ⟨⟨(s.heap.alloc ⟨none, v⟩).update s.heap.fresh fun n => { n with next := some s.heap.fresh },
    some s.heap.fresh⟩, ?_, ?_, rfl, ?_⟩
  · rw [insertSinglecircular, if_pos hlist, Memory.modify_some Memory.alloc_self]
    rfl
  · refine ⟨rfl, ⟨some s.heap.fresh, v⟩, ?_, rfl, rfl⟩
    rw [Memory.update_self, Memory.alloc_self]
    rfl
  · have hempty : IsRing s ([] ++ []) := h
    exact hempty.perm_insert v

theorem IsRing.front {front : List (ℕ × ℤ)} {y : ℕ × ℤ} (h : IsRing s (x :: rest))
    (hfront : x :: rest = front ++ [y]) (v : ℤ) :
    IsRing ⟨((s.heap.alloc ⟨none, v⟩).update y.1 fun n => { n with next := some s.heap.fresh }).update
      s.heap.fresh (fun n => { n with next := s.list }), some s.heap.fresh⟩
      ((s.heap.fresh, v) :: x :: rest) := by
  have hpath := h.path.alloc ⟨none, v⟩
  have hnodup := h.nodup
  have hfresh := h.fresh_notMem
  have hlist : s.list = some x.1 := h.list
  rw [hfront] at hpath
  rw [hfront, ← List.append_nil (front ++ [y])] at hnodup hfresh
  refine ⟨?_, rfl, ?_⟩
  · have hend : (s.heap.alloc ⟨none, v⟩).Path s.list [] s.list := rfl
    have hring := hpath.insertBehind hend hnodup Memory.alloc_self hfresh
    obtain ⟨r, hback, hnew⟩ := Memory.path_append.mp hring
    rw [← hfront] at hback
    have hr : r = some s.heap.fresh := hnew.1
    rw [hr] at hback hnew
    exact Memory.path_append.mpr ⟨s.list, hnew, hback⟩
  · have hempty : IsRing s ([] ++ x :: rest) := h
    exact hempty.perm_insert v

theorem insertSinglecircular_traverse (h : IsRing s (x :: rest)) (hlt : v < x.2) :
    ∃ s', insertSinglecircular true s v = .ok s' ∧ IsRing s' ((s.heap.fresh, v) :: x :: rest) := by
  have hlist : s.list = some x.1 := h.list
  have hpath := h.path.alloc ⟨none, v⟩
  have hlength : rest.length + 1 = s.heap.fresh := h.length_eq
  obtain ⟨-, first, hfirst, hvalue, hrest⟩ := hpath
  have hvalue : first.value = x.2 := hvalue
  have hsome := h.path.start_ne_none
  rw [insertSinglecircular, if_neg hsome]
  simp only [hlist, Memory.read_some hfirst, ok_bind]
  rw [if_pos (by rw [hvalue]; exact hlt), if_pos trivial]
  cases rest with
  | nil =>
    have hnext : first.next = some x.1 := by rw [← hlist]; exact hrest
    have hne : x.1 ≠ s.heap.fresh := by
      have hfresh := h.fresh_notMem
      simpa [eq_comm] using hfresh
    have hfront : [x] = [] ++ [x] := rfl
    refine ⟨_, ?_, h.front hfront v⟩
    rw [if_pos hnext, Memory.modify_some Memory.alloc_self, ok_bind,
      Memory.modify_some ((Memory.update_of_ne hne).trans hfirst), ok_bind, Memory.update_comm hne.symm]
    rw [hlist]
    rfl
  | cons y rest =>
    have hnext : first.next = some y.1 := hrest.1
    have hne : first.next ≠ some x.1 := by
      rw [hnext]
      exact (h.first_ne y List.mem_cons_self).symm
    rw [if_neg hne, hnext]
    rw [show LinkedNode.next first = some y.1 from hnext, hlist] at hrest
    obtain ⟨front, z, hfront, hrun⟩ := traverse_ok rest y ((s.heap.alloc ⟨none, v⟩).fresh + 1) hrest
      (fun z hz => h.first_ne z (List.mem_cons_of_mem y hz)) (by simp at hlength ⊢; omega)
    have hfront' : x :: y :: rest = (x :: front) ++ [z] := by rw [hfront]; rfl
    have hz : z ∈ x :: y :: rest := by
      rw [hfront']
      simp
    obtain ⟨n, hn, -⟩ := (h.path.alloc ⟨none, v⟩).node hz
    have hne' : s.heap.fresh ≠ z.1 := (h.path.lt_fresh (List.mem_map_of_mem hz)).ne'
    refine ⟨_, ?_, h.front hfront' v⟩
    rw [hrun, ok_bind, Memory.modify_some hn, ok_bind,
      Memory.modify_some ((Memory.update_of_ne hne').trans Memory.alloc_self)]
    rw [hlist]
    rfl

theorem insertSinglecircular_memcpy (h : IsRing s (x :: rest)) (hlt : v < x.2) :
    ∃ s', insertSinglecircular false s v = .ok s' ∧
      IsRing s' ((x.1, v) :: (s.heap.fresh, x.2) :: rest) := by
  have hlist : s.list = some x.1 := h.list
  obtain ⟨-, first, hfirst, hvalue, hrest⟩ := h.path
  have hvalue : first.value = x.2 := hvalue
  have hfirst' := Memory.alloc_of_some (n := ⟨none, v⟩) hfirst
  have hsome := h.path.start_ne_none
  have hne : x.1 ≠ s.heap.fresh := Memory.ne_fresh hfirst
  have hx := (List.nodup_cons.mp h.nodup).1
  have hfresh : s.heap.fresh ∉ rest.map Prod.fst := fun hmem =>
    h.fresh_notMem (List.mem_cons_of_mem _ hmem)
  -- The memory after the copy, and after the first of the two stores.
  have hcopied : ((s.heap.alloc ⟨none, v⟩).update s.heap.fresh fun _ => first).node x.1 = some first :=
    (Memory.update_of_ne hne).trans hfirst'
  have hstored : (((s.heap.alloc ⟨none, v⟩).update s.heap.fresh fun _ => first).update x.1
      fun n => { n with value := v }).node x.1 = some { first with value := v } := by
    rw [Memory.update_self, hcopied]
    rfl
  refine ⟨⟨(((s.heap.alloc ⟨none, v⟩).update s.heap.fresh fun _ => first).update x.1 fun n =>
    { n with value := v }).update x.1 fun n => { n with next := some s.heap.fresh }, s.list⟩, ?_, ?_⟩
  · rw [insertSinglecircular, if_neg hsome]
    simp only [hlist, Memory.read_some hfirst', ok_bind]
    rw [if_pos (by rw [hvalue]; exact hlt), if_neg (by simp), Memory.modify_some Memory.alloc_self,
      ok_bind, Memory.modify_some hcopied, ok_bind, Memory.modify_some hstored]
    rfl
  · have hold : IsRing s ([x] ++ rest) := h
    refine ⟨⟨hlist, ⟨some s.heap.fresh, v⟩, ?_, rfl, rfl, first, ?_, hvalue, ?_⟩, hlist,
      hold.perm_insert x.2⟩
    · rw [Memory.update_self, hstored]
      rfl
    · rw [Memory.update_of_ne hne.symm, Memory.update_of_ne hne.symm, Memory.update_self,
        Memory.alloc_self]
      rfl
    · exact (((hrest.alloc _).update hfresh _).update hx _).update hx _

theorem insertSinglecircular_behind (traverse : Bool) (h : IsRing s (x :: rest)) (hle : ¬ v < x.2) :
    ∃ s', insertSinglecircular traverse s v = .ok s' ∧
      IsRing s' ((x :: rest.takeWhile fun y => decide (y.2 < v)) ++
        (s.heap.fresh, v) :: rest.dropWhile fun y => decide (y.2 < v)) := by
  have hlist : s.list = some x.1 := h.list
  have hpath := h.path.alloc ⟨none, v⟩
  have hlength : rest.length + 1 = s.heap.fresh := h.length_eq
  have hnodup := h.nodup
  have hfresh := h.fresh_notMem
  obtain ⟨-, first, hfirst, hvalue, hrest⟩ := hpath
  have hvalue : first.value = x.2 := hvalue
  have hsome := h.path.start_ne_none
  rw [hlist] at hrest
  have hstart : (s.heap.alloc ⟨none, v⟩).Path (some x.1) ([] ++ [x]) first.next :=
    ⟨rfl, first, hfirst, hvalue, rfl⟩
  obtain ⟨front, y, r, hrun, htake, hfront, hback⟩ := scan_ok rest [] x first.next
    ((s.heap.alloc ⟨none, v⟩).fresh + 1) hstart hrest h.first_ne (by simp; omega)
  have hwhole : x :: rest = front ++ [y] ++ rest.dropWhile fun y => decide (y.2 < v) := by
    rw [← htake, List.append_assoc, List.takeWhile_append_dropWhile]
    rfl
  have hring : IsRing s (front ++ [y] ++ rest.dropWhile fun y => decide (y.2 < v)) := hwhole ▸ h
  obtain ⟨n, hn, -⟩ := (h.path.alloc ⟨none, v⟩).node (show y ∈ x :: rest by rw [hwhole]; simp)
  rw [hwhole] at hnodup hfresh
  have hne := Memory.ne_middle hfresh
  have hinserted := hfront.insertBehind hback hnodup Memory.alloc_self hfresh
  rw [← htake] at hinserted
  refine ⟨⟨((s.heap.alloc ⟨none, v⟩).update y.1 fun n => { n with next := some s.heap.fresh }).update
    s.heap.fresh fun n => { n with next := r }, s.list⟩, ?_, ?_, hlist, ?_⟩
  · rw [insertSinglecircular, if_neg hsome]
    simp only [hlist, Memory.read_some hfirst, ok_bind]
    rw [if_neg (by rw [hvalue]; exact hle), hrun]
    simp only [ok_bind]
    rw [Memory.modify_some hn, ok_bind,
      Memory.modify_some ((Memory.update_of_ne hne).trans Memory.alloc_self)]
    rfl
  · show Memory.Path _ s.list _ s.list
    rw [hlist]
    exact hinserted
  · have hperm := hring.perm_insert v
    rw [← htake] at hperm
    exact hperm

theorem insertSinglecircular_ok (traverse : Bool) {l : List (ℕ × ℤ)} (h : IsRing s l) (v : ℤ) :
    ∃ s' l', insertSinglecircular traverse s v = .ok s' ∧ IsRing s' l' ∧
      l'.map Prod.snd = place v (l.map Prod.snd) := by
  cases l with
  | nil =>
    obtain ⟨s', hs', h'⟩ := insertSinglecircular_empty traverse h v
    exact ⟨s', _, hs', h', rfl⟩
  | cons x rest =>
    by_cases hlt : v < x.2
    · have hplace : place v ((x :: rest).map Prod.snd) = v :: x.2 :: rest.map Prod.snd :=
        place_of_lt hlt
      cases traverse with
      | true =>
        obtain ⟨s', hs', h'⟩ := insertSinglecircular_traverse h hlt
        exact ⟨s', _, hs', h', hplace.symm⟩
      | false =>
        obtain ⟨s', hs', h'⟩ := insertSinglecircular_memcpy h hlt
        exact ⟨s', _, hs', h', hplace.symm⟩
    · obtain ⟨s', hs', h'⟩ := insertSinglecircular_behind traverse h hlt
      exact ⟨s', _, hs', h', (place_behind _ hlt).symm⟩

end insert

/-! ### Reversal -/

/-- The sweep, when it has turned the links of the nodes `done` behind the first node `x`. -/
structure Sweeping (x : ℕ × ℤ) (done rest : List (ℕ × ℤ)) (t : SingleSweep) : Prop where
  turned : t.heap.Path t.prev done.reverse (some x.1)
  coming : t.heap.Path t.current rest (some x.1)
  first : ∃ n, t.heap.node x.1 = some n ∧ n.value = x.2
  next : ∃ n, t.heap.read t.current = .ok n ∧ n.next = t.next

section reverse

variable {x : ℕ × ℤ} {t : SingleSweep}

theorem Sweeping.step {y : ℕ × ℤ} {done rest : List (ℕ × ℤ)} (h : Sweeping x done (y :: rest) t)
    (hnodup : ((x :: done ++ y :: rest).map Prod.fst).Nodup) :
    ∃ t', singleSweepStep t = .ok t' ∧ Sweeping x (done ++ [y]) rest t' ∧
      t'.heap.fresh = t.heap.fresh := by
  obtain ⟨heap, prev, current, next⟩ := t
  obtain ⟨hturned, ⟨rfl, n, hn, hv, hcoming⟩, ⟨n₀, hn₀, hv₀⟩, n', hread, hnext⟩ := h
  simp only at hturned hn hcoming hn₀ hread hnext
  obtain rfl : n = n' := Except.ok.inj ((Memory.read_some hn).symm.trans hread)
  subst hnext
  rw [List.map_append, List.map_cons, List.map_cons] at hnodup
  obtain ⟨-, hrest, hcross⟩ := List.nodup_append.mp hnodup
  have hyx : x.1 ≠ y.1 := hcross x.1 List.mem_cons_self y.1 List.mem_cons_self
  have hydone : y.1 ∉ done.reverse.map Prod.fst := by
    rw [List.map_reverse, List.mem_reverse]
    exact fun hy => hcross y.1 (List.mem_cons_of_mem _ hy) y.1 List.mem_cons_self rfl
  have hyrest := (List.nodup_cons.mp hrest).1
  have hcoming' := hcoming.update hyrest fun n => { n with next := prev }
  have hn₀' : (heap.update y.1 fun n => { n with next := prev }).node x.1 = some n₀ := by
    rw [Memory.update_of_ne hyx, hn₀]
  -- The next node is the one behind `y`, or the first one again.
  obtain ⟨n₁, hread'⟩ : ∃ n₁, (heap.update y.1 fun n => { n with next := prev }).read n.next = .ok n₁ := by
    cases rest with
    | nil =>
      have hback : n.next = some x.1 := hcoming
      rw [hback]
      exact ⟨n₀, Memory.read_some hn₀'⟩
    | cons z rest =>
      obtain ⟨hz, n₁, hn₁, -⟩ := hcoming'
      have hz : n.next = some z.1 := hz
      rw [hz]
      exact ⟨n₁, Memory.read_some hn₁⟩
  refine ⟨⟨heap.update y.1 fun n => { n with next := prev }, some y.1, n.next, n₁.next⟩, ?_, ⟨?_,
    hcoming', ⟨n₀, hn₀', hv₀⟩, n₁, hread', rfl⟩, rfl⟩
  · simp only [singleSweepStep, Memory.modify_some hn, ok_bind, hread', pure_eq_ok]
  · rw [List.reverse_append]
    refine ⟨rfl, { n with next := prev }, ?_, hv, hturned.update hydone _⟩
    rw [Memory.update_self, hn]
    rfl

theorem sweeping_ok :
    ∀ (rest done : List (ℕ × ℤ)) (t : SingleSweep) (fuel : ℕ), Sweeping x done rest t →
      ((x :: done ++ rest).map Prod.fst).Nodup → rest.length < fuel →
      ∃ t', whileM .unbounded (fun t : SingleSweep => pure (decide (t.current ≠ some x.1)))
          singleSweepStep fuel t = .ok t' ∧ Sweeping x (done ++ rest) [] t' ∧
        t'.heap.fresh = t.heap.fresh := by
  intro rest
  induction rest with
  | nil =>
    intro done t fuel h _ hfuel
    obtain ⟨fuel, rfl⟩ := Nat.exists_eq_succ_of_ne_zero (Nat.ne_zero_of_lt hfuel)
    have hcurrent : t.current = some x.1 := h.coming
    refine ⟨t, whileM_false fuel ?_, ?_, rfl⟩
    · simp [hcurrent]
    · rwa [List.append_nil]
  | cons y rest ih =>
    intro done t fuel h hnodup hfuel
    obtain ⟨fuel, rfl⟩ := Nat.exists_eq_succ_of_ne_zero (Nat.ne_zero_of_lt hfuel)
    have hcurrent : t.current = some y.1 := h.coming.1
    have hyx : y.1 ≠ x.1 := by
      rintro hyx
      simp [hyx] at hnodup
    obtain ⟨t₁, hstep, h₁, hfresh₁⟩ := h.step hnodup
    rw [List.append_cons] at hnodup
    obtain ⟨t', hrun, h', hfresh'⟩ := ih (done ++ [y]) t₁ fuel h₁ hnodup (Nat.lt_of_succ_lt_succ hfuel)
    refine ⟨t', ?_, ?_, hfresh'.trans hfresh₁⟩
    · rw [whileM_true fuel _ hstep, hrun]
      simp [hcurrent, hyx]
    · rwa [List.append_assoc] at h'

theorem Sweeping.close {done : List (ℕ × ℤ)} (h : Sweeping x done [] t)
    (hnodup : ((x :: done).map Prod.fst).Nodup) :
    ∃ heap, t.heap.modify t.current (fun n => { n with next := t.prev }) = .ok heap ∧
      heap.Path t.prev (x :: done).reverse t.prev ∧ heap.fresh = t.heap.fresh := by
  obtain ⟨n, hn, hv⟩ := h.first
  have hcurrent : t.current = some x.1 := h.coming
  have hx : x.1 ∉ done.reverse.map Prod.fst := by
    rw [List.map_reverse, List.mem_reverse]
    exact (List.nodup_cons.mp hnodup).1
  refine ⟨t.heap.update x.1 fun n => { n with next := t.prev }, ?_, ?_, rfl⟩
  · rw [hcurrent, Memory.modify_some hn]
  · rw [List.reverse_cons]
    refine Memory.path_concat.mpr ⟨h.turned.update hx _, { n with next := t.prev }, ?_, hv, rfl⟩
    rw [Memory.update_self, hn]
    rfl

theorem reverseSinglecircular_ok {s : SingleState} {l : List (ℕ × ℤ)} (h : IsRing s l) :
    ∃ s', reverseSinglecircular s = .ok s' ∧ IsRing s' l.reverse := by
  cases l with
  | nil =>
    have hlist : s.list = none := h.list
    refine ⟨s, ?_, h⟩
    rw [reverseSinglecircular, if_pos hlist]
    rfl
  | cons x rest =>
    have hlist : s.list = some x.1 := h.list
    have hlength : rest.length + 1 = s.heap.fresh := h.length_eq
    have hsome := h.path.start_ne_none
    obtain ⟨-, first, hfirst, hvalue, hrest⟩ := h.path
    rw [reverseSinglecircular, if_neg hsome]
    simp only [hlist, Memory.read_some hfirst, ok_bind]
    rw [hlist] at hrest
    cases rest with
    | nil =>
      have hnext : first.next = some x.1 := hrest
      rw [if_pos hnext]
      exact ⟨s, rfl, h⟩
    | cons y rest =>
      have hnext : first.next = some y.1 := hrest.1
      obtain ⟨second, hsecond, -⟩ := h.path.node (show y ∈ x :: y :: rest by simp)
      have hne := (h.first_ne y List.mem_cons_self).symm
      have hstart : Sweeping x [] (y :: rest) ⟨s.heap, some x.1, some y.1, second.next⟩ := by
        refine ⟨rfl, ?_, ⟨first, hfirst, hvalue⟩, second, Memory.read_some hsecond, rfl⟩
        rwa [show LinkedNode.next first = some y.1 from hnext] at hrest
      obtain ⟨t, hrun, ht, hfresh⟩ := sweeping_ok (y :: rest) [] _ (s.heap.fresh + 1) hstart h.nodup
        (by simp at hlength ⊢; omega)
      obtain ⟨heap, hclose, hpath, hfresh'⟩ := ht.close h.nodup
      rw [hnext, if_neg hne]
      simp only [Memory.read_some hsecond, ok_bind, hrun, hclose]
      refine ⟨⟨heap, t.prev⟩, rfl, hpath, ?_, ?_⟩
      · rw [ht.turned.start, List.reverse_cons, List.head?_append, Option.map_or]
        rfl
      · rw [hfresh', hfresh, List.map_reverse]
        exact (List.reverse_perm _).trans h.perm

end reverse

/-! ### The two builds -/

/-- The values of the ring after one more call. -/
def Call.values : Call → List ℤ → List ℤ
  | .insert v, vs => place v vs
  | .reverse, vs => vs.reverse

theorem Call.singlecircular_ok (traverse : Bool) {s : SingleState} {l : List (ℕ × ℤ)}
    (h : IsRing s l) (call : Call) :
    ∃ s' l', call.singlecircular traverse s = .ok s' ∧ IsRing s' l' ∧
      l'.map Prod.snd = call.values (l.map Prod.snd) := by
  cases call with
  | insert v => exact insertSinglecircular_ok traverse h v
  | reverse =>
    obtain ⟨s', hs', h'⟩ := reverseSinglecircular_ok h
    exact ⟨s', _, hs', h', List.map_reverse⟩

theorem run_singlecircular (traverse : Bool) (calls : List Call) :
    ∃ s, runSinglecircular traverse calls = .ok s ∧
      ∃ l, IsRing s l ∧ l.map Prod.snd = calls.foldl (fun vs call => call.values vs) [] := by
  apply foldlM_ok (fun done s => ∃ l, IsRing s l ∧
    l.map Prod.snd = done.foldl (fun vs call => call.values vs) []) calls ⟨[], isRing_empty, rfl⟩
  rintro done call rest s - ⟨l, h, hvalues⟩
  obtain ⟨s', l', hs', h', hvalues'⟩ := call.singlecircular_ok traverse h
  refine ⟨s', hs', l', h', ?_⟩
  rw [hvalues', hvalues, List.foldl_append, List.foldl_cons, List.foldl_nil]

/-- After any calls both builds hold one ring, the values read from `*list` are the same, and one more
reversal turns round the nodes of either ring. -/
theorem builds_agree (calls : List Call) :
    ∃ s s' l l', runSinglecircular true calls = .ok s ∧ runSinglecircular false calls = .ok s' ∧
      IsRing s l ∧ IsRing s' l' ∧ l.map Prod.snd = l'.map Prod.snd ∧
      (∃ t, reverseSinglecircular s = .ok t ∧ IsRing t l.reverse) ∧
      ∃ t', reverseSinglecircular s' = .ok t' ∧ IsRing t' l'.reverse := by
  obtain ⟨s, hs, l, h, hvalues⟩ := run_singlecircular true calls
  obtain ⟨s', hs', l', h', hvalues'⟩ := run_singlecircular false calls
  refine ⟨s, s', l, l', hs, hs', h, h', ?_, reverseSinglecircular_ok h, reverseSinglecircular_ok h'⟩
  rw [hvalues, hvalues']

end CodingForFun.AllLinkedLists
