import CodingForFun.Lib.Firsts
import CodingForFun.Lib.Window
import CodingForFun.Linkedlistproblems.Basic
import Mathlib.Data.List.GetD

/-!
# `remove_duplicates`

The values seen so far are kept in a table of 19 rows of 5, each value in the row of its remainder. A row
that is not full ends with `EMPTY`; `haskey` looks for that and not for the end of the row, so a search
for a new value leaves a full row. Up to then the table is the list of the values that were kept, row by
row (`TableHolds`). So the duplicates are removed exactly when no six different values of the list have
the same remainder.

The rows are arrays of their own: an index past the end of one is out of bounds even where the next one
follows in memory.
-/

namespace CodingForFun.Linkedlistproblems

open Lib

def N : ℤ := 19

def EMPTY : ℤ := -1

abbrev Row := Window 0 5 ℤ

abbrev Table := Window 0 N Row

/-- The loop of `haskey`, from the cell `i` on; the sixth read is out of bounds. -/
def haskeyLoop (row : Row) (value : ℤ) : ℕ → ℤ → Except Fault Bool
  | 0, _ => .error .unbounded
  | fuel + 1, i => do
    if (← row.read i) ≠ EMPTY then
      if (← row.read i) = value then pure true else haskeyLoop row value fuel (i + 1)
    else
      pure false

def haskey (table : Table) (value : ℤ) : Except Fault Bool := do
  haskeyLoop (← table.read (value.tmod N)) value 6 0

/-- The loop of `insertvalue`: the cell that is free, unless there are too many collisions. -/
def freeCell (row : Row) : ℕ → ℤ → Except Fault (Option ℤ)
  | 0, _ => .error .unbounded
  | fuel + 1, i => do
    if (← row.read i) ≠ EMPTY then
      if i + 1 = 5 then pure none else freeCell row fuel (i + 1)
    else
      pure (some i)

/-- The stores of `insertvalue`. -/
def putAt (row : Row) (i value : ℤ) : Except Fault Row := do
  let row ← row.write i value
  if i < 4 then row.write (i + 1) EMPTY else pure row

def insertvalue (table : Table) (value : ℤ) : Except Fault Table := do
  let row ← table.read (value.tmod N)
  match ← freeCell row 5 0 with
  | none => pure table -- discard value
  | some i =>
    table.write (value.tmod N) (← putAt row i value)

/-- The variables of `remove_duplicates`. -/
structure Sweep where
  heap : Memory Node
  table : Table
  prev : Option ℕ
  current : Option ℕ

def sweepGoesOn (t : Sweep) : Except Fault Bool := pure (t.current != none)

def sweepStep (t : Sweep) : Except Fault Sweep := do
  if ← haskey t.table (← t.heap.read t.current).value then
    let next := (← t.heap.read t.current).next
    let h ← t.heap.modify t.prev fun n => { n with next := next }
    let current := (← h.read t.current).next
    let h ← h.free t.current
    pure { t with heap := h, current := current }
  else
    let table ← insertvalue t.table (← t.heap.read t.current).value
    pure { t with table := table, prev := t.current, current := (← t.heap.read t.current).next }

def removeDuplicates (s : State) : Except Fault State := do
  if s.list = none then return s
  if (← s.heap.read s.list).next = none then return s
  let table ← insertvalue (fun _ _ => EMPTY) (← s.heap.read s.list).value
  let t ← whileM .unbounded sweepGoesOn sweepStep (s.heap.fresh + 1)
    ⟨s.heap, table, s.list, (← s.heap.read s.list).next⟩
  pure { s with heap := t.heap }

/-! ### The table -/

/-- The row begins with these values, and the other cells are `EMPTY`. -/
structure RowHolds (row : Row) (ws : List ℤ) : Prop where
  length_le : ws.length ≤ 5
  cell : ∀ i : ℕ, i < 5 → row i = ws.getD i EMPTY
  nonneg : ∀ w ∈ ws, 0 ≤ w

namespace RowHolds

variable {row : Row} {ws front back : List ℤ} {v w : ℤ} {fuel : ℕ}

theorem read_value (h : RowHolds row (front ++ w :: back)) : row.read front.length = .ok w := by
  have hlen := h.length_le
  rw [List.length_append, List.length_cons] at hlen
  rw [Window.read_ok (by omega) (by omega), h.cell _ (by omega), List.getD_append_right _ _ _ _ le_rfl,
    Nat.sub_self, List.getD_cons_zero]

theorem value_ne (h : RowHolds row (front ++ w :: back)) : w ≠ EMPTY := by
  have hw := h.nonneg w (by simp)
  rw [EMPTY]
  omega

theorem read_end (h : RowHolds row ws) (hlt : ws.length < 5) : row.read ws.length = .ok EMPTY := by
  rw [Window.read_ok (by omega) (by omega), h.cell _ hlt, List.getD_eq_default _ _ le_rfl]

theorem haskeyLoop_eq (h : RowHolds row ws) :
    ∀ (back front : List ℤ) (fuel : ℕ), front ++ back = ws → back.length < fuel →
      haskeyLoop row v fuel front.length =
        if v ∈ back then .ok true else if ws.length < 5 then .ok false else .error .outOfBounds := by
  intro back
  induction back with
  | nil =>
    intro front fuel hws hfuel
    obtain ⟨fuel, rfl⟩ := Nat.exists_eq_add_of_lt hfuel
    rw [List.append_nil] at hws
    subst hws
    by_cases hlt : front.length < 5
    · simp only [haskeyLoop, h.read_end hlt, ok_bind, ne_eq, not_true_eq_false, if_false,
        List.not_mem_nil, if_pos hlt, pure_eq_ok]
    · have hout : (front.length : ℤ) < 0 ∨ 5 ≤ (front.length : ℤ) := by omega
      simp only [haskeyLoop, Window.read_error hout, error_bind, List.not_mem_nil, if_false, if_neg hlt]
  | cons w back ih =>
    intro front fuel hws hfuel
    obtain ⟨fuel, rfl⟩ := Nat.exists_eq_add_of_lt hfuel
    subst hws
    simp only [haskeyLoop, h.read_value, ok_bind, if_pos h.value_ne]
    by_cases hw : w = v
    · simp only [hw, List.mem_cons, true_or, if_true, pure_eq_ok]
    · have hrest := ih (front ++ [w]) (back.length + 1 + fuel) (by simp) (by omega)
      rw [List.length_append, List.length_singleton, Int.natCast_succ] at hrest
      simp only [if_neg hw, List.length_cons, hrest, List.mem_cons, Ne.symm hw, false_or]

theorem freeCell_eq (h : RowHolds row ws) :
    ∀ (back front : List ℤ) (fuel : ℕ), front ++ back = ws → front.length < 5 → 5 ≤ front.length + fuel →
      freeCell row fuel front.length = .ok (if ws.length < 5 then some ws.length else none) := by
  intro back
  induction back with
  | nil =>
    intro front fuel hws hlt hfuel
    obtain ⟨fuel, rfl⟩ := Nat.exists_eq_succ_of_ne_zero (show fuel ≠ 0 by omega)
    rw [List.append_nil] at hws
    subst hws
    simp only [freeCell, h.read_end hlt, ok_bind, ne_eq, not_true_eq_false, if_false, if_pos hlt, pure_eq_ok]
  | cons w back ih =>
    intro front fuel hws hlt hfuel
    obtain ⟨fuel, rfl⟩ := Nat.exists_eq_succ_of_ne_zero (show fuel ≠ 0 by omega)
    have hlen := congrArg List.length hws
    rw [List.length_append, List.length_cons] at hlen
    have hread : row.read front.length = .ok w ∧ w ≠ EMPTY := by
      subst hws
      exact ⟨h.read_value, h.value_ne⟩
    rw [freeCell, hread.1, ok_bind, if_pos hread.2]
    by_cases hlast : (front.length : ℤ) + 1 = 5
    · rw [if_pos hlast, if_neg (by omega)]
      rfl
    · have hrest := ih (front ++ [w]) fuel (by rw [← hws]; simp)
      rw [List.length_append, List.length_singleton, Int.natCast_succ] at hrest
      rw [if_neg hlast]
      exact hrest (by omega) (by omega)

theorem freeCell_start (h : RowHolds row ws) :
    freeCell row 5 0 = .ok (if ws.length < 5 then some ws.length else none) :=
  h.freeCell_eq ws [] 5 rfl (by decide) (by decide)

theorem put (h : RowHolds row ws) (hlt : ws.length < 5) (hv : 0 ≤ v) :
    ∃ row', putAt row ws.length v = .ok row' ∧ RowHolds row' (ws ++ [v]) := by
  have hcell : ∀ i : ℕ, i < 5 → Function.update row (ws.length : ℤ) v i = (ws ++ [v]).getD i EMPTY := by
    intro i hi
    rcases lt_trichotomy i ws.length with hlt | rfl | hgt
    · rw [Function.update_of_ne (by omega), h.cell i hi, List.getD_append _ _ _ _ hlt]
    · rw [Function.update_self, List.getD_append_right _ _ _ _ le_rfl, Nat.sub_self, List.getD_cons_zero]
    · rw [Function.update_of_ne (by omega), h.cell i hi, List.getD_eq_default _ _ hgt.le,
        List.getD_eq_default _ _ (by rw [List.length_append, List.length_singleton]; omega)]
  have hholds : RowHolds (Function.update row (ws.length : ℤ) v) (ws ++ [v]) := by
    refine ⟨by rw [List.length_append, List.length_singleton]; omega, hcell, fun w hw => ?_⟩
    rcases List.mem_append.mp hw with hw | hw
    · exact h.nonneg w hw
    · rwa [List.mem_singleton.mp hw]
  rw [putAt, Window.write_ok (by omega) (by omega), ok_bind]
  by_cases hroom : (ws.length : ℤ) < 4
  · rw [if_pos hroom, Window.write_ok (by omega) (by omega)]
    refine ⟨_, rfl, hholds.length_le, fun i hi => ?_, hholds.nonneg⟩
    by_cases hnext : i = ws.length + 1
    · rw [hnext, Int.natCast_succ, Function.update_self, List.getD_eq_default _ _ (by simp)]
    · rw [Function.update_of_ne (by omega), hcell i hi]
  · rw [if_neg hroom]
    exact ⟨_, rfl, hholds⟩

end RowHolds

theorem key_bounds {v : ℤ} (hv : 0 ≤ v) : 0 ≤ v.tmod N ∧ v.tmod N < N :=
  ⟨Int.tmod_nonneg _ hv, Int.tmod_lt_of_pos _ (by decide)⟩

section

variable {table : Table} {ws : List ℤ} {v : ℤ}

theorem haskey_of_row (hv : 0 ≤ v) (h : RowHolds (table (v.tmod N)) ws) :
    haskey table v =
      if v ∈ ws then .ok true else if ws.length < 5 then .ok false else .error .outOfBounds := by
  obtain ⟨hlow, hhigh⟩ := key_bounds hv
  have hlen := Nat.lt_succ_of_le h.length_le
  have hloop : haskeyLoop (table (v.tmod N)) v 6 0 = _ := h.haskeyLoop_eq ws [] 6 rfl hlen
  rw [haskey, Window.read_ok hlow hhigh, ok_bind, hloop]

theorem insertvalue_of_room (hv : 0 ≤ v) (h : RowHolds (table (v.tmod N)) ws) (hlt : ws.length < 5) :
    ∃ row, insertvalue table v = .ok (Function.update table (v.tmod N) row) ∧ RowHolds row (ws ++ [v]) := by
  obtain ⟨hlow, hhigh⟩ := key_bounds hv
  obtain ⟨row, hrow, hholds⟩ := h.put hlt hv
  have hfree := h.freeCell_start
  rw [if_pos hlt] at hfree
  refine ⟨row, ?_, hholds⟩
  simp only [insertvalue, Window.read_ok hlow hhigh, ok_bind, hfree, hrow, Window.write_ok hlow hhigh]

end

/-- The values with this remainder. -/
def classOf (seen : List ℤ) (key : ℤ) : List ℤ := seen.filter fun v => decide (v.tmod N = key)

/-- Each row holds the values with its remainder. -/
structure TableHolds (table : Table) (seen : List ℤ) : Prop where
  row : ∀ key, 0 ≤ key → key < N → RowHolds (table key) (classOf seen key)
  nonneg : ∀ v ∈ seen, 0 ≤ v

theorem mem_classOf {seen : List ℤ} {v key : ℤ} : v ∈ classOf seen key ↔ v ∈ seen ∧ v.tmod N = key := by
  rw [classOf, List.mem_filter, decide_eq_true_iff]

theorem classOf_concat (seen : List ℤ) (v key : ℤ) :
    classOf (seen ++ [v]) key = classOf seen key ++ if v.tmod N = key then [v] else [] := by
  rw [classOf, List.filter_append, List.filter_singleton]
  by_cases hkey : v.tmod N = key <;> simp [hkey, classOf]

theorem tableHolds_empty : TableHolds (fun _ _ => EMPTY) [] where
  row key _ _ := ⟨Nat.zero_le 5, fun i _ => by simp [classOf], fun w hw => absurd hw List.not_mem_nil⟩
  nonneg v hv := absurd hv List.not_mem_nil

/-- No row has more values than cells. -/
def Fits (vs : List ℤ) : Prop := ∀ key, (classOf vs key).length ≤ 5

theorem Fits.of_prefix {vs ws : List ℤ} (h : Fits ws) (hp : vs <+: ws) : Fits vs := fun key =>
  (hp.sublist.filter _).length_le.trans (h key)

namespace TableHolds

variable {table : Table} {seen : List ℤ} {v : ℤ}

theorem haskey_eq (h : TableHolds table seen) (hv : 0 ≤ v) :
    haskey table v =
      if v ∈ seen then .ok true
      else if (classOf seen (v.tmod N)).length < 5 then .ok false else .error .outOfBounds := by
  obtain ⟨hlow, hhigh⟩ := key_bounds hv
  have hmem : v ∈ classOf seen (v.tmod N) ↔ v ∈ seen := by rw [mem_classOf, and_iff_left rfl]
  rw [haskey_of_row hv (h.row _ hlow hhigh)]
  simp only [hmem]

theorem insertvalue_ok (h : TableHolds table seen) (hv : 0 ≤ v)
    (hlt : (classOf seen (v.tmod N)).length < 5) :
    ∃ table', insertvalue table v = .ok table' ∧ TableHolds table' (seen ++ [v]) := by
  obtain ⟨hlow, hhigh⟩ := key_bounds hv
  obtain ⟨row', htable, hholds⟩ := insertvalue_of_room hv (h.row _ hlow hhigh) hlt
  refine ⟨Function.update table (v.tmod N) row', htable, fun key hlow' hhigh' => ?_, fun w hw => ?_⟩
  · by_cases hkey : key = v.tmod N
    · rw [hkey, Function.update_self, classOf_concat, if_pos rfl]
      exact hholds
    · rw [Function.update_of_ne hkey, classOf_concat, if_neg (Ne.symm hkey), List.append_nil]
      exact h.row key hlow' hhigh'
  · rcases List.mem_append.mp hw with hw | hw
    · exact h.nonneg w hw
    · rwa [List.mem_singleton.mp hw]

theorem fits (h : TableHolds table seen) : Fits seen := by
  intro key
  by_cases hkey : 0 ≤ key ∧ key < N
  · exact (h.row key hkey.1 hkey.2).length_le
  · have hnone : classOf seen key = [] := by
      refine List.eq_nil_iff_forall_not_mem.mpr fun v hv => hkey ?_
      obtain ⟨hmem, rfl⟩ := mem_classOf.mp hv
      exact key_bounds (h.nonneg v hmem)
    rw [hnone]
    exact Nat.zero_le 5

end TableHolds

/-! ### The sweep -/

/-- The list is the nodes that were kept, the last one `x` behind `front`, and `rest`. -/
structure Sweeping (list : Option ℕ) (t : Sweep) (front : List (ℕ × ℤ)) (x : ℕ × ℤ)
    (rest : List (ℕ × ℤ)) : Prop where
  prev : t.prev = some x.1
  kept : t.heap.Path list (front ++ [x]) t.current
  ahead : t.heap.Path t.current rest none
  nodup : ((front ++ [x] ++ rest).map Prod.fst).Nodup
  table : TableHolds t.table ((front ++ [x]).map Prod.snd)
  nonneg : ∀ y ∈ rest, 0 ≤ y.2

namespace Sweeping

open Memory

variable {list : Option ℕ} {t : Sweep} {front rest : List (ℕ × ℤ)} {x y : ℕ × ℤ}

theorem read_current (h : Sweeping list t front x (y :: rest)) :
    ∃ n, t.heap.node y.1 = some n ∧ t.heap.read t.current = .ok n ∧ n.value = y.2 ∧
      t.heap.Path n.next rest none := by
  obtain ⟨hcurrent, n, hn, hvalue, hrest⟩ := h.ahead
  exact ⟨n, hn, by rw [hcurrent, read_some hn], hvalue, hrest⟩

theorem duplicate (h : Sweeping list t front x (y :: rest)) (hy : y.2 ∈ (front ++ [x]).map Prod.snd) :
    ∃ t', sweepStep t = .ok t' ∧ Sweeping list t' front x rest := by
  obtain ⟨n, hn, hread, hvalue, hrest⟩ := h.read_current
  obtain ⟨n', hn', -⟩ := h.kept.node (show x ∈ front ++ [x] by simp)
  have hhas := h.table.haskey_eq (h.nonneg y List.mem_cons_self)
  rw [if_pos hy] at hhas
  obtain ⟨hx, hx'⟩ := notMem_around h.nodup
  rw [List.map_cons, List.mem_cons, not_or] at hx'
  have hnodup := h.nodup
  rw [List.append_cons] at hnodup
  obtain ⟨hkept, hahead⟩ := notMem_around hnodup
  have hn₁ : (t.heap.update x.1 fun k => { k with next := n.next }).node y.1 = some n := by
    rw [update_of_ne (Ne.symm hx'.1), hn]
  have hread₁ : (t.heap.update x.1 fun k => { k with next := n.next }).read t.current = .ok n := by
    rw [h.ahead.1, read_some hn₁]
  have hfree : (t.heap.update x.1 fun k => { k with next := n.next }).free t.current =
      .ok ((t.heap.update x.1 fun k => { k with next := n.next }).erase y.1) := by
    rw [h.ahead.1, free_some hn₁]
  refine ⟨⟨(t.heap.update x.1 fun k => { k with next := n.next }).erase y.1, t.table, t.prev, n.next⟩,
    ?_, h.prev, ?_, ?_, ?_, h.table, fun z hz => h.nonneg z (List.mem_cons_of_mem y hz)⟩
  · simp only [sweepStep, hread, hvalue, hhas, ok_bind, if_pos, h.prev, modify_some hn', hread₁, hfree,
      pure_eq_ok]
  · exact (h.kept.redirect hx n.next).erase hkept
  · exact (hrest.update hx'.2 _).erase hahead
  · refine h.nodup.sublist (List.Sublist.map _ ?_)
    exact (List.Sublist.refl _).append (List.sublist_cons_self y rest)

theorem keep (h : Sweeping list t front x (y :: rest)) (hy : y.2 ∉ (front ++ [x]).map Prod.snd)
    (hroom : (classOf ((front ++ [x]).map Prod.snd) (y.2.tmod N)).length < 5) :
    ∃ t', sweepStep t = .ok t' ∧ Sweeping list t' (front ++ [x]) y rest := by
  obtain ⟨n, hn, hread, hvalue, hrest⟩ := h.read_current
  have hnonneg := h.nonneg y List.mem_cons_self
  have hhas := h.table.haskey_eq hnonneg
  rw [if_neg hy, if_pos hroom] at hhas
  obtain ⟨table', htable, hholds⟩ := h.table.insertvalue_ok hnonneg hroom
  refine ⟨{ t with table := table', prev := t.current, current := n.next }, ?_, h.ahead.1, ?_, hrest,
    ?_, ?_, fun z hz => h.nonneg z (List.mem_cons_of_mem y hz)⟩
  · simp only [sweepStep, hread, hvalue, hhas, ok_bind, Bool.false_eq_true, if_false, htable, pure_eq_ok]
  · rw [path_concat, ← h.ahead.1]
    exact ⟨h.kept, n, hn, hvalue, rfl⟩
  · rw [← List.append_cons]
    exact h.nodup
  · rw [List.map_append]
    exact hholds

theorem overflow (h : Sweeping list t front x (y :: rest)) (hy : y.2 ∉ (front ++ [x]).map Prod.snd)
    (hfull : ¬(classOf ((front ++ [x]).map Prod.snd) (y.2.tmod N)).length < 5) :
    sweepStep t = .error .outOfBounds := by
  obtain ⟨n, hn, hread, hvalue, -⟩ := h.read_current
  have hhas := h.table.haskey_eq (h.nonneg y List.mem_cons_self)
  rw [if_neg hy, if_neg hfull] at hhas
  simp only [sweepStep, hread, hvalue, hhas, ok_bind, error_bind]

end Sweeping

/-- The induction is on the nodes that are left; the values kept so far are a prefix of those kept in
the end. -/
theorem sweep_spec {list : Option ℕ} :
    ∀ (rest front : List (ℕ × ℤ)) (x : ℕ × ℤ) (t : Sweep) (fuel : ℕ), Sweeping list t front x rest →
      rest.length < fuel →
      let kept := (rest.map Prod.snd).foldl addNew ((front ++ [x]).map Prod.snd)
      (Fits kept → ∃ t' l, whileM .unbounded sweepGoesOn sweepStep fuel t = .ok t' ∧
        t'.heap.Path list l none ∧ l.map Prod.snd = kept) ∧
      (¬Fits kept → whileM .unbounded sweepGoesOn sweepStep fuel t = .error .outOfBounds) := by
  intro rest
  induction rest with
  | nil =>
    intro front x t fuel h hfuel
    obtain ⟨fuel, rfl⟩ := Nat.exists_eq_add_of_lt hfuel
    have hend : t.current = none := h.ahead
    refine ⟨fun _ => ⟨t, front ++ [x], ?_, ?_, rfl⟩, fun hnot => absurd h.table.fits hnot⟩
    · exact whileM_false _ (by rw [sweepGoesOn, hend]; rfl)
    · rw [← hend]
      exact h.kept
  | cons y rest ih =>
    intro front x t fuel h hfuel
    obtain ⟨fuel, rfl⟩ := Nat.exists_eq_add_of_lt hfuel
    have hgo : sweepGoesOn t = .ok true := by
      rw [sweepGoesOn, h.ahead.1]
      rfl
    have hfuel' : rest.length < (y :: rest).length + fuel := by
      rw [List.length_cons]
      omega
    by_cases hy : y.2 ∈ (front ++ [x]).map Prod.snd
    · obtain ⟨t', ht', h'⟩ := h.duplicate hy
      rw [whileM_true _ hgo ht', List.map_cons, List.foldl_cons, addNew_of_mem hy]
      exact ih front x t' _ h' hfuel'
    · by_cases hroom : (classOf ((front ++ [x]).map Prod.snd) (y.2.tmod N)).length < 5
      · obtain ⟨t', ht', h'⟩ := h.keep hy hroom
        rw [whileM_true _ hgo ht', List.map_cons, List.foldl_cons, addNew_of_notMem hy]
        have hrest := ih (front ++ [x]) y t' _ h' hfuel'
        rw [@List.map_append _ _ Prod.snd (front ++ [x])] at hrest
        exact hrest
      · rw [whileM_error _ hgo (h.overflow hy hroom), List.map_cons, List.foldl_cons, addNew_of_notMem hy]
        refine ⟨fun hfits => ?_, fun _ => rfl⟩
        have hsix := hfits.of_prefix (prefix_foldl_addNew _ _) (y.2.tmod N)
        rw [classOf_concat, if_pos rfl, List.length_append, List.length_singleton] at hsix
        omega

theorem insertvalue_first {v : ℤ} (hv : 0 ≤ v) :
    ∃ table, insertvalue (fun _ _ => EMPTY) v = .ok table ∧ TableHolds table [v] :=
  tableHolds_empty.insertvalue_ok hv (Nat.zero_lt_succ 4)

theorem removeDuplicates_sweep {s : State} {x y : ℕ × ℤ} {rest : List (ℕ × ℤ)}
    (h : IsList s (x :: y :: rest)) (hnonneg : ∀ v ∈ (x :: y :: rest).map Prod.snd, 0 ≤ v) :
    (Fits (firsts ((x :: y :: rest).map Prod.snd)) → ∃ s' l', removeDuplicates s = .ok s' ∧
      IsList s' l' ∧ l'.map Prod.snd = firsts ((x :: y :: rest).map Prod.snd)) ∧
    (¬Fits (firsts ((x :: y :: rest).map Prod.snd)) → removeDuplicates s = .error .outOfBounds) := by
  have hpath : s.heap.Path s.list (x :: y :: rest) none := h
  have hfirst := hpath.start_ne_none
  obtain ⟨hlist, n, hn, hvalue, hrest⟩ := hpath
  obtain ⟨table, htable, hholds⟩ := insertvalue_first (hnonneg x.2 (by simp))
  have hread : s.heap.read s.list = .ok n := by rw [hlist, Memory.read_some hn]
  have hnext : n.next ≠ none := hrest.start_ne_none
  have hvalue : n.value = x.2 := hvalue
  have hsweep : Sweeping s.list ⟨s.heap, table, s.list, n.next⟩ [] x (y :: rest) :=
    ⟨hlist, ⟨hlist, n, hn, hvalue, rfl⟩, hrest, h.nodup, hholds, fun z hz =>
      hnonneg z.2 (List.mem_map_of_mem (List.mem_cons_of_mem x hz))⟩
  have hfuel : (y :: rest).length < s.heap.fresh + 1 := by
    have hle := h.length_le_fresh
    rw [List.length_cons] at hle
    omega
  have hkept : ((y :: rest).map Prod.snd).foldl addNew (([] ++ [x]).map Prod.snd) =
      firsts ((x :: y :: rest).map Prod.snd) := by
    have hone : addNew [] x.2 = [x.2] := addNew_of_notMem List.not_mem_nil
    exact congrArg (((y :: rest).map Prod.snd).foldl addNew) hone.symm
  obtain ⟨hok, herror⟩ := sweep_spec _ _ _ _ _ hsweep hfuel
  rw [hkept] at hok herror
  constructor
  · intro hfits
    obtain ⟨t, l, ht, hl, hvalues⟩ := hok hfits
    refine ⟨{ s with heap := t.heap }, l, ?_, hl, hvalues⟩
    simp only [removeDuplicates, if_neg hfirst, hread, ok_bind, if_neg hnext, hvalue, htable, ht,
      pure_eq_ok]
  · intro hnot
    simp only [removeDuplicates, if_neg hfirst, hread, ok_bind, if_neg hnext, hvalue, htable,
      herror hnot, error_bind]

theorem removeDuplicates_spec {s : State} {l : List (ℕ × ℤ)} (h : IsList s l)
    (hnonneg : ∀ v ∈ l.map Prod.snd, 0 ≤ v) :
    (Fits (firsts (l.map Prod.snd)) → ∃ s' l', removeDuplicates s = .ok s' ∧ IsList s' l' ∧
      l'.map Prod.snd = firsts (l.map Prod.snd)) ∧
    (¬Fits (firsts (l.map Prod.snd)) → removeDuplicates s = .error .outOfBounds) := by
  have hpath : s.heap.Path s.list l none := h
  rcases l with _ | ⟨x, _ | ⟨y, rest⟩⟩
  · refine ⟨fun _ => ⟨s, [], ?_, h, rfl⟩, fun hnot => absurd (fun key => Nat.zero_le 5) hnot⟩
    have hlist : s.list = none := hpath
    rw [removeDuplicates, if_pos hlist]
    rfl
  · have hfirst := hpath.start_ne_none
    obtain ⟨hlist, n, hn, -, hnext⟩ := hpath
    have hone : firsts [x.2] = [x.2] := addNew_of_notMem List.not_mem_nil
    have hfits : Fits (firsts [x.2]) := fun key => by
      rw [hone]
      exact (List.length_filter_le _ _).trans (by simp)
    refine ⟨fun _ => ⟨s, [x], ?_, h, hone.symm⟩, fun hnot => absurd hfits hnot⟩
    have hread : s.heap.read s.list = .ok n := by rw [hlist, Memory.read_some hn]
    have hnext : n.next = none := hnext
    rw [removeDuplicates, if_neg hfirst, hread, ok_bind, if_pos hnext]
    rfl
  · exact removeDuplicates_sweep h hnonneg

/-- What is asked of the list that is left: the values of `vs`, each once, in the order in which they
first occur. -/
def Deduplicated (vs ws : List ℤ) : Prop :=
  ws.Nodup ∧ (∀ v, v ∈ ws ↔ v ∈ vs) ∧ ws.Pairwise fun u v => vs.idxOf u < vs.idxOf v

/-- The duplicates are removed when no six different values have the same remainder. -/
theorem removeDuplicates_iff {s : State} {l : List (ℕ × ℤ)} (h : IsList s l)
    (hnonneg : ∀ v ∈ l.map Prod.snd, 0 ≤ v) :
    (∃ s' l', removeDuplicates s = .ok s' ∧ IsList s' l' ∧
      Deduplicated (l.map Prod.snd) (l'.map Prod.snd)) ↔
      ∀ key, ((l.map Prod.snd).toFinset.filter fun v => v.tmod N = key).card ≤ 5 := by
  have hfits : Fits (firsts (l.map Prod.snd)) ↔
      ∀ key, ((l.map Prod.snd).toFinset.filter fun v => v.tmod N = key).card ≤ 5 := by
    refine forall_congr' fun key => ?_
    rw [classOf, length_filter_firsts]
  obtain ⟨hok, herror⟩ := removeDuplicates_spec h hnonneg
  rw [← hfits]
  constructor
  · rintro ⟨s', l', hs', -⟩
    by_contra hnot
    rw [herror hnot] at hs'
    exact absurd hs' (by simp)
  · intro hall
    obtain ⟨s', l', hs', hl', hvalues⟩ := hok hall
    refine ⟨s', l', hs', hl', ?_⟩
    rw [hvalues]
    exact ⟨firsts_nodup _, fun v => mem_firsts, firsts_pairwise _⟩

theorem removeDuplicates_iff_example :
    (∃ s' l', removeDuplicates (listOf [2, 9, 7, 3, 2]) = .ok s' ∧ IsList s' l' ∧
      Deduplicated [2, 9, 7, 3, 2] (l'.map Prod.snd)) ↔
      ∀ key, (([2, 9, 7, 3, 2] : List ℤ).toFinset.filter fun v => v.tmod N = key).card ≤ 5 := by
  obtain ⟨l, hl, hvs⟩ := listOf_isList [2, 9, 7, 3, 2]
  have hiff := removeDuplicates_iff hl (by rw [hvs]; decide)
  rw [hvs] at hiff
  exact hiff

/-- Six different values with the remainder `0`, and the last one twice. -/
theorem removeDuplicates_misses :
    ∃ l, IsList (listOf [0, 19, 38, 57, 76, 95, 95]) l ∧ (∀ v ∈ l.map Prod.snd, 0 ≤ v) ∧
      ¬∃ s' l', removeDuplicates (listOf [0, 19, 38, 57, 76, 95, 95]) = .ok s' ∧ IsList s' l' ∧
        Deduplicated (l.map Prod.snd) (l'.map Prod.snd) := by
  obtain ⟨l, hl, hvs⟩ := listOf_isList [0, 19, 38, 57, 76, 95, 95]
  have hresult : removeDuplicates (listOf [0, 19, 38, 57, 76, 95, 95]) = .error .outOfBounds := rfl
  refine ⟨l, hl, by rw [hvs]; decide, ?_⟩
  intro h
  obtain ⟨s', l', hs', -⟩ := h
  rw [hresult] at hs'
  exact absurd hs' (by simp)

end CodingForFun.Linkedlistproblems
