import CodingForFun.PriorityQueue.ChangePriority
import Mathlib.Algebra.GroupWithZero.Nat

/-!
# `prim` of `prim_pqueue.c`

`prim` on an 8 by 8 weight matrix, with the queue of `priorityqueue_heap.c` keyed by the weight of
the lightest edge to an explored vertex. `pred` is the array the caller passes, `-1` meaning no
predecessor.
-/

namespace CodingForFun.PrimPqueue

open Lib PriorityQueue

/-- `SIZE`: the number of vertices. -/
abbrev SIZE : ℕ := 8

instance : NeZero SIZE := ⟨by decide⟩

theorem toNat_lt_size {i : Int} (h : 0 ≤ i ∧ i < SIZE) : i.toNat < SIZE := by omega

/-- `INF`: no edge. -/
def INF : Int := 999

/-- `int graph[SIZE][SIZE]`. -/
abbrev Graph := Fin SIZE → Fin SIZE → Int

/-- The variables of `prim` at the head of its `while` loop. -/
structure PrimState where
  key : Fin SIZE → Int
  pred : Fin SIZE → Int
  pq : Pq

/-- `graph[u]`. -/
def graphRow (graph : Graph) (u : Int) : Except Fault (Fin SIZE → Int) :=
  if h : 0 ≤ u ∧ u < SIZE then .ok (graph ⟨u.toNat, toNat_lt_size h⟩) else .error .outOfBounds

/-- The loop that pushes every vertex with its key. -/
def pushAll (key : Fin SIZE → Int) (q : Pq) : Except Fault Pq :=
  (List.finRange SIZE).foldlM (fun q (i : Fin SIZE) => pqPush (some intMax) q i.val (key i)) q

/-- `key` before the `while` loop: `INF` everywhere, then `key[0] = 0`. -/
def initKey : Fin SIZE → Int := Function.update (fun _ => INF) 0 0

theorem initKey_of_ne {v : Fin SIZE} (h : v ≠ 0) : initKey v = INF := Function.update_of_ne h ..

/-- Everything before the `while` loop. -/
def primInit : Except Fault PrimState := do
  let pq ← pushAll initKey (pqNew SIZE)
  pure { key := initKey, pred := fun _ => -1, pq := pq }

/-- The body of the `for` loop: `v` against the row of the vertex `u` being explored. -/
def primRelax (u : Int) (row : Fin SIZE → Int) (st : PrimState) (v : Fin SIZE) :
    Except Fault PrimState :=
  if row v ≠ INF then do
    if ← pqHaskey st.pq v.val then
      if row v < st.key v then do
        let pq ← pqChangepriority st.pq v.val (row v)
        pure { key := Function.update st.key v (row v), pred := Function.update st.pred v u, pq := pq }
      else pure st
    else pure st
  else pure st

/-- The body of the `while` loop. -/
def primRound (graph : Graph) (st : PrimState) : Except Fault PrimState := do
  let (u, pq) ← pqPop (some intMax) st.pq
  let row ← graphRow graph u
  (List.finRange SIZE).foldlM (primRelax u row) { st with pq := pq }

def primCond (st : PrimState) : Except Fault Bool := pure (decide (st.pq.n > 0))

/-- `prim`: the `pred` array it leaves. -/
def prim (graph : Graph) : Except Fault (Fin SIZE → Int) := do
  let st ← primInit
  let st ← whileM .unbounded primCond (primRound graph) (SIZE + 1) st
  pure st.pred

end CodingForFun.PrimPqueue
