import CodingForFun.Lib.Dict

/-!
# `graphproblems.py`

The shortest-path and spanning-tree routines on adjacency dictionaries: `popmin` (the file has it
twice, word for word), `dijkstra`, `floydwarshall` and `prim`.

The vertices are the values of a type `V` that has neither `-1` nor `None` among them, so the
predecessor `-1` is `none`. A `for` loop over the input goes through it in the order of its list,
which is any order. The queue changes between two loops over it, and Python promises nothing about
the order of a dictionary: an `IterOrder` gives one for each round.
-/

namespace CodingForFun.GraphProblems

open Lib

variable {V : Type} [DecidableEq V]

/-- `{vertex: {neighbor: weight}}` -/
abbrev Graph (V : Type) := Dict V (Dict V Int)

/-- The order of `for key in pqueue` in each round. -/
structure IterOrder (V : Type) where
  order : ℕ → List V → List V
  perm : ∀ round keys, (order round keys).Perm keys

/-- Every queue in the order of its list. -/
def IterOrder.listOrder (V : Type) : IterOrder V := ⟨fun _ keys => keys, fun _ _ => List.Perm.refl _⟩

/-- The loop body of `popmin`, on `lowest` and `keylowest`. -/
def popminStep (pqueue : Dict V Int) : Int × Option V → V → Except PyError (Int × Option V)
  | (lowest, keylowest), key => do
    let priority ← pqueue.getItem key
    if priority < lowest then pure (priority, some key) else pure (lowest, keylowest)

/-- `popmin`, going through the queue in the order `keys`: the key and the queue without it. -/
def popmin (keys : List V) (pqueue : Dict V Int) : Except PyError (V × Dict V Int) := do
  let (_, keylowest) ← keys.foldlM (popminStep pqueue) (1000, none)
  match keylowest with
  | none => .error .keyError -- `del pqueue[None]`
  | some key => do
    let pqueue ← pqueue.delItem key
    pure (key, pqueue)

/-- `for v in graph: pqueue[v] = dist[v]` -/
def enqueueAll (graph : Graph V) (dist : Dict V Int) : Except PyError (Dict V Int) :=
  graph.keys.foldlM (fun pqueue v => do
    let d ← dist.getItem v
    pure (pqueue.setItem v d)) ∅

/-! ## `dijkstra` -/

/-- The variables of `dijkstra`, and how often `popmin` was called. -/
structure DijkstraState (V : Type) where
  pqueue : Dict V Int
  dist : Dict V Int
  pred : Dict V (Option V)
  round : ℕ

/-- Everything before the `while` loop. -/
def dijkstraInit (graph : Graph V) (start : V) : Except PyError (DijkstraState V) := do
  let dist : Dict V Int := (Dict.fill ∅ graph.keys fun _ => 1000).setItem start 0
  let pred : Dict V (Option V) := Dict.fill ∅ graph.keys fun _ => none
  let pqueue ← enqueueAll graph dist
  pure ⟨pqueue, dist, pred, 0⟩

/-- The body of the `for` loop, with `row = graph[u]`. -/
def dijkstraRelax (row : Dict V Int) (u : V) (st : DijkstraState V) (v : V) :
    Except PyError (DijkstraState V) := do
  let w ← row.getItem v
  let du ← st.dist.getItem u
  let newdist := du + w
  let dv ← st.dist.getItem v
  if newdist < dv then
    pure ⟨st.pqueue.setItem v newdist, st.dist.setItem v newdist, st.pred.setItem v (some u), st.round⟩
  else
    pure st

/-- The body of the `while` loop. -/
def dijkstraRound (ord : IterOrder V) (graph : Graph V) (st : DijkstraState V) :
    Except PyError (DijkstraState V) := do
  let (u, pqueue) ← popmin (ord.order st.round st.pqueue.keys) st.pqueue
  let row ← graph.getItem u
  row.keys.foldlM (dijkstraRelax row u) ⟨pqueue, st.dist, st.pred, st.round + 1⟩

def dijkstraCond (st : DijkstraState V) : Except PyError Bool := pure st.pqueue.truthy

/-- `dijkstra`: `dist` and `pred`. -/
def dijkstra (fuel : ℕ) (ord : IterOrder V) (graph : Graph V) (start : V) :
    Except PyError (Dict V Int × Dict V (Option V)) := do
  let st ← dijkstraInit graph start
  let st ← whileM .unbounded dijkstraCond (dijkstraRound ord graph) fuel st
  pure (st.dist, st.pred)

/-! ## `prim` -/

/-- The variables of `prim`, and how often `popmin` was called. -/
structure PrimState (V : Type) where
  pqueue : Dict V Int
  key : Dict V Int
  pred : Dict V (Option V)
  round : ℕ

/-- Everything before the `while` loop. -/
def primInit (graph : Graph V) (root : V) : Except PyError (PrimState V) := do
  let pred : Dict V (Option V) := Dict.fill ∅ graph.keys fun _ => none
  let key : Dict V Int := (Dict.fill ∅ graph.keys fun _ => 1000).setItem root 0
  let pqueue ← enqueueAll graph key
  pure ⟨pqueue, key, pred, 0⟩

/-- The body of the `for` loop, with `row = graph[u]`. -/
def primRelax (row : Dict V Int) (u : V) (st : PrimState V) (v : V) :
    Except PyError (PrimState V) :=
  if v ∈ st.pqueue then do
    let w ← row.getItem v
    let k ← st.key.getItem v
    if w < k then
      pure ⟨st.pqueue.setItem v w, st.key.setItem v w, st.pred.setItem v (some u), st.round⟩
    else
      pure st
  else
    pure st

/-- The body of the `while` loop. -/
def primRound (ord : IterOrder V) (graph : Graph V) (st : PrimState V) :
    Except PyError (PrimState V) := do
  let (u, pqueue) ← popmin (ord.order st.round st.pqueue.keys) st.pqueue
  let row ← graph.getItem u
  row.keys.foldlM (primRelax row u) ⟨pqueue, st.key, st.pred, st.round + 1⟩

def primCond (st : PrimState V) : Except PyError Bool := pure st.pqueue.truthy

/-- `prim`: the dictionary `pred`. -/
def prim (fuel : ℕ) (ord : IterOrder V) (graph : Graph V) (root : V) :
    Except PyError (Dict V (Option V)) := do
  let st ← primInit graph root
  let st ← whileM .unbounded primCond (primRound ord graph) fuel st
  pure st.pred

/-! ## `floydwarshall` -/

/-- `dist` and `pred`, dictionaries of rows. -/
structure Tables (V : Type) where
  dist : Dict V (Dict V Int)
  pred : Dict V (Dict V (Option V))

/-- `d[u][v]` -/
def getItem₂ {α : Type} (d : Dict V (Dict V α)) (u v : V) : Except PyError α := do
  let row ← d.getItem u
  row.getItem v

/-- `d[u][v] = x` -/
def setItem₂ {α : Type} (d : Dict V (Dict V α)) (u v : V) (x : α) :
    Except PyError (Dict V (Dict V α)) := do
  let row ← d.getItem u
  pure (d.setItem u (row.setItem v x))

/-- The loop body of `for neighbor in graph[u]`, on `dist[u]` and `pred[u]`. -/
def copyEdge (row : Dict V Int) (u : V) (rows : Dict V Int × Dict V (Option V)) (neighbor : V) :
    Except PyError (Dict V Int × Dict V (Option V)) := do
  let w ← row.getItem neighbor
  pure (rows.1.setItem neighbor w, rows.2.setItem neighbor (some u))

/-- `dist[u]` and `pred[u]` before the phases; they are new dictionaries, filled before anything
else reads them. -/
def initialRow (graph : Graph V) (u : V) : Except PyError (Dict V Int × Dict V (Option V)) := do
  let dist : Dict V Int := (Dict.fill ∅ graph.keys fun _ => 1000).setItem u 0
  let pred : Dict V (Option V) := Dict.fill ∅ graph.keys fun _ => none
  let row ← graph.getItem u
  row.keys.foldlM (copyEdge row u) (dist, pred)

/-- The first `for u in graph` loop. -/
def initialTables (graph : Graph V) : Except PyError (Tables V) :=
  graph.keys.foldlM (fun tables u => do
    let rows ← initialRow graph u
    pure ⟨tables.dist.setItem u rows.1, tables.pred.setItem u rows.2⟩) ⟨∅, ∅⟩

/-- The innermost loop body: is the path u - t - v shorter? -/
def improve (t u : V) (tables : Tables V) (v : V) : Except PyError (Tables V) := do
  let dut ← getItem₂ tables.dist u t
  let dtv ← getItem₂ tables.dist t v
  let newdist := dut + dtv
  let duv ← getItem₂ tables.dist u v
  if newdist < duv then
    let dist ← setItem₂ tables.dist u v newdist
    let ptv ← getItem₂ tables.pred t v
    let pred ← setItem₂ tables.pred u v ptv
    pure ⟨dist, pred⟩
  else
    pure tables

/-- One round of the loop over `t`. -/
def phase (graph : Graph V) (tables : Tables V) (t : V) : Except PyError (Tables V) :=
  graph.keys.foldlM (fun tables u => graph.keys.foldlM (improve t u) tables) tables

/-- `floydwarshall`: `dist` and `pred`. -/
def floydwarshall (graph : Graph V) : Except PyError (Tables V) := do
  let tables ← initialTables graph
  graph.keys.foldlM (phase graph) tables

end CodingForFun.GraphProblems
