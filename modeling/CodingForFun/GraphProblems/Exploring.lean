import CodingForFun.Lib.Dict
import CodingForFun.Lib.GraphSearch

/-!
# `graphproblems.py`: exploring a graph

`recursive_dfs`, `iterative_dfs` and `iterative_bfs` on dictionaries from each vertex to the list of
its neighbors. The interpreter's limit on the depth of calls is not part of the model: `fuel` bounds
the depth of `recursive_dfs` and the rounds of the two loops.
-/

namespace CodingForFun.GraphProblems

open Lib Dict

variable {V : Type} [DecidableEq V]

/-- `recursive_dfs(graph, start, path)`; each call builds a list of its own from `path`. -/
def recursiveDfs (graph : Dict V (List V)) : ℕ → V → List V → Except PyError (List V)
  | 0, _, _ => .error .unbounded
  | fuel + 1, start, path => do
    let neighbors ← graph.getItem start
    neighbors.foldlM
      (fun path node => if node ∉ path then recursiveDfs graph fuel node path else pure path)
      (path ++ [start])

/-- The variables of `iterative_dfs` and `iterative_bfs`. -/
structure SearchState (V : Type) where
  path : List V
  pending : List V -- `stack` or `queue`

/-- `while stack:` or `while queue:` -/
def searchGoesOn (s : SearchState V) : Except PyError Bool := pure !s.pending.isEmpty

/-- What the two loops do with the vertex `v` they took: `pending` is what is left. -/
def look (graph : Dict V (List V)) (path : List V) (v : V) (pending : List V) :
    Except PyError (SearchState V) := do
  if v ∉ path then
    let neighbors ← graph.getItem v
    pure ⟨path ++ [v], pending ++ neighbors⟩
  else
    pure ⟨path, pending⟩

/-- The loop body of `iterative_dfs`; `stack.pop()` takes the last. -/
def dfsStep (graph : Dict V (List V)) (s : SearchState V) : Except PyError (SearchState V) :=
  match s.pending.getLast? with
  | none => .error .indexError
  | some v => look graph s.path v s.pending.dropLast

def iterativeDfs (graph : Dict V (List V)) (fuel : ℕ) (start : V) : Except PyError (List V) := do
  let s ← whileM .unbounded searchGoesOn (dfsStep graph) fuel ⟨[], [start]⟩
  pure s.path

/-- The loop body of `iterative_bfs`; `queue.pop(0)` takes the first. -/
def bfsStep (graph : Dict V (List V)) (s : SearchState V) : Except PyError (SearchState V) :=
  match s.pending with
  | [] => .error .indexError
  | v :: queue => look graph s.path v queue

def iterativeBfs (graph : Dict V (List V)) (fuel : ℕ) (start : V) : Except PyError (List V) := do
  let s ← whileM .unbounded searchGoesOn (bfsStep graph) fuel ⟨[], [start]⟩
  pure s.path

/-! ## Input graphs -/

/-- Adjacency lists in which every neighbor is a vertex. -/
structure ListGraph (V : Type) [DecidableEq V] where
  graph : Dict V (List V)
  closed : ∀ u neighbors, graph.lookup u = some neighbors → ∀ v ∈ neighbors, v ∈ graph

namespace ListGraph

variable (g : ListGraph V) {u v : V}

def vertices : Finset V := g.graph.keys.toFinset

/-- The neighbors of a vertex. -/
def adj (v : V) : List V := (g.graph.lookup v).getD []

theorem mem_vertices : v ∈ g.vertices ↔ v ∈ g.graph := by
  rw [vertices, List.mem_toFinset, AList.mem_keys]

theorem getItem (hv : v ∈ g.vertices) : g.graph.getItem v = .ok (g.adj v) := by
  obtain ⟨neighbors, hlookup, hget⟩ := getItem_of_mem (g.mem_vertices.mp hv)
  rw [hget, adj, hlookup, Option.getD_some]

theorem adj_mem (hv : v ∈ g.adj u) : v ∈ g.vertices := by
  rw [adj] at hv
  cases hlookup : g.graph.lookup u with
  | none => simp [hlookup] at hv
  | some neighbors =>
    rw [hlookup, Option.getD_some] at hv
    exact g.mem_vertices.mpr (g.closed u neighbors hlookup v hv)

theorem reach_mem (hu : u ∈ g.vertices) (h : Reach g.adj u v) : v ∈ g.vertices :=
  h.mem_of_closed hu fun _ _ _ hw => g.adj_mem hw

/-- The sum of the lengths of the adjacency lists. -/
def edges : ℕ := ∑ v ∈ g.vertices, (g.adj v).length

/-! ### Every adjacency list reversed -/

def reversedDict (graph : Dict V (List V)) : Dict V (List V) :=
  ⟨graph.entries.map (.map id fun _ => List.reverse), graph.nodupKeys.map₂ _ _⟩

theorem lookup_reversedDict (graph : Dict V (List V)) (v : V) :
    (reversedDict graph).lookup v = (graph.lookup v).map List.reverse :=
  List.dlookup_map₂ v

theorem mem_reversedDict {graph : Dict V (List V)} : v ∈ reversedDict graph ↔ v ∈ graph := by
  rw [← AList.lookup_isSome, lookup_reversedDict, Option.isSome_map, AList.lookup_isSome]

def reversed : ListGraph V where
  graph := reversedDict g.graph
  closed u neighbors hlookup v hv := by
    rw [lookup_reversedDict, Option.map_eq_some_iff] at hlookup
    obtain ⟨row, hrow, rfl⟩ := hlookup
    exact mem_reversedDict.mpr (g.closed u row hrow v (List.mem_reverse.mp hv))

@[simp] theorem vertices_reversed : g.reversed.vertices = g.vertices := by
  ext v
  rw [mem_vertices, mem_vertices, reversed, mem_reversedDict]

@[simp] theorem adj_reversed (v : V) : g.reversed.adj v = (g.adj v).reverse := by
  rw [adj, adj, reversed, lookup_reversedDict]
  cases g.graph.lookup v <;> rfl

end ListGraph

/-- The vertices of the file's own example. -/
inductive Letter
  | A | B | C | D | E
  deriving DecidableEq, Repr

def exploringDict : Dict Letter (List Letter) :=
  ofList [(.A, [.B, .C]), (.B, [.D, .E]), (.C, [.D, .E]), (.D, [.E]), (.E, [.A])]

def exploringGraph : ListGraph Letter where
  graph := exploringDict
  closed u neighbors hlookup v hv := by
    have hrow : ∀ e ∈ exploringDict.entries, ∀ v ∈ e.2, v ∈ exploringDict := by decide
    exact hrow ⟨u, neighbors⟩ (AList.mem_lookup_iff.mp hlookup) v hv

/-! ## A round of the two loops -/

variable {g : ListGraph V} {path pending : List V} {v : V}

/-- The rounds the two loops can still take. -/
def SearchState.work (g : ListGraph V) (s : SearchState V) : ℕ :=
  unexplored g.adj g.vertices s.path + s.pending.length

theorem work_start (g : ListGraph V) (start : V) :
    SearchState.work g ⟨[], [start]⟩ = g.edges + 1 := by
  rw [SearchState.work, unexplored_nil, ListGraph.edges, List.length_singleton]

theorem look_skip (hv : v ∈ path) (graph : Dict V (List V)) :
    look graph path v pending = .ok ⟨path, pending⟩ :=
  if_neg (not_not.mpr hv)

theorem look_visit (hv : v ∈ g.vertices) (hnew : v ∉ path) :
    look g.graph path v pending = .ok ⟨path ++ [v], pending ++ g.adj v⟩ := by
  rw [look, if_pos hnew, g.getItem hv, ok_bind, pure_eq_ok]

theorem work_skip : SearchState.work g ⟨path, pending⟩ <
    unexplored g.adj g.vertices path + (pending.length + 1) :=
  Nat.lt_succ_self _

theorem work_visit (hv : v ∈ g.vertices) (hnew : v ∉ path) :
    SearchState.work g ⟨path ++ [v], pending ++ g.adj v⟩ <
      unexplored g.adj g.vertices path + (pending.length + 1) := by
  have hsum := @unexplored_visit V g.adj v _ g.vertices path hv hnew
  simp only [SearchState.work, List.length_append]
  omega

end CodingForFun.GraphProblems
