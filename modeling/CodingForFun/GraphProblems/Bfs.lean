import CodingForFun.GraphProblems.Exploring

/-!
# Breadth-first search

A vertex is marked when `iterative_bfs` takes it from the queue, not when it is put there, so the
queue may hold visited vertices and several copies of one that is not. The entries of the current
level come first, whatever they are, and those are the only ones of that level left (`Levels`).
-/

namespace CodingForFun.GraphProblems

open Lib Dict

variable {V : Type} [DecidableEq V]

/-- The queue is split into the rest of the current level and the entries behind it. -/
def OnLevel (g : ListGraph V) (start : V) (s : SearchState V) : Prop :=
  ∃ k front later, s.pending = front ++ later ∧ Levels g.adj start k s.path front later

variable {g : ListGraph V} {start v : V} {path queue : List V}

theorem OnLevel.front (h : OnLevel g start ⟨path, v :: queue⟩) :
    ∃ k front later, queue = front ++ later ∧ Levels g.adj start k path (v :: front) later := by
  obtain ⟨k, front, later, hqueue, h⟩ := h
  cases front with
  | nil =>
    obtain rfl : v :: queue = later := hqueue
    exact ⟨k + 1, queue, [], (List.append_nil queue).symm, h.advance⟩
  | cons u front =>
    obtain ⟨rfl, rfl⟩ := List.cons.inj hqueue
    exact ⟨k, front, later, rfl, h⟩

theorem OnLevel.skip (h : OnLevel g start ⟨path, v :: queue⟩) (hv : v ∈ path) :
    OnLevel g start ⟨path, queue⟩ := by
  obtain ⟨k, front, later, hqueue, h⟩ := h.front
  exact ⟨k, front, later, hqueue, h.skip hv⟩

theorem OnLevel.visit (h : OnLevel g start ⟨path, v :: queue⟩) (hv : v ∉ path) :
    OnLevel g start ⟨path ++ [v], queue ++ g.adj v⟩ := by
  obtain ⟨k, front, later, hqueue, h⟩ := h.front
  refine ⟨k, front, later ++ g.adj v, ?_, h.visit hv⟩
  simp only [hqueue, List.append_assoc]

/-- `iterative_bfs(graph, start)` returns the vertices in reach of `start`, each of them once, and
the nearer ones first. -/
theorem iterativeBfs_by_distance (g : ListGraph V) {start : V} (hstart : start ∈ g.vertices)
    {fuel : ℕ} (hfuel : g.edges + 1 < fuel) :
    ∃ path, iterativeBfs g.graph fuel start = .ok path ∧ path.Nodup ∧
      (∀ v, v ∈ path ↔ Reach g.adj start v) ∧
      path.Pairwise fun u v => hops g.adj start u ≤ hops g.adj start v := by
  obtain ⟨s', hs', hnil, k, front, later, hqueue, hlevel⟩ : ∃ s', whileM .unbounded searchGoesOn
      (bfsStep g.graph) fuel ⟨[], [start]⟩ = .ok s' ∧ s'.pending = [] ∧ OnLevel g start s' := by
    refine whileM_ok (OnLevel g start) (SearchState.work g) ?_ _ _ ?_ ?_
    · rintro ⟨path, queue⟩ hinv
      cases queue with
      | nil => exact .inr ⟨rfl, rfl, hinv⟩
      | cons v queue =>
        have hreach : Reach g.adj start v := by
          obtain ⟨k, front, later, -, h⟩ := hinv.front
          exact h.reach v (.inr List.mem_cons_self)
        have hv := g.reach_mem hstart hreach
        left
        by_cases hvisited : v ∈ path
        · exact ⟨⟨path, queue⟩, rfl, look_skip hvisited _, hinv.skip hvisited, work_skip⟩
        · exact ⟨⟨path ++ [v], queue ++ g.adj v⟩, rfl, look_visit hv hvisited, hinv.visit hvisited,
            work_visit hv hvisited⟩
    · exact ⟨0, [start], [], rfl, Levels.start g.adj start⟩
    · rwa [work_start]
  refine ⟨s'.path, by rw [iterativeBfs, hs', ok_bind, pure_eq_ok], hlevel.nodup, fun v => ?_,
    hlevel.sorted⟩
  have hover := hlevel.toFrontier
  rw [← hqueue, hnil] at hover
  exact hover.mem_iff

theorem iterativeBfs_by_distance_example :
    ∃ path, iterativeBfs exploringGraph.graph 10 .A = .ok path ∧ path.Nodup ∧
      (∀ v, v ∈ path ↔ Reach exploringGraph.adj .A v) ∧
      path.Pairwise fun u v => hops exploringGraph.adj .A u ≤ hops exploringGraph.adj .A v :=
  iterativeBfs_by_distance exploringGraph (by decide) (by decide)

example : iterativeBfs exploringDict 10 .A = .ok [.A, .B, .C, .D, .E] := by decide

end CodingForFun.GraphProblems
