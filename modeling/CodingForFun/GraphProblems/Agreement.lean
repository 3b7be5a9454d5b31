import CodingForFun.GraphProblems.Dijkstra
import CodingForFun.GraphProblems.FloydWarshall

/-!
# When `dijkstra` and `floydwarshall` agree

Both use 1000 for "no path", but they part ways at two kinds of graphs. A vertex that cannot be
reached from `s` is left in the queue of `dijkstra` with the value 1000, `popmin` finds nothing below
1000 and raises. And `floydwarshall` copies a self-loop of `s` over the 0 on the diagonal.
`agree_iff` says that nothing else can go wrong.
-/

namespace CodingForFun.GraphProblems

open Lib Dict

variable {V : Type} [DecidableEq V]

/-- `dijkstra(graph, s)` returns, and its `dist` is the row of `s` in that of `floydwarshall`. -/
def Agree (fuel : ℕ) (ord : IterOrder V) (graph : Graph V) (s : V) : Prop :=
  ∃ dist pred tables row, dijkstra fuel ord graph s = .ok (dist, pred) ∧
    floydwarshall graph = .ok tables ∧ tables.dist.lookup s = some row ∧
    ∀ v, dist.lookup v = row.lookup v

variable {g : DiGraph V} {s : V}

theorem dijkstra_returns_iff (hnn : NonnegEdges g.edge)
    (hnear : ∀ u v d, IsDistance g.edge u v d → d < 1000) (hs : s ∈ g.vertices) (ord : IterOrder V)
    {fuel : ℕ} (hfuel : g.vertices.card < fuel) :
    (∃ r, dijkstra fuel ord g.graph s = .ok r) ↔ ∀ v ∈ g.vertices, ∃ d, Walk g.edge s v d := by
  rcases dijkstra_outcome hnn hs ord hfuel with
    ⟨dist, pred, f, p, hrun, -, -, hset⟩ | ⟨hrun, S, f, p, hS, hset, hrest⟩
  · constructor
    · intro _ v hv
      exact ⟨f v, (hset.path v hv).walk⟩
    · intro _
      exact ⟨_, hrun⟩
  · constructor
    · intro hret
      obtain ⟨r, hr⟩ := hret
      rw [hrun] at hr
      exact absurd hr (by simp)
    · intro hreach
      obtain ⟨v, hv, hvS⟩ := Finset.exists_of_ssubset hS
      obtain ⟨d, hwalk⟩ := hreach v hv
      obtain ⟨d', hd'⟩ := hwalk.exists_isDistance hnn
      exact absurd hd'.1 (not_walk_of_rest hnn hset hrest hvS (hnear s v d' hd'))

/-- **When the two routines agree.** -/
theorem agree_iff (g : DiGraph V) (hnn : NonnegEdges g.edge)
    (hnear : ∀ u v d, IsDistance g.edge u v d → d < 1000) {s : V} (hs : s ∈ g.vertices)
    (ord : IterOrder V) {fuel : ℕ} (hfuel : g.vertices.card < fuel) :
    Agree fuel ord g.graph s ↔
      (∀ v ∈ g.vertices, ∃ d, Walk g.edge s v d) ∧
        (g.edge s s = none ∨ ProperWalk g.edge s s 0) := by
  obtain ⟨tables, T, D, P, hfw, hinv, hT⟩ := floydwarshall_outcome g hnn
  obtain ⟨rows, hrows, hentries⟩ := hinv.holds.dist
  have hrow : ∀ u ∈ g.vertices, Tabulates (rows u) g.vertices (D u) := hentries
  have hdiag : D s s = 0 ↔ _ := hinv.allPairs.diag_iff hT (by decide)
  rw [← dijkstra_returns_iff hnn hnear hs ord hfuel, ← hdiag]
  rcases dijkstra_outcome hnn hs ord hfuel with
    ⟨dist, pred, f, p, hrun, hdist, -, hset⟩ | ⟨hrun, -⟩
  · constructor
    · intro hagree
      obtain ⟨dist', pred', tables', row, hrun', hfw', hlookup, heq⟩ := hagree
      rw [hrun] at hrun'
      rw [hfw] at hfw'
      obtain ⟨rfl, -⟩ := Prod.mk.inj (Except.ok.inj hrun')
      obtain rfl := Except.ok.inj hfw'
      rw [hrows.lookup hs] at hlookup
      obtain rfl := Option.some.inj hlookup
      refine ⟨⟨_, hrun⟩, ?_⟩
      have hss := heq s
      rw [hdist.lookup hs, (hrow s hs).lookup hs, hset.start_dist] at hss
      exact (Option.some.inj hss).symm
    · intro hcond
      refine ⟨dist, pred, tables, rows s, hrun, hfw, hrows.lookup hs, fun v => ?_⟩
      rw [hdist v, hrow s hs v]
      by_cases hv : v ∈ g.vertices
      · rw [if_pos hv, if_pos hv]
        by_cases hsv : s = v
        · rw [← hsv, hset.start_dist, hcond.2]
        · have hf := isDistance_of_settled hnn hs hset hv
          rw [hinv.allPairs.eq_distance hT hf (hnear s v _ hf) hsv]
      · rw [if_neg hv, if_neg hv]
  · constructor
    · intro hagree
      obtain ⟨dist', pred', -, -, hrun', -⟩ := hagree
      rw [hrun] at hrun'
      exact absurd hrun' (by simp)
    · intro hcond
      obtain ⟨⟨r, hr⟩, -⟩ := hcond
      rw [hrun] at hr
      exact absurd hr (by simp)

/-- One edge, of weight 5. -/
def oneEdge : DiGraph (Fin 2) where
  graph := ofList [(0, ofList [(1, 5)]), (1, ∅)]
  closed _ v _ _ := (by decide : ∀ v, v ∈ (ofList [(0, ofList [(1, 5)]), (1, ∅)] : Graph (Fin 2))) v

theorem oneEdge_edge : ∀ u v, ∀ w ∈ oneEdge.edge u v, u = 0 ∧ w = 5 ∧ v = 1 := by decide

theorem oneEdge_walk {u v : Fin 2} {d : ℤ} (h : Walk oneEdge.edge u v d) :
    (v = u ∧ d = 0) ∨ (v = 1 ∧ d = 5) := by
  induction h with
  | nil => exact .inl ⟨rfl, rfl⟩
  | snoc _ hedge ih =>
    obtain ⟨hb, rfl, rfl⟩ := oneEdge_edge _ _ _ hedge
    rcases ih with ⟨-, rfl⟩ | ⟨hb', -⟩
    · exact .inr ⟨rfl, rfl⟩
    · rw [hb] at hb'
      exact absurd hb' (by decide)

theorem agree_iff_oneEdge :
    Agree 3 (.listOrder _) oneEdge.graph 0 ↔
      (∀ v ∈ oneEdge.vertices, ∃ d, Walk oneEdge.edge 0 v d) ∧
        (oneEdge.edge 0 0 = none ∨ ProperWalk oneEdge.edge 0 0 0) :=
  agree_iff oneEdge (fun u v w h => by obtain ⟨-, rfl, -⟩ := oneEdge_edge u v w h; decide)
    (fun u v d h => by rcases oneEdge_walk h.1 with ⟨-, rfl⟩ | ⟨-, rfl⟩ <;> decide) (by decide)
    (.listOrder _) (by decide)

/-- A single vertex with a self-loop of weight 5. -/
def selfLoop : DiGraph (Fin 1) where
  graph := ofList [(0, ofList [(0, 5)])]
  closed _ v _ _ := (by decide : ∀ v, v ∈ (ofList [(0, ofList [(0, 5)])] : Graph (Fin 1))) v

/-- From vertex 1 of `oneEdge`, from which 0 cannot be reached, `dijkstra` raises; on the diagonal
of `selfLoop` `floydwarshall` has 5 where `dijkstra` has 0. -/
theorem not_agree_oneEdge_selfLoop :
    (NonnegEdges oneEdge.edge ∧ (∀ u v d, IsDistance oneEdge.edge u v d → d < 1000) ∧
        ¬ Agree 3 (.listOrder _) oneEdge.graph 1) ∧
      NonnegEdges selfLoop.edge ∧ (∀ u v d, IsDistance selfLoop.edge u v d → d < 1000) ∧
        ¬ Agree 2 (.listOrder _) selfLoop.graph 0 := by
  refine ⟨⟨fun u v w h => ?_, fun u v d h => ?_, ?_⟩, fun u v w h => ?_, fun u v d h => ?_, ?_⟩
  · obtain ⟨-, rfl, -⟩ := oneEdge_edge u v w h
    decide
  · rcases oneEdge_walk h.1 with ⟨-, rfl⟩ | ⟨-, rfl⟩ <;> decide
  · intro hagree
    obtain ⟨dist, pred, -, -, hrun, -⟩ := hagree
    have hraise : dijkstra 3 (.listOrder _) oneEdge.graph 1 = .error .keyError := by rfl
    rw [hraise] at hrun
    exact absurd hrun (by simp)
  · exact (by decide : ∀ u v, ∀ w ∈ selfLoop.edge u v, 0 ≤ w) u v w h
  · -- the empty walk is no heavier
    have hzero : Walk selfLoop.edge u v 0 := by
      rw [Subsingleton.elim v u]
      exact .nil u
    have := h.2 hzero
    omega
  · intro hagree
    obtain ⟨dist, pred, tables, row, hrun, hfw, hrow, heq⟩ := hagree
    have hzero : (dijkstra 2 (.listOrder _) selfLoop.graph 0).map (fun r => r.1.lookup 0) =
        .ok (some 0) := by rfl
    have hfive : (floydwarshall selfLoop.graph).map (fun r => (r.dist.lookup 0).map (·.lookup 0)) =
        .ok (some (some 5)) := by rfl
    rw [hrun] at hzero
    rw [hfw] at hfive
    have hdist : dist.lookup 0 = some 0 := Except.ok.inj hzero
    have hcell : (tables.dist.lookup 0).map (·.lookup 0) = some (some (5 : ℤ)) := Except.ok.inj hfive
    rw [hrow, Option.map_some, ← heq 0, hdist] at hcell
    exact absurd hcell (by decide)

end CodingForFun.GraphProblems
