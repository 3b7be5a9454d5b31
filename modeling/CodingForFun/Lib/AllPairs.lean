import CodingForFun.Lib.ShortestPath

/-!
# Shortest paths between all pairs

The Floyd–Warshall recurrence on functions. A phase lets paths go through one more vertex `t`
(`throughDist`, `throughPred`). `AllPairs` is the invariant of the distances: they are weights of
walks where they are below `inf`, and closed under going through a vertex of `T`
(`AllPairs.closed`). A phase closes the distances at `t` and keeps them closed at the vertices done
before, so after all phases they satisfy the triangle inequality and are below every walk
(`AllPairs.le_walk`). `LastEdge` is what the predecessors say meanwhile.

The diagonal starts at the weight of a self-loop where there is one, so the distance from a vertex
to itself is that of a closed walk with at least one edge then, and not 0 (`AllPairs.diag_iff`).
-/

namespace CodingForFun.Lib

variable {V : Type} {edge : V → V → Option ℤ} {inf : ℤ} {D : V → V → ℤ} {P : V → V → Option V}
  {T : Set V} {t u v : V} {d : ℤ}

/-- The distances when paths may go through `t` as well. -/
def throughDist (t : V) (D : V → V → ℤ) (u v : V) : ℤ :=
  if D u t + D t v < D u v then D u t + D t v else D u v

/-- The predecessors when paths may go through `t` as well. -/
def throughPred (t : V) (D : V → V → ℤ) (P : V → V → Option V) (u v : V) : Option V :=
  if D u t + D t v < D u v then P t v else P u v

theorem throughDist_le : throughDist t D u v ≤ D u v := by
  unfold throughDist
  split <;> omega

theorem throughDist_le_through : throughDist t D u v ≤ D u t + D t v := by
  unfold throughDist
  split <;> omega

theorem throughDist_cases (t : V) (D : V → V → ℤ) (u v : V) :
    throughDist t D u v = D u v ∨
      (throughDist t D u v = D u t + D t v ∧ D u t + D t v < D u v) := by
  by_cases h : D u t + D t v < D u v
  · exact .inr ⟨if_pos h, h⟩
  · exact .inl (if_neg h)

theorem throughDist_left (h : 0 ≤ D t t) : throughDist t D u t = D u t := by
  rw [throughDist, if_neg (by omega)]

theorem throughDist_right (h : 0 ≤ D t t) : throughDist t D t v = D t v := by
  rw [throughDist, if_neg (by omega)]

/-- The distances when paths may go through the vertices of `T`. -/
structure AllPairs (edge : V → V → Option ℤ) (inf : ℤ) (T : Set V) (D : V → V → ℤ) : Prop where
  nonneg : ∀ u v, 0 ≤ D u v
  le_edge : ∀ u v w, edge u v = some w → D u v ≤ w
  diag : ∀ u, edge u u = none → D u u = 0
  sound : ∀ u v, D u v < inf → ProperWalk edge u v (D u v) ∨ (u = v ∧ edge u u = none)
  closed : ∀ t ∈ T, ∀ u v, D u v ≤ D u t + D t v

namespace AllPairs

theorem walk (h : AllPairs edge inf T D) (huv : D u v < inf) : Walk edge u v (D u v) := by
  rcases h.sound u v huv with hwalk | ⟨rfl, hloop⟩
  · exact hwalk.walk
  · rw [h.diag u hloop]
    exact .nil u

theorem through (h : AllPairs edge inf T D) (t : V) :
    AllPairs edge inf (insert t T) (throughDist t D) where
  nonneg u v := by
    have := h.nonneg u t
    have := h.nonneg t v
    have := h.nonneg u v
    rcases throughDist_cases t D u v with heq | ⟨heq, -⟩ <;> omega
  le_edge u v w hedge := throughDist_le.trans (h.le_edge u v w hedge)
  diag u hloop := by
    have := h.nonneg u t
    have := h.nonneg t u
    have := h.diag u hloop
    rcases throughDist_cases t D u u with heq | ⟨heq, hless⟩ <;> omega
  sound u v hlt := by
    rcases throughDist_cases t D u v with heq | ⟨heq, hless⟩
    · rw [heq] at hlt ⊢
      exact h.sound u v hlt
    · -- a walk to `t` and a walk on from there, of which the second has an edge
      have hut := h.nonneg u t
      have htv := h.nonneg t v
      rw [heq] at hlt ⊢
      rcases h.sound t v (by omega) with ⟨b, d, w, hwalk, hedge, heq'⟩ | ⟨rfl, -⟩
      · refine .inl ⟨b, D u t + d, w, (h.walk (by omega)).append hwalk, hedge, ?_⟩
        rw [heq', add_assoc]
      · omega
  closed s hs u v := by
    have htt := h.nonneg t t
    rcases Set.mem_insert_iff.mp hs with rfl | hs
    · rw [throughDist_left htt, throughDist_right htt]
      exact throughDist_le_through
    · -- the four combinations of a walk to `s` and a walk from `s`
      have huv := h.closed s hs u v
      have htv := h.closed s hs t v
      have hut := h.closed s hs u t
      have hts := h.nonneg t s
      have hst := h.nonneg s t
      have hle : throughDist t D u v ≤ D u v := throughDist_le
      have hle' : throughDist t D u v ≤ D u t + D t v := throughDist_le_through
      rcases throughDist_cases t D u s with hus | ⟨hus, -⟩ <;>
        rcases throughDist_cases t D s v with hsv | ⟨hsv, -⟩ <;> omega

theorem le_walk (h : AllPairs edge inf T D) (hT : ∀ a b w, edge a b = some w → a ∈ T)
    (hwalk : ProperWalk edge u v d) : D u v ≤ d := by
  obtain ⟨b, d', w, hwalk, hedge, rfl⟩ := hwalk
  have hall : (b = u ∧ d' = 0) ∨ D u b ≤ d' := by
    clear hedge
    induction hwalk with
    | nil => exact .inl ⟨rfl, rfl⟩
    | snoc _ hedge ih =>
      rename_i b c d w _
      have hbc := h.le_edge b c w hedge
      rcases ih with ⟨rfl, rfl⟩ | hle
      · exact .inr (by omega)
      · have := h.closed b (hT b c w hedge) u c
        exact .inr (by omega)
  have hbv := h.le_edge b v w hedge
  rcases hall with ⟨rfl, rfl⟩ | hle
  · omega
  · have := h.closed b (hT b v w hedge) u v
    omega

theorem eq_distance (h : AllPairs edge inf T D) (hT : ∀ a b w, edge a b = some w → a ∈ T)
    (hd : IsDistance edge u v d) (hlt : d < inf) (huv : u ≠ v) : D u v = d := by
  have hle : D u v ≤ d := h.le_walk hT (hd.1.proper huv)
  exact le_antisymm hle (hd.2 (h.walk (by omega)))

/-- After all phases the diagonal is 0 unless there is a self-loop and no closed walk is free. -/
theorem diag_iff (h : AllPairs edge inf T D) (hT : ∀ a b w, edge a b = some w → a ∈ T)
    (hinf : 0 < inf) : D u u = 0 ↔ edge u u = none ∨ ProperWalk edge u u 0 := by
  constructor
  · intro hzero
    rcases h.sound u u (by omega) with hwalk | ⟨-, hloop⟩
    · exact .inr (hzero ▸ hwalk)
    · exact .inl hloop
  · rintro (hloop | hwalk)
    · exact h.diag u hloop
    · exact le_antisymm (h.le_walk hT hwalk) (h.nonneg u u)

end AllPairs

/-- What the predecessors say: the vertex before the last edge of a path, if there is a path. -/
structure LastEdge (edge : V → V → Option ℤ) (inf : ℤ) (D : V → V → ℤ) (P : V → V → Option V) :
    Prop where
  le_inf : ∀ u v, D u v ≤ inf
  diag : ∀ u, D u u = 0 ∧ P u u = none
  none : ∀ u v, D u v = inf → P u v = none
  some : ∀ u v, u ≠ v → D u v < inf →
    ∃ p w, P u v = some p ∧ edge p v = some w ∧ D u p + w ≤ D u v

namespace LastEdge

theorem through (h : LastEdge edge inf D P) (hnn : ∀ u v, 0 ≤ D u v) (t : V) :
    LastEdge edge inf (throughDist t D) (throughPred t D P) where
  le_inf u v := throughDist_le.trans (h.le_inf u v)
  diag u := by
    have hut := hnn u t
    have htu := hnn t u
    have hdiag := h.diag u
    rw [throughDist, throughPred, if_neg (by omega), if_neg (by omega)]
    exact hdiag
  none u v hinf := by
    have hle := h.le_inf u v
    unfold throughDist at hinf
    unfold throughPred
    split at hinf
    · omega
    · rename_i hkeep
      rw [if_neg hkeep]
      exact h.none u v hinf
  some u v huv hlt := by
    unfold throughDist at hlt
    unfold throughPred
    rw [throughDist.eq_def t D u v]
    split at hlt
    · rename_i hless
      rw [if_pos hless, if_pos hless]
      have hut := hnn u t
      by_cases htv : t = v
      · subst htv
        have := h.diag t
        omega
      · obtain ⟨p, w, hp, hedge, hle⟩ := h.some t v htv (by omega)
        refine ⟨p, w, hp, hedge, ?_⟩
        have : throughDist t D u p ≤ D u t + D t p := throughDist_le_through
        omega
    · rename_i hkeep
      rw [if_neg hkeep, if_neg hkeep]
      obtain ⟨p, w, hp, hedge, hle⟩ := h.some u v huv hlt
      have : throughDist t D u p ≤ D u p := throughDist_le
      exact ⟨p, w, hp, hedge, by omega⟩

theorem tight (h : LastEdge edge inf D P) (hall : AllPairs edge inf T D)
    (hT : ∀ a b w, edge a b = .some w → a ∈ T) (huv : u ≠ v) (hlt : D u v < inf) :
    ∃ p w, P u v = .some p ∧ edge p v = .some w ∧ D u v = D u p + w := by
  obtain ⟨p, w, hp, hedge, hle⟩ := h.some u v huv hlt
  refine ⟨p, w, hp, hedge, le_antisymm ?_ hle⟩
  have hclosed := hall.closed p (hT p v w hedge) u v
  have := hall.le_edge p v w hedge
  omega

end LastEdge

end CodingForFun.Lib
