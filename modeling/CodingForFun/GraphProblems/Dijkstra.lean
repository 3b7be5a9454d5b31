import CodingForFun.GraphProblems.Labels
import CodingForFun.Lib.ShortestPath

/-!
# `dijkstra`

A round of the `while` loop takes a vertex of least value out of the queue and relaxes its edges, as
`Settling.relax` does (`Inv.round`). A vertex that left the queue has a value no greater than those
of the queued vertices, so no edge improves it and it is never queued again: the queue shrinks in
every round. The loop ends with an empty queue, or with `popmin` raising when no queued vertex has a
value below 1000 (`dijkstra_outcome`); those vertices cannot be reached from `start`.
-/

namespace CodingForFun.GraphProblems

open Lib Dict

variable {V : Type} [DecidableEq V] {g : DiGraph V} {start u : V} {lab : V → Label V}
  {st : DijkstraState V}

/-- What the relaxation of the edges of `u` does to the label of `v`. -/
def lower (g : DiGraph V) (u : V) (du : ℤ) (v : V) (l : Label V) : Label V :=
  match g.edge u v with
  | some w => if du + w < l.value then ⟨du + w, some u, true⟩ else l
  | none => l

theorem lower_of_lt {du w : ℤ} {v : V} {l : Label V} (hedge : g.edge u v = some w)
    (hlt : du + w < l.value) : lower g u du v l = ⟨du + w, some u, true⟩ := by
  rw [lower, hedge]
  exact if_pos hlt

theorem lower_of_le {du : ℤ} {v : V} {l : Label V}
    (hle : ∀ w, g.edge u v = some w → l.value ≤ du + w) : lower g u du v l = l := by
  unfold lower
  cases hedge : g.edge u v with
  | none => rfl
  | some w => exact if_neg (not_lt.mpr (hle w hedge))

theorem dijkstraRelax_spec (hnn : NonnegEdges g.edge) (hu : u ∈ g.vertices) {row : Dict V Int}
    (hrow : ∀ v, row.lookup v = g.edge u v)
    (hrep : Represents g.vertices lab st.pqueue st.dist st.pred) :
    ∃ st', row.keys.foldlM (dijkstraRelax row u) st = .ok st' ∧
      Represents g.vertices (fun v => lower g u (lab u).value v (lab v)) st'.pqueue st'.dist st'.pred := by
  have hstep : ∀ v ∈ row.keys, ∀ (f : V → Label V) (s : DijkstraState V),
      Represents g.vertices f s.pqueue s.dist s.pred ∧ (f u).value = (lab u).value →
        ∃ s', dijkstraRelax row u s v = .ok s' ∧
          Represents g.vertices (Function.update f v (lower g u (lab u).value v (f v))) s'.pqueue
            s'.dist s'.pred ∧
          (Function.update f v (lower g u (lab u).value v (f v)) u).value = (lab u).value := by
    rintro v hv f s ⟨hs, hvalue⟩
    obtain ⟨w, hedge⟩ := (mem_row_keys hrow).mp hv
    have hvV := g.target_mem hedge
    have hget : row.getItem v = .ok w := getItem_of_lookup (by rw [hrow, hedge])
    simp only [dijkstraRelax, hget, hs.value.getItem hu, hs.value.getItem hvV, ok_bind, hvalue]
    by_cases hlt : (lab u).value + w < (f v).value
    · rw [if_pos hlt, lower_of_lt hedge hlt]
      refine ⟨_, rfl, hs.set hvV _ _, ?_⟩
      have hne : u ≠ v := by
        intro heq
        subst heq
        have := hnn u u w hedge
        omega
      rw [Function.update_of_ne hne, hvalue]
    · have hle : ∀ w', g.edge u v = some w' → (f v).value ≤ (lab u).value + w' := by
        intro w' hedge'
        rw [hedge] at hedge'
        obtain rfl := Option.some.inj hedge'
        exact not_lt.mp hlt
      rw [if_neg hlt, lower_of_le hle, Function.update_eq_self]
      exact ⟨s, rfl, hs, hvalue⟩
  obtain ⟨st', hrun, hrep', -⟩ := foldlM_update row.keys row.keys_nodup hstep lab st ⟨hrep, rfl⟩
  refine ⟨st', hrun, ?_⟩
  have heq : (fun v => lower g u (lab u).value v (lab v)) = fun v =>
      if v ∈ row.keys then lower g u (lab u).value v (lab v) else lab v := by
    funext v
    by_cases hv : v ∈ row.keys
    · rw [if_pos hv]
    · rw [if_neg hv, lower_of_le]
      intro w hedge
      exact absurd ((mem_row_keys hrow).mpr ⟨w, hedge⟩) hv
  rw [heq]
  exact hrep'

/-- The invariant of the `while` loop. -/
structure Inv (g : DiGraph V) (start : V) (lab : V → Label V) (st : DijkstraState V) : Prop where
  rep : Represents g.vertices lab st.pqueue st.dist st.pred
  settling : Settling g.edge start 1000 (settled g.vertices lab) (fun v => (lab v).value)
    fun v => (lab v).pred

theorem eq_of_notMem_vertices {S : Finset V} {f : V → ℤ} {p : V → Option V}
    (h : Settling g.edge start 1000 S f p) (hstart : start ∈ g.vertices) {v : V}
    (hv : v ∉ g.vertices) : f v = 1000 := by
  have hne : v ≠ start := fun heq => hv (heq ▸ hstart)
  rcases h.label v hne with ⟨hvalue, -⟩ | ⟨_, -, w, -, hedge, -⟩
  · exact hvalue
  · exact absurd (g.target_mem hedge) hv

theorem leave_label (lab : V → Label V) (u v : V) :
    (Function.update lab u (lab u).leave v).value = (lab v).value ∧
      (Function.update lab u (lab u).leave v).pred = (lab v).pred := by
  by_cases hv : v = u
  · subst hv
    rw [Function.update_self]
    exact ⟨rfl, rfl⟩
  · rw [Function.update_of_ne hv]
    exact ⟨rfl, rfl⟩

theorem settled_round (hset : Settling g.edge start 1000 (settled g.vertices lab)
      (fun v => (lab v).value) fun v => (lab v).pred)
    (hnn : NonnegEdges g.edge) {u : V} (hu : u ∈ queue g.vertices lab) :
    settled g.vertices (fun v => lower g u (lab u).value v
      (Function.update lab u (lab u).leave v)) = insert u (settled g.vertices lab) := by
  have huS := notMem_settled_of_mem_queue hu
  rw [← settled_leave (mem_queue.mp hu).1]
  ext v
  rw [mem_settled, mem_settled]
  by_cases hle : ∀ w, g.edge u v = some w → (lab v).value ≤ (lab u).value + w
  · rw [lower_of_le (by rwa [(leave_label lab u v).1])]
  · push Not at hle
    obtain ⟨w, hedge, hvw⟩ := hle
    -- an improved vertex is queued before and after
    have hvS : v ∉ settled g.vertices lab ∧ v ≠ u := by
      constructor
      · intro hvS
        have := hset.le_of_settled hnn huS (.inl hvS) hedge
        omega
      · intro heq
        have := hset.le_of_settled hnn huS (.inr heq) hedge
        omega
    have hqueued := mem_queue.mp (mem_queue_of_notMem_settled (g.target_mem hedge) hvS.1)
    rw [lower_of_lt hedge (by rwa [(leave_label lab u v).1]), Function.update_of_ne hvS.2, hqueued.2]

/-- A round settles a vertex, or raises when no queued vertex has a value below 1000. -/
theorem Inv.round (h : Inv g start lab st) (hnn : NonnegEdges g.edge) (hstart : start ∈ g.vertices)
    (ord : IterOrder V) :
    (∃ lab' st', dijkstraRound ord g.graph st = .ok st' ∧ Inv g start lab' st' ∧
        (queue g.vertices lab').card < (queue g.vertices lab).card) ∨
      (dijkstraRound ord g.graph st = .error .keyError ∧
        ∀ v ∈ queue g.vertices lab, 1000 ≤ (lab v).value) := by
  rcases popmin_spec h.rep.pqueue (ord.perm st.round _) with
    ⟨u, pqueue', hpop, hu, hlt, hmin, htab⟩ | ⟨hpop, hall⟩
  · left
    have huV := (mem_queue.mp hu).1
    have huS := notMem_settled_of_mem_queue hu
    have hset := h.settling
    have hleave := leave_label lab u
    obtain ⟨row, hrow, hedges⟩ := g.row huV
    let st₁ : DijkstraState V := ⟨pqueue', st.dist, st.pred, st.round + 1⟩
    have hrep : Represents g.vertices (Function.update lab u (lab u).leave) st₁.pqueue st₁.dist
      st₁.pred := h.rep.pop u htab
    obtain ⟨st', hrun, hrep'⟩ := dijkstraRelax_spec hnn huV hedges hrep
    rw [(hleave u).1] at hrep'
    have hleast : ∀ v, v ∉ settled g.vertices lab → (lab u).value ≤ (lab v).value := by
      intro v hv
      by_cases hvV : v ∈ g.vertices
      · exact hmin v (mem_queue_of_notMem_settled hvV hv)
      · rw [eq_of_notMem_vertices hset hstart hvV]
        exact hlt.le
    have hsettled := settled_round hset hnn hu
    refine ⟨_, st', ?_, ⟨hrep', ?_⟩, ?_⟩
    · simp only [dijkstraRound, hpop, ok_bind, hrow]
      exact hrun
    · rw [hsettled]
      refine hset.relax hnn huS hleast hlt (fun v w hedge hvw => ?_) (fun v hle => ?_)
      · rw [lower_of_lt hedge (by rwa [(hleave v).1])]
        exact ⟨rfl, rfl⟩
      · rw [lower_of_le (by rwa [(hleave v).1])]
        exact hleave v
    · rw [queue_eq_sdiff, queue_eq_sdiff, hsettled]
      refine Finset.card_lt_card (Finset.ssubset_iff_of_subset ?_ |>.mpr ⟨u, ?_, ?_⟩)
      · exact Finset.sdiff_subset_sdiff (Finset.Subset.refl _) (Finset.subset_insert _ _)
      · exact Finset.mem_sdiff.mpr ⟨huV, huS⟩
      · exact fun hmem => (Finset.mem_sdiff.mp hmem).2 (Finset.mem_insert_self u _)
  · right
    refine ⟨?_, hall⟩
    simp only [dijkstraRound, hpop, error_bind]

theorem dijkstraInit_spec (hstart : start ∈ g.vertices) :
    ∃ st, dijkstraInit g.graph start = .ok st ∧ Inv g start (initialLabel start) st := by
  obtain ⟨pqueue, hpqueue, hrep⟩ := represents_initial g hstart
  refine ⟨_, by rw [dijkstraInit, hpqueue, ok_bind, pure_eq_ok], hrep, ?_⟩
  rw [settled_initialLabel]
  exact Settling.init (by decide)

/-- How the `while` loop ends: with an empty queue, or by raising with vertices queued that have no
value below 1000. -/
def LoopEnd (g : DiGraph V) (start : V) (r : Except PyError (DijkstraState V)) : Prop :=
  (∃ st lab, r = .ok st ∧ Inv g start lab st ∧ queue g.vertices lab = ∅) ∨
    (r = .error .keyError ∧ ∃ st lab, Inv g start lab st ∧ (queue g.vertices lab).Nonempty ∧
      ∀ v ∈ queue g.vertices lab, 1000 ≤ (lab v).value)

theorem Inv.loop (h : Inv g start lab st) (hnn : NonnegEdges g.edge) (hstart : start ∈ g.vertices)
    (ord : IterOrder V) {fuel : ℕ} (hfuel : (queue g.vertices lab).card < fuel) :
    LoopEnd g start (whileM .unbounded dijkstraCond (dijkstraRound ord g.graph) fuel st) := by
  refine whileM_rule (fun st => ∃ lab, Inv g start lab st) (fun st => st.pqueue.keys.length)
    (LoopEnd g start) ?_ fuel st ⟨lab, h⟩ (by rwa [h.rep.pqueue.length_keys])
  rintro st ⟨lab, h⟩
  have hcond := h.rep.pqueue.truthy_iff
  by_cases hne : (queue g.vertices lab).Nonempty
  · have htrue : dijkstraCond st = .ok true := by rw [dijkstraCond, hcond.mpr hne, pure_eq_ok]
    rcases h.round hnn hstart ord with ⟨lab', st', hround, h', hlt⟩ | ⟨hround, hall⟩
    · refine .next st' htrue hround ⟨lab', h'⟩ ?_
      rwa [h.rep.pqueue.length_keys, h'.rep.pqueue.length_keys]
    · exact .fault _ htrue hround (.inr ⟨rfl, st, lab, h, hne, hall⟩)
  · have hfalse : dijkstraCond st = .ok false := by
      rw [dijkstraCond, Bool.eq_false_of_not_eq_true fun htrue => hne (hcond.mp htrue), pure_eq_ok]
    exact .exit hfalse (.inl ⟨st, lab, rfl, h, Finset.not_nonempty_iff_eq_empty.mp hne⟩)

/-- How `dijkstra` ends: with all vertices settled, or by raising with vertices left that have no
value below 1000. -/
theorem dijkstra_outcome (hnn : NonnegEdges g.edge) (hstart : start ∈ g.vertices)
    (ord : IterOrder V) {fuel : ℕ} (hfuel : g.vertices.card < fuel) :
    (∃ dist pred f p, dijkstra fuel ord g.graph start = .ok (dist, pred) ∧
        Tabulates dist g.vertices f ∧ Tabulates pred g.vertices p ∧
        Settling g.edge start 1000 g.vertices f p) ∨
      (dijkstra fuel ord g.graph start = .error .keyError ∧ ∃ S f p, S ⊂ g.vertices ∧
        Settling g.edge start 1000 S f p ∧ ∀ v, v ∉ S → f v = 1000) := by
  obtain ⟨st₀, hinit, h₀⟩ := dijkstraInit_spec hstart
  have hsub : ∀ lab, settled g.vertices lab ⊆ g.vertices := fun lab => Finset.filter_subset _ _
  have hcard : (queue g.vertices (initialLabel start)).card < fuel :=
    (Finset.card_le_card (Finset.filter_subset _ _)).trans_lt hfuel
  rcases h₀.loop hnn hstart ord hcard with
    ⟨st, lab, hrun, h, hempty⟩ | ⟨hrun, st, lab, h, ⟨v, hv⟩, hall⟩
  · refine .inl ⟨st.dist, st.pred, _, _, ?_, h.rep.value, h.rep.pred, ?_⟩
    · rw [dijkstra, hinit, ok_bind, hrun, ok_bind, pure_eq_ok]
    · rw [queue_eq_sdiff, Finset.sdiff_eq_empty_iff_subset] at hempty
      have hset := h.settling
      rwa [Finset.Subset.antisymm (hsub lab) hempty] at hset
  · refine .inr ⟨?_, settled g.vertices lab, _, _, ?_, h.settling, fun a ha => ?_⟩
    · rw [dijkstra, hinit, ok_bind, hrun, error_bind]
    · exact (Finset.ssubset_iff_of_subset (hsub lab)).mpr
        ⟨v, (mem_queue.mp hv).1, notMem_settled_of_mem_queue hv⟩
    · by_cases haV : a ∈ g.vertices
      · exact le_antisymm (h.settling.le_inf a) (hall a (mem_queue_of_notMem_settled haV ha))
      · exact eq_of_notMem_vertices h.settling hstart haV

theorem not_walk_of_rest (hnn : NonnegEdges g.edge) {S : Finset V} {f : V → ℤ} {p : V → Option V}
    (hset : Settling g.edge start 1000 S f p) (hrest : ∀ v, v ∉ S → f v = 1000) {v : V} (hv : v ∉ S)
    {d : ℤ} (hd : d < 1000) : ¬ Walk g.edge start v d := by
  intro hwalk
  have hne : S.Nonempty := by
    by_contra hempty
    have hzero := hrest start fun hmem => hempty ⟨start, hmem⟩
    rw [hset.start_dist] at hzero
    exact absurd hzero (by decide)
  have hle := hset.le_walk hnn hne hrest hwalk
  rw [hrest v hv] at hle
  omega

theorem isDistance_of_settled (hnn : NonnegEdges g.edge) (hstart : start ∈ g.vertices) {f : V → ℤ}
    {p : V → Option V} (hset : Settling g.edge start 1000 g.vertices f p) {v : V}
    (hv : v ∈ g.vertices) : IsDistance g.edge start v (f v) := by
  refine ⟨(hset.path v hv).walk, fun d hd => ?_⟩
  exact hset.le_walk hnn ⟨start, hstart⟩ (fun a ha => eq_of_notMem_vertices hset hstart ha) hd

/-- **`dijkstra` is right.** -/
theorem dijkstra_correct (g : DiGraph V) (hnn : NonnegEdges g.edge) {start : V}
    (hstart : start ∈ g.vertices) (hnear : ∀ v ∈ g.vertices, ∃ d < 1000, Walk g.edge start v d)
    (ord : IterOrder V) {fuel : ℕ} (hfuel : g.vertices.card < fuel) :
    ∃ dist pred f p, dijkstra fuel ord g.graph start = .ok (dist, pred) ∧
      Tabulates dist g.vertices f ∧ Tabulates pred g.vertices p ∧ p start = none ∧
      ∀ v ∈ g.vertices, IsDistance g.edge start v (f v) ∧ PredPath g.edge p start v (f v) := by
  rcases dijkstra_outcome hnn hstart ord hfuel with
    ⟨dist, pred, f, p, hrun, hdist, hpred, hset⟩ | ⟨-, S, f, p, hS, hset, hrest⟩
  · exact ⟨dist, pred, f, p, hrun, hdist, hpred, hset.start_pred, fun v hv =>
      ⟨isDistance_of_settled hnn hstart hset hv, hset.path v hv⟩⟩
  · obtain ⟨v, hv, hvS⟩ := Finset.exists_of_ssubset hS
    obtain ⟨d, hd, hwalk⟩ := hnear v hv
    exact absurd hwalk (not_walk_of_rest hnn hset hrest hvS hd)

theorem exampleGraph_nonneg : NonnegEdges exampleGraph.edge := fun u v =>
  (by decide : ∀ u v, ∀ w ∈ exampleGraph.edge u v, 0 ≤ w) u v

theorem exampleGraph_near : ∀ v ∈ exampleGraph.vertices, ∃ d < 1000, Walk exampleGraph.edge 0 v d := by
  have h1 : Walk exampleGraph.edge 0 1 6 := .of_edge (by decide)
  have h2 : Walk exampleGraph.edge 0 2 8 := .of_edge (by decide)
  have h3 : Walk exampleGraph.edge 0 3 (8 + 9) := h2.snoc (by decide)
  have h4 : Walk exampleGraph.edge 0 4 (6 + 11) := h1.snoc (by decide)
  have h5 : Walk exampleGraph.edge 0 5 (6 + 11 + 3) := h4.snoc (by decide)
  intro v _
  match v with
  | 0 => exact ⟨0, by decide, .nil 0⟩
  | 1 => exact ⟨_, by decide, h1⟩
  | 2 => exact ⟨_, by decide, h2⟩
  | 3 => exact ⟨_, by decide, h3⟩
  | 4 => exact ⟨_, by decide, h4⟩
  | 5 => exact ⟨_, by decide, h5⟩

theorem dijkstra_correct_exampleGraph :
    ∃ dist pred f p, dijkstra 7 (.listOrder _) exampleGraph.graph 0 = .ok (dist, pred) ∧
      Tabulates dist exampleGraph.vertices f ∧ Tabulates pred exampleGraph.vertices p ∧
      p 0 = none ∧ ∀ v ∈ exampleGraph.vertices,
        IsDistance exampleGraph.edge 0 v (f v) ∧ PredPath exampleGraph.edge p 0 v (f v) :=
  dijkstra_correct exampleGraph exampleGraph_nonneg (by decide) exampleGraph_near (.listOrder _)
    (by decide)

end CodingForFun.GraphProblems
