import CodingForFun.GraphProblems.Labels
import CodingForFun.Lib.TreeGrowth

/-!
# `prim`

In a connected graph `popmin` always finds a vertex that knows an edge from the vertices explored so
far, and a lightest such edge leaves the explored tree promising (`PrimInv.round`). So the loop ends
with every vertex explored, and the predecessors are a minimum spanning tree (`prim_correct`).
-/

namespace CodingForFun.GraphProblems

open Lib Dict

variable {V : Type} [DecidableEq V]

/-- An undirected graph with edges lighter than 1000. -/
structure UGraph (V : Type) [DecidableEq V] extends DiGraph V where
  symm : ∀ u v, GraphProblems.edge graph u v = GraphProblems.edge graph v u
  light : ∀ u v w, GraphProblems.edge graph u v = some w → w < 1000

namespace UGraph

variable (g : UGraph V)

theorem edge_symm (u v : V) : g.edge u v = g.edge v u := g.symm u v

/-- The graph of the dictionary; an entry of a vertex for itself is no edge of it. -/
def toGraph : SimpleGraph V where
  Adj u v := u ≠ v ∧ ∃ w, g.edge u v = some w
  symm := ⟨fun u v h => ⟨h.1.symm, by rw [g.edge_symm]; exact h.2⟩⟩
  loopless := ⟨fun _ h => h.1 rfl⟩

/-- The weight of an edge. -/
def weight : Sym2 V → ℤ :=
  Sym2.lift ⟨fun u v => (g.edge u v).getD 0, fun u v => congrArg (·.getD 0) (g.edge_symm u v)⟩

theorem weight_eq {u v : V} {w : ℤ} (h : g.edge u v = some w) : g.weight s(u, v) = w := by
  show (g.edge u v).getD 0 = w
  rw [h, Option.getD_some]

theorem weight_lt {u v : V} (h : g.toGraph.Adj u v) : g.weight s(u, v) < 1000 := by
  obtain ⟨-, w, hedge⟩ := h
  rw [g.weight_eq hedge]
  exact g.light u v w hedge

theorem adj_mem {u v : V} (h : g.toGraph.Adj u v) : u ∈ g.vertices := by
  obtain ⟨-, w, hedge⟩ := h
  exact g.source_mem hedge

/-- Every vertex can be reached from every other. -/
def Connected : Prop := ∀ u ∈ g.vertices, ∀ v ∈ g.vertices, g.toGraph.Reachable u v

end UGraph

variable {g : UGraph V} {root u : V} {lab : V → Label V} {st : PrimState V}

/-- What the edge from `u` does to the label of `v`. -/
def lowerKey (g : UGraph V) (u v : V) (l : Label V) : Label V :=
  match g.edge u v with
  | some w => if l.queued = true ∧ w < l.value then ⟨w, some u, true⟩ else l
  | none => l

theorem lowerKey_of_lt {v : V} {l : Label V} {w : ℤ} (hedge : g.edge u v = some w)
    (hqueued : l.queued = true) (hlt : w < l.value) : lowerKey g u v l = ⟨w, some u, true⟩ := by
  rw [lowerKey, hedge]
  exact if_pos ⟨hqueued, hlt⟩

theorem lowerKey_of_not {v : V} {l : Label V}
    (h : ∀ w, g.edge u v = some w → l.queued = true → l.value ≤ w) : lowerKey g u v l = l := by
  unfold lowerKey
  cases hedge : g.edge u v with
  | none => rfl
  | some w => exact if_neg fun hlt => absurd hlt.2 (not_lt.mpr (h w hedge hlt.1))

theorem lowerKey_queued (g : UGraph V) (u v : V) (l : Label V) :
    (lowerKey g u v l).queued = l.queued := by
  by_cases h : ∀ w, g.edge u v = some w → l.queued = true → l.value ≤ w
  · rw [lowerKey_of_not h]
  · push Not at h
    obtain ⟨w, hedge, hqueued, hlt⟩ := h
    rw [lowerKey_of_lt hedge hqueued hlt, hqueued]

theorem primRelax_spec {row : Dict V Int} (hrow : ∀ v, row.lookup v = g.edge u v)
    (hrep : Represents g.vertices lab st.pqueue st.key st.pred) :
    ∃ st', row.keys.foldlM (primRelax row u) st = .ok st' ∧
      Represents g.vertices (fun v => lowerKey g u v (lab v)) st'.pqueue st'.key st'.pred := by
  have hstep : ∀ v ∈ row.keys, ∀ (f : V → Label V) (s : PrimState V),
      Represents g.vertices f s.pqueue s.key s.pred →
        ∃ s', primRelax row u s v = .ok s' ∧
          Represents g.vertices (Function.update f v (lowerKey g u v (f v))) s'.pqueue s'.key
            s'.pred := by
    intro v hv f s hs
    obtain ⟨w, hedge⟩ := (mem_row_keys hrow).mp hv
    have hvV := g.target_mem hedge
    have hget : row.getItem v = .ok w := getItem_of_lookup (by rw [hrow, hedge])
    have hkeep : (∀ w', g.edge u v = some w' → (f v).queued = true → (f v).value ≤ w') →
        Represents g.vertices (Function.update f v (lowerKey g u v (f v))) s.pqueue s.key s.pred := by
      intro hnot
      rwa [lowerKey_of_not hnot, Function.update_eq_self]
    have hedge' : ∀ w', g.edge u v = some w' → w' = w := by
      intro w' h
      rw [hedge] at h
      exact (Option.some.inj h).symm
    unfold primRelax
    by_cases hqueue : v ∈ s.pqueue
    · have hqueued : (f v).queued = true := (mem_queue.mp (hs.pqueue.mem_iff.mp hqueue)).2
      rw [if_pos hqueue, hget, ok_bind, hs.value.getItem hvV, ok_bind]
      by_cases hlt : w < (f v).value
      · rw [if_pos hlt, lowerKey_of_lt hedge hqueued hlt]
        exact ⟨_, rfl, hs.set hvV _ _⟩
      · rw [if_neg hlt]
        exact ⟨s, rfl, hkeep fun w' h _ => by rw [hedge' w' h]; exact not_lt.mp hlt⟩
    · rw [if_neg hqueue]
      refine ⟨s, rfl, hkeep fun w' _ hqueued => ?_⟩
      exact absurd (hs.pqueue.mem_iff.mpr (mem_queue.mpr ⟨hvV, hqueued⟩)) hqueue
  obtain ⟨st', hrun, hrep'⟩ := foldlM_update row.keys row.keys_nodup hstep lab st hrep
  refine ⟨st', hrun, ?_⟩
  have heq : (fun v => lowerKey g u v (lab v)) = fun v =>
      if v ∈ row.keys then lowerKey g u v (lab v) else lab v := by
    funext v
    by_cases hv : v ∈ row.keys
    · rw [if_pos hv]
    · rw [if_neg hv, lowerKey_of_not]
      intro w hedge
      exact absurd ((mem_row_keys hrow).mpr ⟨w, hedge⟩) hv
  rw [heq]
  exact hrep'

/-- The explored vertices `S` carry a promising tree. -/
def Explored (g : UGraph V) (root : V) (S : Finset V) (lab : V → Label V) : Prop :=
  ∃ par : V → V, (∀ v ∈ S, v ≠ root → (lab v).pred = some (par v)) ∧
    Growth g.toGraph root S par ∧
    Promising g.vertices g.toGraph g.weight (treeEdges root par S)

/-- The invariant of the `while` loop, with the explored vertices `S`. -/
structure PrimInv (g : UGraph V) (root : V) (S : Finset V) (lab : V → Label V) (st : PrimState V) :
    Prop where
  rep : Represents g.vertices lab st.pqueue st.key st.pred
  settled_eq : settled g.vertices lab = S
  root_pred : (lab root).pred = none
  root_first : root ∉ S → S = ∅ ∧ (lab root).value = 0
  frontier : ∀ v, v ∉ S → v ≠ root →
    FrontierAt g.toGraph g.weight 1000 S v (lab v).pred (lab v).value
  tree : S.Nonempty → Explored g root S lab

namespace PrimInv

variable {S : Finset V}

theorem exists_lt (h : PrimInv g root S lab st) (hconn : g.Connected) (hroot : root ∈ g.vertices)
    (hne : (queue g.vertices lab).Nonempty) : ∃ v ∈ queue g.vertices lab, (lab v).value < 1000 := by
  by_cases hrootS : root ∈ S
  · -- an edge crosses from the explored vertices to the queued ones
    obtain ⟨v, hv⟩ := hne
    have hvS := notMem_settled_of_mem_queue hv
    rw [h.settled_eq] at hvS
    obtain ⟨q⟩ := hconn root hroot v (mem_queue.mp hv).1
    obtain ⟨d, -, hin, hout⟩ := q.exists_boundary_dart (S : Set V) hrootS hvS
    have hfront := h.frontier d.snd hout fun heq => hout (heq ▸ hrootS)
    have hle := hfront.key_le hin d.adj
    have hlt := g.weight_lt d.adj
    refine ⟨d.snd, mem_queue_of_notMem_settled (g.adj_mem d.adj.symm) ?_, by omega⟩
    rw [h.settled_eq]
    exact hout
  · have hvalue := (h.root_first hrootS).2
    refine ⟨root, mem_queue_of_notMem_settled hroot ?_, by omega⟩
    rwa [h.settled_eq]

theorem root_mem_insert (h : PrimInv g root S lab st) (huS : u ∉ S) (hlt : (lab u).value < 1000) :
    root ∈ insert u S := by
  by_cases hrootS : root ∈ S
  · exact Finset.mem_insert_of_mem hrootS
  · have huroot : u = root := by
      by_contra hne
      obtain ⟨p, hp, -⟩ := (h.frontier u huS hne).of_ne_inf hlt.ne
      rw [(h.root_first hrootS).1] at hp
      exact absurd hp (Finset.notMem_empty p)
    rw [huroot]
    exact Finset.mem_insert_self root S

theorem frontier_insert (h : PrimInv g root S lab st) {v : V} (hv : v ∉ insert u S)
    (hvroot : v ≠ root) :
    FrontierAt g.toGraph g.weight 1000 (insert u S) v (lowerKey g u v (lab v)).pred
      (lowerKey g u v (lab v)).value := by
  have hvu : u ≠ v := fun heq => hv (heq ▸ Finset.mem_insert_self u S)
  have hvS : v ∉ S := fun hmem => hv (Finset.mem_insert_of_mem hmem)
  have hold := h.frontier v hvS hvroot
  cases hedge : g.edge u v with
  | none =>
    rw [lowerKey_of_not fun w hw => by rw [hedge] at hw; exact absurd hw (by simp)]
    apply hold.of_not_adj
    rintro ⟨-, w, hw⟩
    rw [hedge] at hw
    exact absurd hw (by simp)
  | some w =>
    have hadj : g.toGraph.Adj u v := ⟨hvu, w, hedge⟩
    rw [← h.settled_eq] at hvS
    have hqueued := (mem_queue.mp (mem_queue_of_notMem_settled (g.target_mem hedge) hvS)).2
    by_cases hlt : w < (lab v).value
    · rw [lowerKey_of_lt hedge hqueued hlt]
      rw [← g.weight_eq hedge] at hlt ⊢
      exact hold.relax hadj hlt
    · rw [lowerKey_of_not fun w' hw' _ => by
        rw [hedge] at hw'
        obtain rfl := Option.some.inj hw'
        exact not_lt.mp hlt]
      apply hold.of_le g.weight_lt
      rw [g.weight_eq hedge]
      exact not_lt.mp hlt

theorem tree_insert (h : PrimInv g root S lab st) (hu : u ∈ g.vertices) (huS : u ∉ S)
    (hlt : (lab u).value < 1000) (hleast : ∀ v ∈ g.vertices, v ∉ S → (lab u).value ≤ (lab v).value)
    {lab' : V → Label V} (hkeep : ∀ v ∈ insert u S, (lab' v).pred = (lab v).pred) :
    Explored g root (insert u S) lab' := by
  by_cases hrootS : root ∈ S
  · obtain ⟨par, hpar, hgrowth, hprom⟩ := h.tree ⟨root, hrootS⟩
    have huroot : u ≠ root := fun heq => huS (heq ▸ hrootS)
    obtain ⟨p, hp, hpred, hadj, hkey⟩ := (h.frontier u huS huroot).of_ne_inf hlt.ne
    have hfront : ∀ v ∈ g.vertices, v ∉ S →
        FrontierAt g.toGraph g.weight 1000 S v (lab v).pred (lab v).value := fun v _ hv =>
      h.frontier v hv fun heq => hv (heq ▸ hrootS)
    have hlight := not_reachable_of_least (fun a b hab => g.adj_mem hab) hfront huS hleast
    rw [hkey] at hlight
    refine ⟨Function.update par u p, fun v hv hvroot => ?_, hgrowth.insert huS hp hadj, ?_⟩
    · rw [hkeep v hv]
      rcases Finset.mem_insert.mp hv with rfl | hv
      · rw [Function.update_self, hpred]
      · have hvu : v ≠ u := fun heq => huS (heq ▸ hv)
        rw [Function.update_of_ne hvu, hpar v hv hvroot]
    · have hS : S ⊆ g.vertices := by
        rw [← h.settled_eq]
        exact Finset.filter_subset _ _
      exact hgrowth.promising_insert hprom hS hu huS hp hadj hlight
  · have hS := (h.root_first hrootS).1
    have hroot := h.root_mem_insert huS hlt
    rw [hS, insert_empty_eq, Finset.mem_singleton] at hroot
    subst hroot
    rw [hS, insert_empty_eq]
    refine ⟨id, fun v hv hne => absurd (Finset.mem_singleton.mp hv) hne, Growth.start .., ?_⟩
    rw [treeEdges_singleton]
    exact promising_empty

theorem round (h : PrimInv g root S lab st) (hconn : g.Connected) (hroot : root ∈ g.vertices)
    (ord : IterOrder V) (hne : (queue g.vertices lab).Nonempty) :
    ∃ u lab' st', u ∈ g.vertices ∧ u ∉ S ∧ primRound ord g.graph st = .ok st' ∧
      PrimInv g root (insert u S) lab' st' := by
  rcases popmin_spec h.rep.pqueue (ord.perm st.round _) with
    ⟨u, pqueue', hpop, hu, hlt, hmin, htab⟩ | ⟨-, hall⟩
  · have huV := (mem_queue.mp hu).1
    have huS := notMem_settled_of_mem_queue hu
    rw [h.settled_eq] at huS
    have hleast : ∀ v ∈ g.vertices, v ∉ S → (lab u).value ≤ (lab v).value := by
      intro v hvV hv
      rw [← h.settled_eq] at hv
      exact hmin v (mem_queue_of_notMem_settled hvV hv)
    obtain ⟨row, hrow, hedges⟩ := g.row huV
    let st₁ : PrimState V := ⟨pqueue', st.key, st.pred, st.round + 1⟩
    have hrep : Represents g.vertices (Function.update lab u (lab u).leave) st₁.pqueue st₁.key
      st₁.pred := h.rep.pop u htab
    obtain ⟨st', hrun, hrep'⟩ := primRelax_spec hedges hrep
    have hsettled : settled g.vertices (Function.update lab u (lab u).leave) = insert u S := by
      rw [settled_leave huV, h.settled_eq]
    have hleave : (Function.update lab u (lab u).leave u).pred = (lab u).pred := by
      rw [Function.update_self]
      rfl
    have hother : ∀ v, v ≠ u → Function.update lab u (lab u).leave v = lab v :=
      fun v hv => Function.update_of_ne hv ..
    -- explored vertices keep their labels
    have hkeep : ∀ v ∈ insert u S,
        (lowerKey g u v (Function.update lab u (lab u).leave v)).pred = (lab v).pred := by
      intro v hv
      rw [lowerKey_of_not]
      · by_cases hvu : v = u
        · rw [hvu, hleave]
        · rw [hother v hvu]
      · intro w _ hqueued
        rw [← hsettled] at hv
        rw [(mem_settled.mp hv).2] at hqueued
        exact absurd hqueued (by simp)
    have hrootS := h.root_mem_insert huS hlt
    refine ⟨u, fun v => lowerKey g u v (Function.update lab u (lab u).leave v), st', huV, huS, ?_,
      hrep', ?_, ?_, fun hnot => absurd hrootS hnot, fun v hv hvroot => ?_,
      fun _ => h.tree_insert huV huS hlt hleast hkeep⟩
    · simp only [primRound, hpop, ok_bind, hrow]
      exact hrun
    · rw [← hsettled]
      ext v
      rw [mem_settled, mem_settled, lowerKey_queued]
    · rw [hkeep root hrootS, h.root_pred]
    · rw [hother v fun heq => hv (heq ▸ Finset.mem_insert_self u S)]
      exact h.frontier_insert hv hvroot
  · obtain ⟨v, hv, hlt⟩ := h.exists_lt hconn hroot hne
    exact absurd (hall v hv) (not_le.mpr hlt)

theorem init (hroot : root ∈ g.vertices) :
    ∃ st, primInit g.graph root = .ok st ∧ PrimInv g root ∅ (initialLabel root) st := by
  obtain ⟨pqueue, hpqueue, hrep⟩ := represents_initial g.toDiGraph hroot
  refine ⟨_, by rw [primInit, hpqueue, ok_bind, pure_eq_ok], hrep, settled_initialLabel .., rfl, ?_,
    fun v _ hv => ?_, fun hne => absurd hne Finset.not_nonempty_empty⟩
  · exact fun _ => ⟨rfl, initialLabel_self root⟩
  · exact .inl ⟨rfl, initialLabel_of_ne hv, fun s hs => absurd hs (Finset.notMem_empty s)⟩

theorem loop (h : PrimInv g root S lab st) (hconn : g.Connected) (hroot : root ∈ g.vertices)
    (ord : IterOrder V) {fuel : ℕ} (hfuel : (queue g.vertices lab).card < fuel) :
    ∃ st', whileM .unbounded primCond (primRound ord g.graph) fuel st = .ok st' ∧
      ∃ lab', PrimInv g root g.vertices lab' st' := by
  refine whileM_ok (fun st => ∃ S lab, PrimInv g root S lab st) (fun st => st.pqueue.keys.length)
    ?_ fuel st ⟨S, lab, h⟩ (by rwa [h.rep.pqueue.length_keys])
  rintro st ⟨S, lab, h⟩
  have hcond := h.rep.pqueue.truthy_iff
  have hqueue := queue_eq_sdiff g.vertices lab
  by_cases hne : (queue g.vertices lab).Nonempty
  · left
    obtain ⟨u, lab', st', hu, huS, hround, h'⟩ := h.round hconn hroot ord hne
    refine ⟨st', by rw [primCond, hcond.mpr hne, pure_eq_ok], hround, ⟨_, lab', h'⟩, ?_⟩
    rw [h.rep.pqueue.length_keys, h'.rep.pqueue.length_keys, hqueue, queue_eq_sdiff, h.settled_eq,
      h'.settled_eq]
    apply Finset.card_lt_card
    refine (Finset.ssubset_iff_of_subset ?_).mpr ⟨u, Finset.mem_sdiff.mpr ⟨hu, huS⟩, ?_⟩
    · exact Finset.sdiff_subset_sdiff (Finset.Subset.refl _) (Finset.subset_insert _ _)
    · exact fun hmem => (Finset.mem_sdiff.mp hmem).2 (Finset.mem_insert_self u _)
  · right
    refine ⟨?_, lab, ?_⟩
    · rw [primCond, Bool.eq_false_of_not_eq_true fun htrue => hne (hcond.mp htrue), pure_eq_ok]
    · rw [Finset.not_nonempty_iff_eq_empty, hqueue, Finset.sdiff_eq_empty_iff_subset] at hne
      have hS : S = g.vertices := by
        rw [← h.settled_eq]
        exact Finset.Subset.antisymm (Finset.filter_subset _ _) hne
      rwa [hS] at h

end PrimInv

/-- **`prim` is right.** -/
theorem prim_correct (g : UGraph V) (hconn : g.Connected) {root : V} (hroot : root ∈ g.vertices)
    (ord : IterOrder V) {fuel : ℕ} (hfuel : g.vertices.card < fuel) :
    ∃ pred par, prim fuel ord g.graph root = .ok pred ∧
      Tabulates pred g.vertices (fun v => if v = root then none else some (par v)) ∧
      IsMinSpanningTree g.vertices g.toGraph g.weight (treeEdges root par g.vertices) := by
  obtain ⟨st₀, hinit, h₀⟩ := PrimInv.init hroot
  have hcard : (queue g.vertices (initialLabel root)).card < fuel :=
    (Finset.card_le_card (Finset.filter_subset _ _)).trans_lt hfuel
  obtain ⟨st, hrun, lab, h⟩ := h₀.loop hconn hroot ord hcard
  obtain ⟨par, hpar, hgrowth, hprom⟩ := h.tree ⟨root, hroot⟩
  refine ⟨st.pred, par, ?_, h.rep.pred.congr fun v hv => ?_, ?_⟩
  · rw [prim, hinit, ok_bind, hrun, ok_bind, pure_eq_ok]
  · by_cases hv' : v = root
    · rw [if_pos hv', hv', h.root_pred]
    · rw [if_neg hv', hpar v hv hv']
  · exact hprom.isMinSpanningTree (fun a b hab => g.adj_mem hab) hgrowth.isSpanningTree

/-- The dictionary of a triangle whose heaviest edge is left out. -/
def triangleGraph : Graph (Fin 3) :=
  ofList [(0, ofList [(1, 6), (2, 8)]), (1, ofList [(0, 6), (2, 1)]), (2, ofList [(0, 8), (1, 1)])]

def triangle : UGraph (Fin 3) where
  graph := triangleGraph
  closed _ v _ _ := (by decide : ∀ v, v ∈ triangleGraph) v
  symm := by decide
  light u v := (by decide : ∀ u v, ∀ w ∈ edge triangleGraph u v, w < 1000) u v

theorem triangle_connected : triangle.Connected := by
  have h01 : triangle.toGraph.Reachable 0 1 := SimpleGraph.Adj.reachable ⟨by decide, 6, by decide⟩
  have h02 : triangle.toGraph.Reachable 0 2 := SimpleGraph.Adj.reachable ⟨by decide, 8, by decide⟩
  have hall : ∀ v, triangle.toGraph.Reachable 0 v := by
    intro v
    match v with
    | 0 => exact .refl 0
    | 1 => exact h01
    | 2 => exact h02
  exact fun u _ v _ => (hall u).symm.trans (hall v)

theorem prim_correct_triangle :
    ∃ pred par, prim 4 (.listOrder _) triangle.graph 0 = .ok pred ∧
      Tabulates pred triangle.vertices (fun v => if v = 0 then none else some (par v)) ∧
      IsMinSpanningTree triangle.vertices triangle.toGraph triangle.weight
        (treeEdges 0 par triangle.vertices) :=
  prim_correct triangle triangle_connected (by decide) (.listOrder _) (by decide)

end CodingForFun.GraphProblems
