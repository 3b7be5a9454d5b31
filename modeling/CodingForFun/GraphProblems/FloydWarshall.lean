import CodingForFun.GraphProblems.Labels
import CodingForFun.Lib.AllPairs

/-!
# `floydwarshall`

`Holds` reads the two dictionaries of rows as functions `D` and `P`. The loops of a phase change
them in place, but with a diagonal that is nowhere negative neither the row nor the column of `t`
changes in the phase of `t`, so the phase computes `throughDist` and `throughPred` (`phase_spec`).
What `AllPairs` and `LastEdge` say of these then holds of the result (`floydwarshall_outcome`).
-/

namespace CodingForFun.GraphProblems

open Lib Dict

variable {V : Type} [DecidableEq V] {α : Type}

/-! ## Dictionaries of rows -/

/-- `d` is the table of `F` on the rows `R` and the columns `Vs`. -/
def TabulatesRows (d : Dict V (Dict V α)) (R Vs : Finset V) (F : V → V → α) : Prop :=
  ∃ rows : V → Dict V α, Tabulates d R rows ∧ ∀ u ∈ R, Tabulates (rows u) Vs (F u)

namespace TabulatesRows

variable {d : Dict V (Dict V α)} {R Vs : Finset V} {F G : V → V → α} {u v : V}

theorem getItem₂ (h : TabulatesRows d R Vs F) (hu : u ∈ R) (hv : v ∈ Vs) :
    GraphProblems.getItem₂ d u v = .ok (F u v) := by
  obtain ⟨rows, hd, hrows⟩ := h
  rw [GraphProblems.getItem₂, hd.getItem hu, ok_bind, (hrows u hu).getItem hv]

theorem congr (h : TabulatesRows d R Vs F) (hFG : ∀ u ∈ R, ∀ v ∈ Vs, F u v = G u v) :
    TabulatesRows d R Vs G := by
  obtain ⟨rows, hd, hrows⟩ := h
  exact ⟨rows, hd, fun u hu => (hrows u hu).congr (hFG u hu)⟩

theorem setRow (h : TabulatesRows d R Vs F) (u : V) {row : Dict V α} {f : V → α}
    (hrow : Tabulates row Vs f) :
    TabulatesRows (d.setItem u row) (insert u R) Vs (Function.update F u f) := by
  obtain ⟨rows, hd, hrows⟩ := h
  refine ⟨_, hd.setItem u row, fun a ha => ?_⟩
  by_cases hau : a = u
  · subst hau
    rwa [Function.update_self, Function.update_self]
  · rw [Function.update_of_ne hau, Function.update_of_ne hau]
    exact hrows a ((Finset.mem_insert.mp ha).resolve_left hau)

theorem setItem₂ (h : TabulatesRows d R Vs F) (hu : u ∈ R) (hv : v ∈ Vs) (x : α) :
    ∃ d', GraphProblems.setItem₂ d u v x = .ok d' ∧
      TabulatesRows d' R Vs (Function.update F u (Function.update (F u) v x)) := by
  obtain ⟨rows, hd, hrows⟩ := h
  refine ⟨d.setItem u ((rows u).setItem v x), ?_, ?_⟩
  · rw [GraphProblems.setItem₂, hd.getItem hu, ok_bind, pure_eq_ok]
  · have := setRow ⟨rows, hd, hrows⟩ u ((hrows u hu).setItem_mem hv x)
    rwa [Finset.insert_eq_of_mem hu] at this

end TabulatesRows

/-- The entries of `dist` and `pred`. -/
abbrev Entries (V : Type) := V → V → ℤ × Option V

/-- The dictionaries hold the entries `F`. -/
structure Holds (R Vs : Finset V) (F : Entries V) (tables : Tables V) : Prop where
  dist : TabulatesRows tables.dist R Vs fun u v => (F u v).1
  pred : TabulatesRows tables.pred R Vs fun u v => (F u v).2

theorem Holds.congr {R Vs : Finset V} {F G : Entries V} {tables : Tables V}
    (h : Holds R Vs F tables) (hFG : ∀ u ∈ R, ∀ v ∈ Vs, F u v = G u v) : Holds R Vs G tables where
  dist := h.dist.congr fun u hu v hv => by rw [hFG u hu v hv]
  pred := h.pred.congr fun u hu v hv => by rw [hFG u hu v hv]

/-! ## One phase -/

/-- An entry `x` of row `u`, or the path through `t` where that is shorter. -/
def shorter (dut : ℤ) (tv x : ℤ × Option V) : ℤ × Option V :=
  if dut + tv.1 < x.1 then (dut + tv.1, tv.2) else x

omit [DecidableEq V] in
theorem shorter_of_le {dut : ℤ} {tv x : ℤ × Option V} (h : x.1 ≤ dut + tv.1) :
    shorter dut tv x = x :=
  if_neg (not_lt.mpr h)

variable {Vs : Finset V} {F : Entries V} {tables : Tables V} {t u v : V}

theorem improve_spec (h : Holds Vs Vs F tables) (ht : t ∈ Vs) (hu : u ∈ Vs) (hv : v ∈ Vs) :
    ∃ tables', improve t u tables v = .ok tables' ∧
      Holds Vs Vs (Function.update F u (Function.update (F u) v
        (shorter (F u t).1 (F t v) (F u v)))) tables' := by
  have hupdate : ∀ {β : Type} (k : ℤ × Option V → β) (x : ℤ × Option V),
      (fun a b => k (Function.update F u (Function.update (F u) v x) a b)) =
        Function.update (fun a b => k (F a b)) u (Function.update (fun b => k (F u b)) v (k x)) := by
    intro β k x
    funext a b
    by_cases ha : a = u
    · subst ha
      by_cases hb : b = v
      · subst hb
        simp only [Function.update_self]
      · simp only [Function.update_self, Function.update_of_ne hb]
    · simp only [Function.update_of_ne ha]
  unfold improve
  rw [h.dist.getItem₂ hu ht, ok_bind, h.dist.getItem₂ ht hv, ok_bind]
  simp only
  rw [h.dist.getItem₂ hu hv, ok_bind]
  by_cases hlt : (F u t).1 + (F t v).1 < (F u v).1
  · obtain ⟨dist', hdist, hdist'⟩ := h.dist.setItem₂ hu hv ((F u t).1 + (F t v).1)
    obtain ⟨pred', hpred, hpred'⟩ := h.pred.setItem₂ hu hv (F t v).2
    rw [if_pos hlt, hdist, ok_bind, h.pred.getItem₂ ht hv, ok_bind, hpred, ok_bind]
    refine ⟨⟨dist', pred'⟩, rfl, ?_, ?_⟩
    · rw [hupdate, shorter, if_pos hlt]
      exact hdist'
    · rw [hupdate, shorter, if_pos hlt]
      exact hpred'
  · rw [if_neg hlt, shorter_of_le (not_lt.mp hlt), Function.update_eq_self,
      Function.update_eq_self]
    exact ⟨tables, rfl, h⟩

/-- The row `row` of `u` when paths may go through `t`. -/
def shorterRow (F : Entries V) (t : V) (row : V → ℤ × Option V) (v : V) : ℤ × Option V :=
  shorter (row t).1 (F t v) (row v)

variable {g : DiGraph V}

theorem improveRow_spec (h : Holds g.vertices g.vertices F tables) (ht : t ∈ g.vertices)
    (hu : u ∈ g.vertices) (hdiag : 0 ≤ (F t t).1) :
    ∃ tables', g.graph.keys.foldlM (improve t u) tables = .ok tables' ∧
      Holds g.vertices g.vertices (Function.update F u (shorterRow F t (F u))) tables' := by
  -- the entry of column `t` stays, and so does the whole row if it is that of `t`
  have hstep : ∀ v ∈ g.graph.keys, ∀ (f : V → ℤ × Option V) (s : Tables V),
      Holds g.vertices g.vertices (Function.update F u f) s ∧ f t = F u t ∧ (u = t → f = F t) →
        ∃ s', improve t u s v = .ok s' ∧
          Holds g.vertices g.vertices (Function.update F u
            (Function.update f v (shorter (F u t).1 (F t v) (f v)))) s' ∧
          Function.update f v (shorter (F u t).1 (F t v) (f v)) t = F u t ∧
          (u = t → Function.update f v (shorter (F u t).1 (F t v) (f v)) = F t) := by
    intro v hv f s hf
    obtain ⟨hs, hcol, hrow⟩ := hf
    obtain ⟨s', hrun, hs'⟩ := improve_spec hs ht hu (g.mem_keys.mp hv)
    have htv : Function.update F u f t v = F t v := by
      by_cases hut : t = u
      · rw [hut, Function.update_self, hrow hut.symm, hut]
      · rw [Function.update_of_ne hut]
    rw [Function.update_idem, Function.update_self, hcol, htv] at hs'
    refine ⟨s', hrun, hs', ?_, fun hut => ?_⟩
    · by_cases hvt : t = v
      · subst hvt
        rw [Function.update_self, hcol, shorter_of_le (by omega)]
      · rw [Function.update_of_ne hvt, hcol]
    · subst hut
      rw [hrow rfl, shorter_of_le (by omega), Function.update_eq_self]
  obtain ⟨tables', hrun, hrep, -⟩ := foldlM_update g.graph.keys g.graph.keys_nodup hstep (F u) tables
    ⟨by rwa [Function.update_eq_self], rfl, fun hut => by rw [hut]⟩
  refine ⟨tables', hrun, hrep.congr fun a _ b hb => ?_⟩
  by_cases ha : a = u
  · subst ha
    rw [Function.update_self, Function.update_self, if_pos (g.mem_keys.mpr hb), shorterRow]
  · rw [Function.update_of_ne ha, Function.update_of_ne ha]

theorem phase_spec {D : V → V → ℤ} {P : V → V → Option V}
    (h : Holds g.vertices g.vertices (fun u v => (D u v, P u v)) tables) (ht : t ∈ g.vertices)
    (hdiag : 0 ≤ D t t) :
    ∃ tables', phase g.graph tables t = .ok tables' ∧
      Holds g.vertices g.vertices (fun u v => (throughDist t D u v, throughPred t D P u v)) tables' := by
  have hstep : ∀ u ∈ g.graph.keys, ∀ (f : Entries V) (s : Tables V),
      Holds g.vertices g.vertices f s ∧ (∀ v, f t v = (D t v, P t v)) →
        ∃ s', g.graph.keys.foldlM (improve t u) s = .ok s' ∧
          Holds g.vertices g.vertices (Function.update f u
            (shorterRow (fun u v => (D u v, P u v)) t (f u))) s' ∧
          ∀ v, Function.update f u (shorterRow (fun u v => (D u v, P u v)) t (f u)) t v =
            (D t v, P t v) := by
    intro u hu f s hf
    obtain ⟨hs, hrow⟩ := hf
    have hdiag' : 0 ≤ (f t t).1 := by rwa [hrow t]
    obtain ⟨s', hrun, hs'⟩ := improveRow_spec hs ht (g.mem_keys.mp hu) hdiag'
    have heq : shorterRow f t (f u) = shorterRow (fun u v => (D u v, P u v)) t (f u) := by
      funext v
      rw [shorterRow, shorterRow, hrow v]
    rw [heq] at hs'
    refine ⟨s', hrun, hs', fun v => ?_⟩
    by_cases hut : t = u
    · subst hut
      rw [Function.update_self, shorterRow, hrow v, hrow t]
      exact shorter_of_le (by simp only; omega)
    · rw [Function.update_of_ne hut, hrow v]
  obtain ⟨tables', hrun, hrep, -⟩ := foldlM_update g.graph.keys g.graph.keys_nodup hstep _ tables
    ⟨h, fun _ => rfl⟩
  refine ⟨tables', hrun, hrep.congr fun u hu v _ => ?_⟩
  simp only [if_pos (g.mem_keys.mpr hu), shorterRow, shorter, throughDist, throughPred]
  by_cases hlt : D u t + D t v < D u v
  · rw [if_pos hlt, if_pos hlt, if_pos hlt]
  · rw [if_neg hlt, if_neg hlt, if_neg hlt]

/-! ## Before the phases -/

/-- `dist` before the phases. -/
def initialDist (g : DiGraph V) (u v : V) : ℤ := (g.edge u v).getD (if v = u then 0 else 1000)

/-- `pred` before the phases. -/
def initialPred (g : DiGraph V) (u v : V) : Option V := (g.edge u v).map fun _ => u

/-- The dictionaries `dist[u]` and `pred[u]` hold the entries `f`. -/
def HoldsRow (Vs : Finset V) (f : V → ℤ × Option V) (rows : Dict V Int × Dict V (Option V)) : Prop :=
  Tabulates rows.1 Vs (fun v => (f v).1) ∧ Tabulates rows.2 Vs fun v => (f v).2

/-- The entry that `graph[u][v]` overwrites another with. -/
def copied (g : DiGraph V) (u v : V) (_ : ℤ × Option V) : ℤ × Option V :=
  ((g.edge u v).getD 0, some u)

theorem copyEdge_spec {row : Dict V Int} (hrow : ∀ v, row.lookup v = g.edge u v)
    {f : V → ℤ × Option V} {rows : Dict V Int × Dict V (Option V)}
    (h : HoldsRow g.vertices f rows) (hv : v ∈ row.keys) :
    ∃ rows', copyEdge row u rows v = .ok rows' ∧
      HoldsRow g.vertices (Function.update f v (copied g u v (f v))) rows' := by
  obtain ⟨w, hedge⟩ := (mem_row_keys hrow).mp hv
  have hvV := g.target_mem hedge
  have hget : row.getItem v = .ok w := getItem_of_lookup (by rw [hrow, hedge])
  rw [copyEdge, hget, ok_bind, copied, hedge, Option.getD_some]
  refine ⟨_, rfl, (h.1.setItem_mem hvV w).congr fun a _ => ?_,
    (h.2.setItem_mem hvV (some u)).congr fun a _ => ?_⟩
  · exact (Function.apply_update (fun _ => Prod.fst) f v (w, some u) a).symm
  · exact (Function.apply_update (fun _ => Prod.snd) f v (w, some u) a).symm

theorem initialRow_spec (hu : u ∈ g.vertices) :
    ∃ rows, initialRow g.graph u = .ok rows ∧
      HoldsRow g.vertices (fun v => (initialDist g u v, initialPred g u v)) rows := by
  obtain ⟨row, hrow, hedges⟩ := g.row hu
  have hinit : HoldsRow g.vertices (fun v => (if v = u then 0 else 1000, none))
      ((fill ∅ g.graph.keys fun _ => (1000 : ℤ)).setItem u 0,
        fill ∅ g.graph.keys fun _ => (none : Option V)) := by
    refine ⟨((tabulates_fill g.graph.keys fun _ => (1000 : ℤ)).setItem_mem hu 0).congr fun v _ => ?_,
      tabulates_fill g.graph.keys fun _ => none⟩
    by_cases hvu : v = u
    · rw [hvu, Function.update_self]
      exact (if_pos rfl).symm
    · rw [Function.update_of_ne hvu]
      exact (if_neg hvu).symm
  obtain ⟨rows, hrun, hrows⟩ := foldlM_update row.keys row.keys_nodup
    (fun v hv f s hs => copyEdge_spec hedges hs hv) _ _ hinit
  refine ⟨rows, by rw [initialRow, hrow, ok_bind, hrun], ?_⟩
  have heq : (fun v => (initialDist g u v, initialPred g u v)) = fun v =>
      if v ∈ row.keys then ((g.edge u v).getD 0, some u) else (if v = u then 0 else 1000, none) := by
    funext v
    unfold initialDist initialPred
    cases hedge : g.edge u v with
    | none =>
      have hnot : v ∉ row.keys := fun hv => by
        obtain ⟨w, hw⟩ := (mem_row_keys hedges).mp hv
        rw [hedge] at hw
        exact absurd hw (by simp)
      rw [if_neg hnot]
      rfl
    | some w => rw [if_pos ((mem_row_keys hedges).mpr ⟨w, hedge⟩)]; rfl
  rw [heq]
  exact hrows

theorem initialTables_spec (g : DiGraph V) :
    ∃ tables, initialTables g.graph = .ok tables ∧
      Holds g.vertices g.vertices (fun u v => (initialDist g u v, initialPred g u v)) tables := by
  have hempty : Holds ∅ g.vertices (fun u v => (initialDist g u v, initialPred g u v))
      (⟨∅, ∅⟩ : Tables V) :=
    ⟨⟨fun _ => ∅, tabulates_empty _, fun u hu => absurd hu (Finset.notMem_empty u)⟩,
      ⟨fun _ => ∅, tabulates_empty _, fun u hu => absurd hu (Finset.notMem_empty u)⟩⟩
  apply foldlM_ok (fun done tables => Holds done.toFinset g.vertices
    (fun u v => (initialDist g u v, initialPred g u v)) tables) g.graph.keys hempty
  intro done u rest tables hwhole h
  have hu : u ∈ g.vertices := by
    rw [← g.mem_keys, ← hwhole]
    exact List.mem_append_right done List.mem_cons_self
  obtain ⟨rows, hrow, hrows⟩ := initialRow_spec hu
  refine ⟨_, by rw [hrow, ok_bind, pure_eq_ok], ?_⟩
  have hset : (done ++ [u]).toFinset = insert u done.toFinset := by
    rw [List.toFinset_append, Finset.union_comm]
    rfl
  rw [hset]
  refine ⟨(h.dist.setRow u hrows.1).congr fun a _ b _ => ?_,
    (h.pred.setRow u hrows.2).congr fun a _ b _ => ?_⟩
  · by_cases ha : a = u
    · rw [ha, Function.update_self]
    · rw [Function.update_of_ne ha]
  · by_cases ha : a = u
    · rw [ha, Function.update_self]
    · rw [Function.update_of_ne ha]

theorem allPairs_initial (hnn : NonnegEdges g.edge) : AllPairs g.edge 1000 ∅ (initialDist g) where
  nonneg u v := by
    unfold initialDist
    cases hedge : g.edge u v with
    | none =>
      show 0 ≤ if v = u then (0 : ℤ) else 1000
      split <;> omega
    | some w => exact hnn u v w hedge
  le_edge u v w hedge := by rw [initialDist, hedge, Option.getD_some]
  diag u hloop := by rw [initialDist, hloop, Option.getD_none, if_pos rfl]
  sound u v hlt := by
    unfold initialDist at hlt ⊢
    cases hedge : g.edge u v with
    | none =>
      rw [hedge, Option.getD_none] at hlt
      by_cases hvu : v = u
      · subst hvu
        exact .inr ⟨rfl, hedge⟩
      · rw [if_neg hvu] at hlt
        omega
    | some w => exact .inl ⟨u, 0, w, .nil u, hedge, by rw [Option.getD_some, zero_add]⟩
  closed t ht := absurd ht (Set.notMem_empty t)

theorem lastEdge_initial (hlight : ∀ u v w, g.edge u v = some w → w < 1000)
    (hloop : ∀ u, g.edge u u = none) : LastEdge g.edge 1000 (initialDist g) (initialPred g) where
  le_inf u v := by
    unfold initialDist
    cases hedge : g.edge u v with
    | none =>
      show (if v = u then (0 : ℤ) else 1000) ≤ 1000
      split <;> omega
    | some w => exact (hlight u v w hedge).le
  diag u := by
    rw [initialDist, initialPred, hloop, Option.getD_none, if_pos rfl]
    exact ⟨rfl, rfl⟩
  none u v hinf := by
    unfold initialDist at hinf
    unfold initialPred
    cases hedge : g.edge u v with
    | none => rfl
    | some w =>
      rw [hedge, Option.getD_some] at hinf
      have := hlight u v w hedge
      omega
  some u v huv hlt := by
    unfold initialDist at hlt
    cases hedge : g.edge u v with
    | none =>
      rw [hedge, Option.getD_none, if_neg (Ne.symm huv)] at hlt
      omega
    | some w =>
      refine ⟨u, w, ?_, hedge, ?_⟩
      · rw [initialPred, hedge, Option.map_some]
      · rw [initialDist, initialDist, hloop, hedge, Option.getD_none, Option.getD_some, if_pos rfl,
          zero_add]

/-! ## All phases -/

/-- What holds of the entries between two phases, with the vertices `T` done. -/
structure PhaseInv (g : DiGraph V) (T : Set V) (D : V → V → ℤ) (P : V → V → Option V)
    (tables : Tables V) : Prop where
  holds : Holds g.vertices g.vertices (fun u v => (D u v, P u v)) tables
  allPairs : AllPairs g.edge 1000 T D
  lastEdge : (∀ u v w, g.edge u v = some w → w < 1000) → (∀ u, g.edge u u = none) →
    LastEdge g.edge 1000 D P

theorem PhaseInv.phase {T : Set V} {D : V → V → ℤ} {P : V → V → Option V}
    (h : PhaseInv g T D P tables) (ht : t ∈ g.vertices) :
    ∃ tables', GraphProblems.phase g.graph tables t = .ok tables' ∧
      PhaseInv g (insert t T) (throughDist t D) (throughPred t D P) tables' := by
  have hnn := h.allPairs.nonneg
  obtain ⟨tables', hrun, h'⟩ := phase_spec h.holds ht (hnn t t)
  exact ⟨tables', hrun, h', h.allPairs.through t, fun hlight hloop =>
    (h.lastEdge hlight hloop).through hnn t⟩

theorem PhaseInv.phases {T : Set V} {D : V → V → ℤ} {P : V → V → Option V}
    (h : PhaseInv g T D P tables) (l : List V) (hl : ∀ t ∈ l, t ∈ g.vertices) :
    ∃ tables', l.foldlM (GraphProblems.phase g.graph) tables = .ok tables' ∧
      ∃ T' D' P', PhaseInv g T' D' P' tables' ∧ ∀ t ∈ l, t ∈ T' := by
  apply foldlM_ok (fun done tables => ∃ T D P, PhaseInv g T D P tables ∧ ∀ t ∈ done, t ∈ T) l
    ⟨T, D, P, h, fun t ht => absurd ht List.not_mem_nil⟩
  rintro done t rest tables hwhole ⟨T, D, P, h, hmem⟩
  have ht : t ∈ g.vertices := by
    apply hl t
    rw [← hwhole]
    exact List.mem_append_right done List.mem_cons_self
  obtain ⟨tables', hphase, h'⟩ := h.phase ht
  refine ⟨tables', hphase, _, _, _, h', fun a ha => ?_⟩
  rcases List.mem_append.mp ha with ha | ha
  · exact Set.mem_insert_of_mem t (hmem a ha)
  · rw [List.mem_singleton.mp ha]
    exact Set.mem_insert t T

theorem floydwarshall_outcome (g : DiGraph V) (hnn : NonnegEdges g.edge) :
    ∃ tables T D P, floydwarshall g.graph = .ok tables ∧ PhaseInv g T D P tables ∧
      ∀ u v w, g.edge u v = some w → u ∈ T := by
  obtain ⟨tables₀, hinit, h₀⟩ := initialTables_spec g
  have hinv : PhaseInv g ∅ (initialDist g) (initialPred g) tables₀ :=
    ⟨h₀, allPairs_initial hnn, lastEdge_initial⟩
  obtain ⟨tables, hrun, T, D, P, h, hmem⟩ := hinv.phases g.graph.keys fun t ht => g.mem_keys.mp ht
  refine ⟨tables, T, D, P, by rw [floydwarshall, hinit, ok_bind, hrun], h, fun u v w hedge => ?_⟩
  exact hmem u (g.mem_keys.mpr (g.source_mem hedge))

/-- **`floydwarshall` is right.** -/
theorem floydwarshall_correct (g : DiGraph V)
    (hweight : ∀ u v w, g.edge u v = some w → 0 ≤ w ∧ w ≤ 999) (hloop : ∀ u, g.edge u u = none) :
    ∃ tables D P, floydwarshall g.graph = .ok tables ∧
      TabulatesRows tables.dist g.vertices g.vertices D ∧
      TabulatesRows tables.pred g.vertices g.vertices P ∧
      (∀ u ∈ g.vertices, D u u = 0) ∧
      ∀ u ∈ g.vertices, ∀ v ∈ g.vertices,
        IsLeast (insert 1000 {d | Walk g.edge u v d}) (D u v) ∧
        (P u v = none ↔ u = v ∨ D u v = 1000) ∧
        (u ≠ v → D u v ≠ 1000 →
          ∃ p w, P u v = some p ∧ g.edge p v = some w ∧ D u v = D u p + w) := by
  have hlight : ∀ u v w, g.edge u v = some w → w < 1000 := by
    intro u v w hedge
    have := hweight u v w hedge
    omega
  obtain ⟨tables, T, D, P, hrun, h, hT⟩ :=
    floydwarshall_outcome g fun u v w hedge => (hweight u v w hedge).1
  have hlast := h.lastEdge hlight hloop
  have hlt : ∀ u v, D u v ≠ 1000 → D u v < 1000 := fun u v hne => lt_of_le_of_ne (hlast.le_inf u v) hne
  refine ⟨tables, D, P, hrun, h.holds.dist, h.holds.pred, fun u _ => (hlast.diag u).1,
    fun u _ v _ => ⟨⟨?_, ?_⟩, ⟨?_, ?_⟩, ?_⟩⟩
  · by_cases hinf : D u v = 1000
    · exact .inl hinf
    · exact .inr (h.allPairs.walk (hlt u v hinf))
  · rintro d (rfl | hwalk)
    · exact hlast.le_inf u v
    · by_cases huv : u = v
      · subst huv
        rw [(hlast.diag u).1]
        exact hwalk.nonneg fun a b w hedge => (hweight a b w hedge).1
      · exact h.allPairs.le_walk hT (hwalk.proper huv)
  · intro hnone
    by_contra hnot
    push Not at hnot
    obtain ⟨p, w, hp, -⟩ := hlast.some u v hnot.1 (hlt u v hnot.2)
    rw [hnone] at hp
    exact absurd hp (by simp)
  · rintro (rfl | hinf)
    · exact (hlast.diag u).2
    · exact hlast.none u v hinf
  · intro huv hinf
    exact hlast.tight h.allPairs hT huv (hlt u v hinf)

theorem floydwarshall_correct_exampleGraph :
    ∃ tables D P, floydwarshall exampleGraph.graph = .ok tables ∧
      TabulatesRows tables.dist exampleGraph.vertices exampleGraph.vertices D ∧
      TabulatesRows tables.pred exampleGraph.vertices exampleGraph.vertices P ∧
      (∀ u ∈ exampleGraph.vertices, D u u = 0) ∧
      ∀ u ∈ exampleGraph.vertices, ∀ v ∈ exampleGraph.vertices,
        IsLeast (insert 1000 {d | Walk exampleGraph.edge u v d}) (D u v) ∧
        (P u v = none ↔ u = v ∨ D u v = 1000) ∧
        (u ≠ v → D u v ≠ 1000 →
          ∃ p w, P u v = some p ∧ exampleGraph.edge p v = some w ∧ D u v = D u p + w) :=
  floydwarshall_correct exampleGraph
    (fun u v => (by decide : ∀ u v, ∀ w ∈ exampleGraph.edge u v, 0 ≤ w ∧ w ≤ 999) u v) (by decide)

end CodingForFun.GraphProblems
