import Mathlib.Algebra.Order.Ring.Int
import Mathlib.Data.Int.LeastGreatest
import Mathlib.Data.Finset.Basic
import Mathlib.Order.Bounds.Basic
import Mathlib.Tactic.Linarith

/-!
# Shortest paths from one vertex

A weighted directed graph is given by its edge weights (`none`: no edge). `Walk` is a walk with its
total weight. Dijkstra's algorithm without its queue is a labelling of the vertices that is final on
the settled vertices `S` (`Settling`): settled vertices are no further from `start` than the others,
and every edge out of them has been taken into account. `Settling.relax` settles a vertex of least
label. A labelling that takes every edge into account is below every walk (`Settling.le_walk`), and
each label is the weight of the walk along the predecessors (`PredPath`), so the labels are the
distances.
-/

namespace CodingForFun.Lib

variable {V : Type} {edge : V → V → Option ℤ} {a b c start u v p : V} {d e w inf : ℤ}

/-- A walk from `a` to `b` of total weight `d`. -/
inductive Walk (edge : V → V → Option ℤ) : V → V → ℤ → Prop
  | nil (a : V) : Walk edge a a 0
  | snoc {a b c : V} {d w : ℤ} (h : Walk edge a b d) (hedge : edge b c = some w) :
      Walk edge a c (d + w)

/-- A walk with at least one edge. -/
def ProperWalk (edge : V → V → Option ℤ) (a c : V) (d : ℤ) : Prop :=
  ∃ b d' w, Walk edge a b d' ∧ edge b c = some w ∧ d = d' + w

/-- `d` is the weight of a lightest walk. -/
def IsDistance (edge : V → V → Option ℤ) (a b : V) (d : ℤ) : Prop :=
  IsLeast {d | Walk edge a b d} d

/-- No edge has a negative weight. -/
def NonnegEdges (edge : V → V → Option ℤ) : Prop := ∀ a b w, edge a b = some w → 0 ≤ w

theorem Walk.append (h : Walk edge a b d) (h' : Walk edge b c e) : Walk edge a c (d + e) := by
  induction h' with
  | nil => rwa [add_zero]
  | snoc _ hedge ih =>
    rw [← add_assoc]
    exact ih.snoc hedge

theorem Walk.nonneg (hnn : NonnegEdges edge) (h : Walk edge a b d) : 0 ≤ d := by
  induction h with
  | nil => exact le_rfl
  | snoc _ hedge ih => exact add_nonneg ih (hnn _ _ _ hedge)

theorem Walk.of_edge (hedge : edge a b = some w) : Walk edge a b w := by
  simpa using (Walk.nil a).snoc hedge

theorem Walk.exists_isDistance (hnn : NonnegEdges edge) (h : Walk edge a b d) :
    ∃ d', IsDistance edge a b d' := by
  obtain ⟨d', hwalk, hleast⟩ := Int.exists_least_of_bdd (P := fun d => Walk edge a b d)
    ⟨0, fun z hz => hz.nonneg hnn⟩ ⟨d, h⟩
  exact ⟨d', hwalk, hleast⟩

theorem Walk.proper (h : Walk edge a b d) (hne : a ≠ b) : ProperWalk edge a b d := by
  cases h with
  | nil => exact absurd rfl hne
  | snoc hwalk hedge => exact ⟨_, _, _, hwalk, hedge, rfl⟩

theorem ProperWalk.walk (h : ProperWalk edge a b d) : Walk edge a b d := by
  obtain ⟨p, d', w, hwalk, hedge, rfl⟩ := h
  exact hwalk.snoc hedge

/-- Following `pred` from a vertex leads to `start`, along edges of total weight `d`. -/
inductive PredPath (edge : V → V → Option ℤ) (pred : V → Option V) (start : V) : V → ℤ → Prop
  | start (hpred : pred start = none) : PredPath edge pred start start 0
  | step {p v : V} {d w : ℤ} (h : PredPath edge pred start p d) (hpred : pred v = some p)
      (hedge : edge p v = some w) : PredPath edge pred start v (d + w)

variable {pred pred' : V → Option V} {dist : V → ℤ}

theorem PredPath.walk (h : PredPath edge pred start v d) : Walk edge start v d := by
  induction h with
  | start => exact .nil _
  | step _ _ hedge ih => exact ih.snoc hedge

theorem PredPath.congr {S : Finset V} (h : PredPath edge pred start v d)
    (hclosed : ∀ v ∈ S, ∀ p, pred v = some p → p ∈ S) (heq : ∀ v ∈ S, pred' v = pred v)
    (hv : v ∈ S) : PredPath edge pred' start v d := by
  induction h with
  | start hpred => exact .start (by rw [heq _ hv, hpred])
  | step _ hpred hedge ih =>
    exact (ih (hclosed _ hv _ hpred)).step (by rw [heq _ hv, hpred]) hedge

/-- The labels while the vertices `S` are settled: distances there, elsewhere the weights of the
lightest walks whose last edge leaves a settled vertex, `inf` where there is none. -/
structure Settling (edge : V → V → Option ℤ) (start : V) (inf : ℤ) (S : Finset V) (dist : V → ℤ)
    (pred : V → Option V) : Prop where
  start_dist : dist start = 0
  start_pred : pred start = none
  start_mem : S.Nonempty → start ∈ S
  label : ∀ v, v ≠ start → (dist v = inf ∧ pred v = none) ∨
    ∃ p ∈ S, ∃ w, pred v = some p ∧ edge p v = some w ∧ dist v = dist p + w
  le_inf : ∀ v, dist v ≤ inf
  relaxed : ∀ s ∈ S, ∀ v w, edge s v = some w → dist v ≤ dist s + w
  settled_le : ∀ s ∈ S, ∀ v, v ∉ S → dist s ≤ dist v
  path : ∀ s ∈ S, PredPath edge pred start s (dist s)

namespace Settling

variable {S : Finset V}

theorem init [DecidableEq V] (hinf : 0 ≤ inf) :
    Settling edge start inf ∅ (Function.update (fun _ => inf) start 0) fun _ => none where
  start_dist := Function.update_self ..
  start_pred := rfl
  start_mem h := absurd h Finset.not_nonempty_empty
  label v hv := .inl ⟨Function.update_of_ne hv .., rfl⟩
  le_inf v := by
    by_cases hv : v = start
    · rw [hv, Function.update_self]
      exact hinf
    · rw [Function.update_of_ne hv]
  relaxed s hs := absurd hs (Finset.notMem_empty s)
  settled_le s hs := absurd hs (Finset.notMem_empty s)
  path s hs := absurd hs (Finset.notMem_empty s)

/-- An edge out of a vertex that is nearest among the unsettled ones gives no settled vertex a
shorter label. -/
theorem le_of_settled (h : Settling edge start inf S dist pred) (hnn : NonnegEdges edge) (hu : u ∉ S)
    (hv : v ∈ S ∨ v = u) (hedge : edge u v = some w) : dist v ≤ dist u + w := by
  have hw := hnn u v w hedge
  rcases hv with hv | rfl
  · have := h.settled_le v hv u hu
    omega
  · omega

theorem start_settled (h : Settling edge start inf S dist pred) (hlt : dist u < inf) :
    start ∈ S ∨ start = u := by
  by_cases hstart : start = u
  · exact .inr hstart
  · rcases h.label u (Ne.symm hstart) with ⟨hinf, -⟩ | ⟨p, hp, -⟩
    · omega
    · exact .inl (h.start_mem ⟨p, hp⟩)

theorem pred_mem (h : Settling edge start inf S dist pred) {p : V} (hp : pred v = some p) :
    p ∈ S := by
  by_cases hv : v = start
  · rw [hv, h.start_pred] at hp
    exact absurd hp (by simp)
  · rcases h.label v hv with ⟨-, hnone⟩ | ⟨p', hp', -, hsome, -⟩
    · rw [hnone] at hp
      exact absurd hp (by simp)
    · rw [hsome] at hp
      exact Option.some.inj hp ▸ hp'

variable {dist' : V → ℤ}

/-- Settling a vertex `u` of least label: the labels of the vertices that `u` has an edge to are
lowered where the walk through `u` is lighter. -/
theorem relax [DecidableEq V] (h : Settling edge start inf S dist pred) (hnn : NonnegEdges edge)
    (hu : u ∉ S) (hleast : ∀ v, v ∉ S → dist u ≤ dist v) (hlt : dist u < inf)
    (hlower : ∀ v w, edge u v = some w → dist u + w < dist v →
      dist' v = dist u + w ∧ pred' v = some u)
    (hkeep : ∀ v, (∀ w, edge u v = some w → dist v ≤ dist u + w) →
      dist' v = dist v ∧ pred' v = pred v) :
    Settling edge start inf (insert u S) dist' pred' := by
  have hcases : ∀ v, (∃ w, edge u v = some w ∧ dist u + w < dist v ∧ dist' v = dist u + w ∧
      pred' v = some u) ∨ (dist' v = dist v ∧ pred' v = pred v ∧
        ∀ w, edge u v = some w → dist v ≤ dist u + w) := by
    intro v
    by_cases hall : ∀ w, edge u v = some w → dist v ≤ dist u + w
    · exact .inr ⟨(hkeep v hall).1, (hkeep v hall).2, hall⟩
    · push Not at hall
      obtain ⟨w, hedge, hvw⟩ := hall
      exact .inl ⟨w, hedge, hvw, hlower v w hedge hvw⟩
  have hle : ∀ v, dist' v ≤ dist v := by
    intro v
    rcases hcases v with ⟨w, -, hlt, hdist, -⟩ | ⟨hdist, -⟩ <;> omega
  have hfixed : ∀ v, v ∈ S ∨ v = u → dist' v = dist v ∧ pred' v = pred v := fun v hv =>
    hkeep v fun w hedge => h.le_of_settled hnn hu hv hedge
  have hmem : ∀ {v}, v ∈ insert u S ↔ v ∈ S ∨ v = u := by
    intro v
    rw [Finset.mem_insert, or_comm]
  have hstart := h.start_settled hlt
  have hpath : ∀ v ∈ S, PredPath edge pred' start v (dist' v) := by
    intro v hv
    rw [(hfixed v (.inl hv)).1]
    exact (h.path v hv).congr (fun a _ p => h.pred_mem) (fun s hs => (hfixed s (.inl hs)).2) hv
  refine ⟨?_, ?_, fun _ => hmem.mpr hstart, fun v hv => ?_, fun v => (hle v).trans (h.le_inf v),
    fun s hs v w hedge => ?_, fun s hs v hv => ?_, fun s hs => ?_⟩
  · rw [(hfixed start hstart).1, h.start_dist]
  · rw [(hfixed start hstart).2, h.start_pred]
  · rcases hcases v with ⟨w, hedge, -, hdist, hpred⟩ | ⟨hdist, hpred, -⟩
    · exact .inr ⟨u, Finset.mem_insert_self u S, w, hpred, hedge,
        by rw [hdist, (hfixed u (.inr rfl)).1]⟩
    · rw [hdist, hpred]
      rcases h.label v hv with hnone | ⟨p, hp, w, hpred, hedge, hdist⟩
      · exact .inl hnone
      · exact .inr ⟨p, Finset.mem_insert_of_mem hp, w, hpred, hedge,
          by rw [hdist, (hfixed p (.inl hp)).1]⟩
  · rcases hmem.mp hs with hs | rfl
    · rw [(hfixed s (.inl hs)).1]
      exact (hle v).trans (h.relaxed s hs v w hedge)
    · rw [(hfixed s (.inr rfl)).1]
      rcases hcases v with ⟨w', hedge', -, hdist, -⟩ | ⟨hdist, -, hkept⟩
      · rw [hedge'] at hedge
        obtain rfl := Option.some.inj hedge
        exact hdist.le
      · exact hdist ▸ hkept w hedge
  · -- an unsettled vertex is no nearer than `u`, also when its label was lowered
    have hvS : v ∉ S := fun hvS => hv (Finset.mem_insert_of_mem hvS)
    have hsu : dist' s ≤ dist u := by
      rw [(hfixed s (hmem.mp hs)).1]
      rcases hmem.mp hs with hs | rfl
      · exact h.settled_le s hs u hu
      · exact le_rfl
    rcases hcases v with ⟨w, hedge, -, hdist, -⟩ | ⟨hdist, -⟩
    · have := hnn u v w hedge
      omega
    · have := hleast v hvS
      omega
  · rcases hmem.mp hs with hs | rfl
    · exact hpath s hs
    · by_cases hstart' : s = start
      · subst hstart'
        rw [(hfixed s (.inr rfl)).1, h.start_dist]
        exact .start (by rw [(hfixed s (.inr rfl)).2, h.start_pred])
      · rcases h.label s hstart' with ⟨hinf, -⟩ | ⟨p, hp, w, hpred, hedge, hdist⟩
        · omega
        · rw [(hfixed s (.inr rfl)).1, hdist, ← (hfixed p (.inl hp)).1]
          exact (hpath p hp).step (by rw [(hfixed s (.inr rfl)).2, hpred]) hedge

/-- When only vertices without a finite label are left, the labels are below every walk. -/
theorem le_walk (h : Settling edge start inf S dist pred) (hnn : NonnegEdges edge)
    (hS : S.Nonempty) (hrest : ∀ v, v ∉ S → dist v = inf) (hwalk : Walk edge start v d) :
    dist v ≤ d := by
  have hall : (v ∈ S ∧ dist v ≤ d) ∨ inf ≤ d := by
    induction hwalk with
    | nil => exact .inl ⟨h.start_mem hS, h.start_dist.le⟩
    | snoc _ hedge ih =>
      rename_i b c d w _
      have hw := hnn b c w hedge
      rcases ih with ⟨hb, hle⟩ | hle
      · have hc := h.relaxed b hb c w hedge
        by_cases hcS : c ∈ S
        · exact .inl ⟨hcS, by omega⟩
        · exact .inr (by have := hrest c hcS; omega)
      · exact .inr (by omega)
  rcases hall with ⟨-, hle⟩ | hle
  · exact hle
  · exact (h.le_inf v).trans hle

end Settling

end CodingForFun.Lib
