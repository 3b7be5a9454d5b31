import Mathlib.Combinatorics.SimpleGraph.Acyclic
import Mathlib.Algebra.BigOperators.Group.Finset.Basic
import Mathlib.Algebra.Order.BigOperators.Group.Finset
import Mathlib.Data.Finset.Sym

/-!
# Minimum spanning trees

A spanning tree of a graph `G` on the vertices `Vs` is given by its edges, a finite set of `Sym2 V`.
The exchange lemma (`IsSpanningTree.exchange`) trades an edge of a spanning tree for any edge of `G`
across the same cut. A set of edges is `Promising` when every spanning tree can be traded for one
at most as heavy that contains it: the empty set is, an edge that is lightest across a cut the set
respects may be added (`Promising.insert`), and a promising spanning tree is minimal
(`Promising.isMinSpanningTree`). In the other direction, a tree edge whose ends are joined by
strictly lighter edges rules minimality out (`IsMinSpanningTree.not_reachable_lighter`).
-/

namespace CodingForFun.Lib

open SimpleGraph

variable {V : Type} {Vs : Finset V} {G : SimpleGraph V} {E F : Finset (Sym2 V)}

/-- The graph with the edges `E`. -/
abbrev graphOf (E : Finset (Sym2 V)) : SimpleGraph V := fromEdgeSet (E : Set (Sym2 V))

theorem graphOf_adj {a b : V} : (graphOf E).Adj a b ↔ s(a, b) ∈ E ∧ a ≠ b := by
  simp [graphOf, fromEdgeSet_adj]

theorem graphOf_mono (h : E ⊆ F) : graphOf E ≤ graphOf F :=
  fromEdgeSet_mono (by exact_mod_cast h)

/-! ## Trading one edge -/

section exchange

variable [DecidableEq V] {T : SimpleGraph V} {a b x y : V}

theorem reachable_delete_of_reachable {v : V} (h : T.Reachable a v) :
    (T.deleteEdges {s(a, b)}).Reachable a v ∨ (T.deleteEdges {s(a, b)}).Reachable b v := by
  rw [reachable_iff_reflTransGen] at h
  induction h with
  | refl => exact .inl (.refl _)
  | @tail v w _ hvw ih =>
    by_cases hedge : s(v, w) = s(a, b)
    · rcases Sym2.eq_iff.mp hedge with ⟨-, rfl⟩ | ⟨-, rfl⟩
      · exact .inr (.refl _)
      · exact .inl (.refl _)
    · have hstep : (T.deleteEdges {s(a, b)}).Adj v w := by
        rw [deleteEdges_adj]
        exact ⟨hvw, hedge⟩
      exact ih.imp (·.trans hstep.reachable) (·.trans hstep.reachable)

omit [DecidableEq V] in
theorem not_reachable_delete_of_mem_path (hT : T.IsAcyclic) {p : T.Walk x y} (hp : p.IsPath)
    {e : Sym2 V} (he : e ∈ p.edges) : ¬ (T.deleteEdges {e}).Reachable x y := by
  intro h
  obtain ⟨q, hq⟩ := h.exists_isPath
  have hle : T.deleteEdges {e} ≤ T := deleteEdges_le _
  have hpq : p = q.mapLe hle := congrArg Subtype.val
    (hT.subsingleton_path x y |>.elim ⟨p, hp⟩ ⟨q.mapLe hle, hq.mapLe hle⟩)
  rw [hpq, Walk.edges_mapLe_eq_edges] at he
  have := q.edges_subset_edgeSet he
  simp [edgeSet_deleteEdges] at this

/-- An edge of the tree path across a cut can be traded for the edge that closes the path. -/
theorem exists_exchange (hT : T.IsAcyclic) (hxy : T.Reachable x y) {C : Set V} (hx : x ∈ C)
    (hy : y ∉ C) :
    ∃ a b, T.Adj a b ∧ a ∈ C ∧ b ∉ C ∧ (T.deleteEdges {s(a, b)} ⊔ edge x y).IsAcyclic ∧
      ∀ u v, T.Reachable u v → (T.deleteEdges {s(a, b)} ⊔ edge x y).Reachable u v := by
  obtain ⟨p, hp⟩ := hxy.exists_isPath
  obtain ⟨d, hd, hdC, hdC'⟩ := p.exists_boundary_dart C hx hy
  have hne : x ≠ y := fun h => hy (h ▸ hx)
  have hmem : s(d.fst, d.snd) ∈ p.edges := List.mem_map.mpr ⟨d, hd, rfl⟩
  have hcut := not_reachable_delete_of_mem_path hT hp hmem
  have hleft : T.Reachable d.fst x :=
    (p.takeUntil _ (p.dart_fst_mem_support_of_mem_darts hd)).reachable.symm
  have hle : T.deleteEdges {s(d.fst, d.snd)} ≤ T.deleteEdges {s(d.fst, d.snd)} ⊔ edge x y := le_sup_left
  have hnew : (T.deleteEdges {s(d.fst, d.snd)} ⊔ edge x y).Reachable x y :=
    Adj.reachable (Or.inr (by simp [edge_adj, hne]))
  -- the two ends of the cut edge are joined through the new edge
  have hends : (T.deleteEdges {s(d.fst, d.snd)} ⊔ edge x y).Reachable d.fst d.snd := by
    rcases reachable_delete_of_reachable (b := d.snd) hleft with h1 | h1
    · rcases reachable_delete_of_reachable (b := d.snd) (hleft.trans hxy) with h2 | h2
      · exact absurd (h1.symm.trans h2) hcut
      · exact (h1.mono hle).trans (hnew.trans (h2.mono hle).symm)
    · rcases reachable_delete_of_reachable (b := d.snd) (hleft.trans hxy) with h2 | h2
      · exact (h2.mono hle).trans (hnew.symm.trans (h1.mono hle).symm)
      · exact absurd (h1.symm.trans h2) hcut
  refine ⟨d.fst, d.snd, d.adj, hdC, hdC', (hT.anti (deleteEdges_le _)).sup_edge_of_not_reachable hcut,
    fun u v huv => ?_⟩
  rw [reachable_iff_reflTransGen] at huv
  induction huv with
  | refl => exact .refl _
  | @tail v w _ hvw ih =>
    apply ih.trans
    by_cases hedge : s(v, w) = s(d.fst, d.snd)
    · rcases Sym2.eq_iff.mp hedge with ⟨rfl, rfl⟩ | ⟨rfl, rfl⟩
      · exact hends
      · exact hends.symm
    · refine Adj.reachable (Or.inl ?_)
      rw [deleteEdges_adj]
      exact ⟨hvw, hedge⟩

theorem graphOf_exchange :
    graphOf (insert s(x, y) (E.erase s(a, b))) = (graphOf E).deleteEdges {s(a, b)} ⊔ edge x y := by
  ext u v
  simp only [graphOf_adj, sup_adj, deleteEdges_adj, edge_adj, Finset.mem_insert, Finset.mem_erase,
    Set.mem_singleton_iff, Ne, Sym2.eq_iff]
  constructor
  · rintro ⟨h | ⟨h1, h2⟩, h3⟩
    · exact .inr ⟨h, h3⟩
    · exact .inl ⟨⟨h2, h3⟩, h1⟩
  · rintro (⟨⟨h1, h2⟩, h3⟩ | ⟨h, h3⟩)
    · exact ⟨.inr ⟨h3, h1⟩, h2⟩
    · exact ⟨.inl h, h3⟩

end exchange

/-! ## Spanning trees -/

/-- `E` is the edge set of a spanning tree of `G` on the vertices `Vs`. -/
structure IsSpanningTree (Vs : Finset V) (G : SimpleGraph V) (E : Finset (Sym2 V)) : Prop where
  sub : ∀ e ∈ E, e ∈ G.edgeSet
  acyclic : (graphOf E).IsAcyclic
  connected : ∀ u ∈ Vs, ∀ v ∈ Vs, (graphOf E).Reachable u v

/-- The total weight of a set of edges. -/
def totalWeight (w : Sym2 V → ℤ) (E : Finset (Sym2 V)) : ℤ := ∑ e ∈ E, w e

/-- A spanning tree that no spanning tree is lighter than. -/
structure IsMinSpanningTree (Vs : Finset V) (G : SimpleGraph V) (w : Sym2 V → ℤ)
    (E : Finset (Sym2 V)) : Prop extends IsSpanningTree Vs G E where
  minimal : ∀ F, IsSpanningTree Vs G F → totalWeight w E ≤ totalWeight w F

section trees

variable [DecidableEq V] {w : Sym2 V → ℤ} {x y p u : V} {C S : Set V}

theorem IsSpanningTree.exchange (hE : IsSpanningTree Vs G E) (hxy : G.Adj x y) (hx : x ∈ Vs)
    (hy : y ∈ Vs) (hxC : x ∈ C) (hyC : y ∉ C) :
    ∃ a b, s(a, b) ∈ E ∧ a ∈ C ∧ b ∉ C ∧ IsSpanningTree Vs G (insert s(x, y) (E.erase s(a, b))) := by
  obtain ⟨a, b, hab, ha, hb, hacyclic, hreach⟩ :=
    exists_exchange hE.acyclic (hE.connected x hx y hy) hxC hyC
  refine ⟨a, b, (graphOf_adj.mp hab).1, ha, hb, fun e he => ?_, ?_, fun u hu v hv => ?_⟩
  · rcases Finset.mem_insert.mp he with rfl | he
    · exact hxy
    · exact hE.sub e (Finset.mem_of_mem_erase he)
  · rwa [graphOf_exchange]
  · rw [graphOf_exchange]
    exact hreach u v (hE.connected u hu v hv)

theorem totalWeight_exchange {e f : Sym2 V} (he : e ∉ E) (hf : f ∈ E) :
    totalWeight w (insert e (E.erase f)) = totalWeight w E - w f + w e := by
  have hne : e ∉ E.erase f := fun h => he (Finset.mem_of_mem_erase h)
  have hsum := Finset.sum_erase_add E w hf
  rw [totalWeight, Finset.sum_insert hne, totalWeight]
  omega

theorem IsSpanningTree.eq_of_subset (hG : ∀ a b, G.Adj a b → a ∈ Vs) (hE : IsSpanningTree Vs G E)
    (hF : IsSpanningTree Vs G F) (hEF : E ⊆ F) : E = F := by
  apply Finset.Subset.antisymm hEF
  intro e he
  induction e using Sym2.ind with
  | h a b =>
    by_contra hnot
    have hadj : G.Adj a b := hF.sub _ he
    have hbridge := isAcyclic_iff_forall_adj_isBridge.mp hF.acyclic
      (graphOf_adj.mpr ⟨he, hadj.ne⟩)
    refine isBridge_iff.mp hbridge
      ((hE.connected a (hG a b hadj) b (hG b a hadj.symm)).mono fun u v huv => ?_)
    rw [graphOf_adj] at huv
    rw [deleteEdges_adj, graphOf_adj]
    exact ⟨⟨hEF huv.1, huv.2⟩, fun h => hnot (h ▸ huv.1)⟩

/-- Every spanning tree can be traded for one at most as heavy that contains `E`. -/
def Promising (Vs : Finset V) (G : SimpleGraph V) (w : Sym2 V → ℤ) (E : Finset (Sym2 V)) : Prop :=
  ∀ F, IsSpanningTree Vs G F →
    ∃ M, IsSpanningTree Vs G M ∧ E ⊆ M ∧ totalWeight w M ≤ totalWeight w F

omit [DecidableEq V] in
theorem promising_empty : Promising Vs G w ∅ :=
  fun F hF => ⟨F, hF, Finset.empty_subset F, le_rfl⟩

theorem Promising.insert (hE : Promising Vs G w E) (hxy : G.Adj x y) (hx : x ∈ Vs) (hy : y ∈ Vs)
    (hxC : x ∈ C) (hyC : y ∉ C) (hcut : ∀ a b, s(a, b) ∈ E → a ∈ C → b ∈ C)
    (hmin : ∀ a b, G.Adj a b → a ∈ C → b ∉ C → w s(x, y) ≤ w s(a, b)) :
    Promising Vs G w (insert s(x, y) E) := by
  intro F hF
  obtain ⟨M, hM, hEM, hMF⟩ := hE F hF
  by_cases hmem : s(x, y) ∈ M
  · exact ⟨M, hM, Finset.insert_subset hmem hEM, hMF⟩
  obtain ⟨a, b, hab, ha, hb, hM'⟩ := hM.exchange hxy hx hy hxC hyC
  refine ⟨_, hM', Finset.insert_subset_insert _ fun e he => ?_, ?_⟩
  · refine Finset.mem_erase.mpr ⟨?_, hEM he⟩
    rintro rfl
    exact hb (hcut a b he ha)
  · have := hmin a b (hM.sub _ hab) ha hb
    rw [totalWeight_exchange hmem hab]
    omega

theorem Promising.isMinSpanningTree (hG : ∀ a b, G.Adj a b → a ∈ Vs) (hE : Promising Vs G w E)
    (hspan : IsSpanningTree Vs G E) : IsMinSpanningTree Vs G w E := by
  refine ⟨hspan, fun F hF => ?_⟩
  obtain ⟨M, hM, hEM, hMF⟩ := hE F hF
  rwa [← hspan.eq_of_subset hG hM hEM] at hMF

/-! ## Lighter edges -/

/-- The edges of `G` lighter than `k`. -/
def lighter (G : SimpleGraph V) (w : Sym2 V → ℤ) (k : ℤ) : SimpleGraph V :=
  fromEdgeSet {e | e ∈ G.edgeSet ∧ w e < k}

omit [DecidableEq V] in
theorem lighter_adj {k : ℤ} {a b : V} : (lighter G w k).Adj a b ↔ G.Adj a b ∧ w s(a, b) < k := by
  rw [lighter, fromEdgeSet_adj]
  exact ⟨fun h => h.1, fun h => ⟨h, h.1.ne⟩⟩

omit [DecidableEq V] in
theorem lighter_mono {k k' : ℤ} (h : k ≤ k') : lighter G w k ≤ lighter G w k' := by
  intro a b hab
  obtain ⟨hadj, hlt⟩ := lighter_adj.mp hab
  exact lighter_adj.mpr ⟨hadj, hlt.trans_le h⟩

theorem Promising.insert_of_not_reachable (hE : Promising Vs G w E)
    (hS : ∀ a b, s(a, b) ∈ E → a ∈ S) (hpu : G.Adj p u) (hpV : p ∈ Vs) (huV : u ∈ Vs) (hp : p ∈ S)
    (hlight : ∀ s ∈ S, ¬ (lighter G w (w s(p, u))).Reachable u s) :
    Promising Vs G w (Insert.insert s(p, u) E) := by
  have hsymm : s(p, u) = s(u, p) := Sym2.eq_swap
  rw [hsymm]
  refine hE.insert (C := {v | (lighter G w (w s(p, u))).Reachable u v}) hpu.symm huV hpV (.refl _)
    (hlight p hp) (fun a b hab ha => absurd ha (hlight a (hS a b hab))) fun a b hab ha hb => ?_
  by_contra hlt
  rw [not_le, ← hsymm] at hlt
  exact hb (ha.trans (lighter_adj.mpr ⟨hab, hlt⟩).reachable)

theorem IsMinSpanningTree.not_reachable_lighter (hE : IsMinSpanningTree Vs G w E)
    (hG : ∀ a b, G.Adj a b → a ∈ Vs) (hpu : s(p, u) ∈ E) {s : V}
    (hs : (graphOf (E.erase s(p, u))).Reachable p s) :
    ¬ (lighter G w (w s(p, u))).Reachable u s := by
  rintro ⟨q⟩
  have hadj : G.Adj p u := hE.sub _ hpu
  have hdelete : graphOf (E.erase s(p, u)) = (graphOf E).deleteEdges {s(p, u)} := by
    ext a b
    simp only [graphOf_adj, deleteEdges_adj, Finset.mem_erase, Set.mem_singleton_iff]
    exact ⟨fun h => ⟨⟨h.1.2, h.2⟩, h.1.1⟩, fun h => ⟨⟨h.2, h.1.1⟩, h.1.2⟩⟩
  have hbridge : ¬ (graphOf (E.erase s(p, u))).Reachable p u := by
    rw [hdelete]
    exact isBridge_iff.mp (isAcyclic_iff_forall_adj_isBridge.mp hE.acyclic
      (graphOf_adj.mpr ⟨hpu, hadj.ne⟩))
  -- the side of `u`, left by the light walk at some edge
  obtain ⟨d, hd, hin, hout⟩ := q.exists_boundary_dart
    {v | (graphOf (E.erase s(p, u))).Reachable u v} (.refl _)
    (fun h => hbridge (hs.trans h.symm))
  obtain ⟨hG', hlt⟩ := lighter_adj.mp d.adj
  have hstay : ∀ a b, s(a, b) ∈ E → (graphOf (E.erase s(p, u))).Reachable u a →
      ¬ (graphOf (E.erase s(p, u))).Reachable u b → s(a, b) = s(p, u) := by
    intro a b hab ha hb
    by_contra hne
    exact hb (ha.trans (Adj.reachable (graphOf_adj.mpr
      ⟨Finset.mem_erase.mpr ⟨hne, hab⟩, (hE.sub _ hab : G.Adj a b).ne⟩)))
  obtain ⟨a, b, hab, ha, hb, hF⟩ := hE.exchange hG' (hG _ _ hG') (hG _ _ hG'.symm) hin hout
  have hnew : s(d.fst, d.snd) ∉ E := by
    intro hmem
    rw [hstay _ _ hmem hin hout] at hlt
    exact lt_irrefl _ hlt
  have hle := hE.minimal _ hF
  rw [totalWeight_exchange hnew hab, hstay a b hab ha hb] at hle
  omega

end trees

end CodingForFun.Lib
