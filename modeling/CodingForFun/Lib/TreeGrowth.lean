import CodingForFun.Lib.SpanningTree

/-!
# Growing a minimum spanning tree from a root

Prim's algorithm without its queue. The explored vertices `S` carry a tree: `par v` is the vertex
from which `v ≠ r` was explored (`Growth`). Every vertex outside `S` is either not adjacent to `S`
or knows a lightest edge from `S` (`FrontierAt`), which `FrontierAt.relax` keeps up to date when a
vertex is explored. Exploring `u` through its edge keeps the tree promising whenever no lighter
edges lead back from `u` to `S` (`Growth.promising_insert`), and that is so when no vertex outside
`S` has a lighter edge than `u` (`not_reachable_of_least`).
-/

namespace CodingForFun.Lib

open SimpleGraph

variable {V : Type} [DecidableEq V] {G : SimpleGraph V} {w : Sym2 V → ℤ} {inf : ℤ} {Vs S : Finset V}
  {r u p v : V} {par : V → V}

/-- The edges of the vertices of `S` to the vertices they were explored from. -/
def treeEdges (r : V) (par : V → V) (S : Finset V) : Finset (Sym2 V) :=
  (S.erase r).image fun v => s(par v, v)

theorem mem_treeEdges {e : Sym2 V} :
    e ∈ treeEdges r par S ↔ ∃ v ∈ S, v ≠ r ∧ e = s(par v, v) := by
  simp only [treeEdges, Finset.mem_image, Finset.mem_erase]
  constructor
  · intro h
    obtain ⟨v, ⟨hne, hv⟩, rfl⟩ := h
    exact ⟨v, hv, hne, rfl⟩
  · intro h
    obtain ⟨v, hv, hne, rfl⟩ := h
    exact ⟨v, ⟨hne, hv⟩, rfl⟩

@[simp] theorem treeEdges_singleton : treeEdges r par {r} = ∅ := by
  simp [treeEdges]

theorem treeEdges_insert (hu : u ∉ S) (hr : r ∈ S) :
    treeEdges r (Function.update par u p) (insert u S) = insert s(p, u) (treeEdges r par S) := by
  have hur : u ≠ r := fun h => hu (h ▸ hr)
  ext e
  simp only [mem_treeEdges, Finset.mem_insert]
  constructor
  · rintro ⟨v, rfl | hv, hne, rfl⟩
    · exact .inl (by rw [Function.update_self])
    · have hvu : v ≠ u := fun h => hu (h ▸ hv)
      exact .inr ⟨v, hv, hne, by rw [Function.update_of_ne hvu]⟩
  · rintro (rfl | ⟨v, hv, hne, rfl⟩)
    · exact ⟨u, .inl rfl, hur, by rw [Function.update_self]⟩
    · have hvu : v ≠ u := fun h => hu (h ▸ hv)
      exact ⟨v, .inr hv, hne, by rw [Function.update_of_ne hvu]⟩

/-- The explored vertices `S` form a tree. -/
structure Growth (G : SimpleGraph V) (r : V) (S : Finset V) (par : V → V) : Prop where
  root : r ∈ S
  par_mem : ∀ v ∈ S, v ≠ r → par v ∈ S
  adj : ∀ v ∈ S, v ≠ r → G.Adj (par v) v
  reach : ∀ v ∈ S, (graphOf (treeEdges r par S)).Reachable r v
  acyclic : (graphOf (treeEdges r par S)).IsAcyclic

theorem Growth.start (G : SimpleGraph V) (r : V) (par : V → V) : Growth G r {r} par where
  root := Finset.mem_singleton_self r
  par_mem _ hv hne := absurd (Finset.mem_singleton.mp hv) hne
  adj _ hv hne := absurd (Finset.mem_singleton.mp hv) hne
  reach v hv := by rw [Finset.mem_singleton.mp hv]
  acyclic := by simp [graphOf]

theorem Growth.mem_of_mem_treeEdges (h : Growth G r S par) {a b : V}
    (hab : s(a, b) ∈ treeEdges r par S) : a ∈ S := by
  obtain ⟨v, hv, hne, heq⟩ := mem_treeEdges.mp hab
  rcases Sym2.eq_iff.mp heq with ⟨rfl, -⟩ | ⟨rfl, -⟩
  · exact h.par_mem v hv hne
  · exact hv

theorem graphOf_insert {E : Finset (Sym2 V)} : graphOf (insert s(p, u) E) = graphOf E ⊔ edge p u := by
  ext a b
  simp only [graphOf_adj, sup_adj, edge_adj, Finset.mem_insert, Sym2.eq_iff]
  constructor
  · rintro ⟨h | h, hne⟩
    · exact .inr ⟨h, hne⟩
    · exact .inl ⟨h, hne⟩
  · rintro (⟨h, hne⟩ | ⟨h, hne⟩)
    · exact ⟨.inr h, hne⟩
    · exact ⟨.inl h, hne⟩

theorem Growth.not_reachable (h : Growth G r S par) (hp : p ∈ S) (hu : u ∉ S) :
    ¬ (graphOf (treeEdges r par S)).Reachable p u := by
  rintro ⟨q⟩
  obtain ⟨d, -, -, hd⟩ := q.exists_boundary_dart (S : Set V) hp hu
  have hmem := (graphOf_adj.mp d.adj).1
  rw [Sym2.eq_swap] at hmem
  exact hd (h.mem_of_mem_treeEdges hmem)

theorem Growth.insert (h : Growth G r S par) (hu : u ∉ S) (hp : p ∈ S) (hpu : G.Adj p u) :
    Growth G r (insert u S) (Function.update par u p) := by
  have hgraph : graphOf (treeEdges r (Function.update par u p) (Insert.insert u S)) =
      graphOf (treeEdges r par S) ⊔ edge p u := by
    rw [treeEdges_insert hu h.root, graphOf_insert]
  have hedge : (graphOf (treeEdges r par S) ⊔ edge p u).Reachable p u :=
    Adj.reachable (Or.inr (by simp [edge_adj, hpu.ne]))
  have hold : ∀ v ∈ S, (graphOf (treeEdges r par S) ⊔ edge p u).Reachable r v :=
    fun v hv => (h.reach v hv).mono le_sup_left
  constructor
  · exact Finset.mem_insert_of_mem h.root
  · intro v hv hne
    rcases Finset.mem_insert.mp hv with rfl | hv
    · rw [Function.update_self]
      exact Finset.mem_insert_of_mem hp
    · have hvu : v ≠ u := fun heq => hu (heq ▸ hv)
      rw [Function.update_of_ne hvu]
      exact Finset.mem_insert_of_mem (h.par_mem v hv hne)
  · intro v hv hne
    rcases Finset.mem_insert.mp hv with rfl | hv
    · rwa [Function.update_self]
    · have hvu : v ≠ u := fun heq => hu (heq ▸ hv)
      rw [Function.update_of_ne hvu]
      exact h.adj v hv hne
  · intro v hv
    rw [hgraph]
    rcases Finset.mem_insert.mp hv with rfl | hv
    · exact (hold p hp).trans hedge
    · exact hold v hv
  · rw [hgraph]
    exact h.acyclic.sup_edge_of_not_reachable (h.not_reachable hp hu)

theorem Growth.isSpanningTree (h : Growth G r Vs par) : IsSpanningTree Vs G (treeEdges r par Vs) where
  sub e he := by
    obtain ⟨v, hv, hne, rfl⟩ := mem_treeEdges.mp he
    exact h.adj v hv hne
  acyclic := h.acyclic
  connected a ha b hb := (h.reach a ha).symm.trans (h.reach b hb)

/-- The new edge keeps the tree promising when nothing lighter leads back to `S`. -/
theorem Growth.promising_insert (h : Growth G r S par)
    (hprom : Promising Vs G w (treeEdges r par S)) (hS : S ⊆ Vs) (huV : u ∈ Vs) (hu : u ∉ S)
    (hp : p ∈ S) (hpu : G.Adj p u)
    (hlight : ∀ s ∈ S, ¬ (lighter G w (w s(p, u))).Reachable u s) :
    Promising Vs G w (treeEdges r (Function.update par u p) (Insert.insert u S)) := by
  rw [treeEdges_insert hu h.root]
  exact hprom.insert_of_not_reachable (S := (S : Set V)) (fun a b hab => h.mem_of_mem_treeEdges hab)
    hpu (hS hp) huV hp hlight

/-! ## The frontier -/

/-- What a vertex `v` outside `S` knows of its edges from `S`: the vertex `pred` at the other end of
a lightest one, and its weight `key`. -/
def FrontierAt (G : SimpleGraph V) (w : Sym2 V → ℤ) (inf : ℤ) (S : Finset V) (v : V)
    (pred : Option V) (key : ℤ) : Prop :=
  (pred = none ∧ key = inf ∧ ∀ s ∈ S, ¬ G.Adj s v) ∨
    ∃ p ∈ S, pred = some p ∧ G.Adj p v ∧ key = w s(p, v) ∧ ∀ s ∈ S, G.Adj s v → key ≤ w s(s, v)

variable {pred : Option V} {key : ℤ}

omit [DecidableEq V] in
theorem FrontierAt.of_ne_inf (h : FrontierAt G w inf S v pred key) (hkey : key ≠ inf) :
    ∃ p ∈ S, pred = some p ∧ G.Adj p v ∧ key = w s(p, v) := by
  rcases h with ⟨-, hinf, -⟩ | ⟨p, hp, hpred, hadj, hw, -⟩
  · exact absurd hinf hkey
  · exact ⟨p, hp, hpred, hadj, hw⟩

omit [DecidableEq V] in
theorem FrontierAt.key_le (h : FrontierAt G w inf S v pred key) {s : V} (hs : s ∈ S)
    (hadj : G.Adj s v) : key ≤ w s(s, v) := by
  rcases h with ⟨-, -, hnone⟩ | ⟨-, -, -, -, -, hmin⟩
  · exact absurd hadj (hnone s hs)
  · exact hmin s hs hadj

theorem FrontierAt.of_not_adj (h : FrontierAt G w inf S v pred key) (hadj : ¬ G.Adj u v) :
    FrontierAt G w inf (insert u S) v pred key := by
  have hskip : ∀ {s : V}, s ∈ insert u S → G.Adj s v → s ∈ S := fun hs hsv =>
    (Finset.mem_insert.mp hs).resolve_left fun heq => hadj (heq ▸ hsv)
  rcases h with ⟨hpred, hkey, hnone⟩ | ⟨p, hp, hpred, hpv, hkey, hmin⟩
  · exact .inl ⟨hpred, hkey, fun s hs hsv => hnone s (hskip hs hsv) hsv⟩
  · exact .inr ⟨p, Finset.mem_insert_of_mem hp, hpred, hpv, hkey,
      fun s hs hsv => hmin s (hskip hs hsv) hsv⟩

theorem FrontierAt.of_le (h : FrontierAt G w inf S v pred key) (hinf : G.Adj u v → w s(u, v) < inf)
    (hle : key ≤ w s(u, v)) : FrontierAt G w inf (insert u S) v pred key := by
  by_cases hadj : G.Adj u v
  · obtain ⟨p, hp, hpred, hpv, hkey⟩ := h.of_ne_inf (by have := hinf hadj; omega)
    refine .inr ⟨p, Finset.mem_insert_of_mem hp, hpred, hpv, hkey, fun s hs hsv => ?_⟩
    rcases Finset.mem_insert.mp hs with rfl | hs
    · exact hle
    · exact h.key_le hs hsv
  · exact h.of_not_adj hadj

theorem FrontierAt.relax (h : FrontierAt G w inf S v pred key) (hadj : G.Adj u v)
    (hlt : w s(u, v) < key) : FrontierAt G w inf (insert u S) v (some u) (w s(u, v)) := by
  refine .inr ⟨u, Finset.mem_insert_self u S, rfl, hadj, rfl, fun s hs hsv => ?_⟩
  rcases Finset.mem_insert.mp hs with rfl | hs
  · exact le_rfl
  · exact hlt.le.trans (h.key_le hs hsv)

omit [DecidableEq V] in
theorem not_reachable_of_least {pred : V → Option V} {key : V → ℤ}
    (hG : ∀ a b, G.Adj a b → a ∈ Vs) (hfront : ∀ v ∈ Vs, v ∉ S → FrontierAt G w inf S v (pred v) (key v))
    (hu : u ∉ S) (hleast : ∀ v ∈ Vs, v ∉ S → key u ≤ key v) :
    ∀ s ∈ S, ¬ (lighter G w (key u)).Reachable u s := by
  rintro s hs ⟨q⟩
  obtain ⟨d, -, hin, hout⟩ := q.exists_boundary_dart {v | v ∉ S} hu (fun h => h hs)
  obtain ⟨hadj, hlt⟩ := lighter_adj.mp d.adj
  have hV := hG _ _ hadj
  have hle := (hfront d.fst hV hin).key_le (not_not.mp hout) hadj.symm
  have := hleast d.fst hV hin
  rw [Sym2.eq_swap] at hlt
  omega

/-- `u` has an edge to `S`, and nothing lighter than it leads from `u` to `S`. -/
def HasLightEdge (G : SimpleGraph V) (w : Sym2 V → ℤ) (S : Finset V) (u : V) : Prop :=
  ∃ p ∈ S, G.Adj p u ∧ ∀ s ∈ S, ¬ (lighter G w (w s(p, u))).Reachable u s

omit [DecidableEq V] in
theorem FrontierAt.not_reachable (h : FrontierAt G w inf S v pred key) (hlight : HasLightEdge G w S v) :
    ∀ s ∈ S, ¬ (lighter G w key).Reachable v s := by
  obtain ⟨p, hp, hadj, hnone⟩ := hlight
  intro s hs hreach
  exact hnone s hs (hreach.mono (lighter_mono (h.key_le hp hadj)))

/-- A vertex has a light edge to `S` if it has one to `A` together with any one vertex of `S`. -/
theorem HasLightEdge.of_cover {A : Finset V} (hne : S.Nonempty) (hA : A ⊆ S)
    (hall : ∀ s ∈ S, HasLightEdge G w (insert s A) u) : HasLightEdge G w S u := by
  classical
  have hsub : ∀ s ∈ S, insert s A ⊆ S := fun s hs => Finset.insert_subset hs hA
  have hadjs : (S.filter fun p => G.Adj p u).Nonempty := by
    obtain ⟨s, hs⟩ := hne
    obtain ⟨p, hp, hadj, -⟩ := hall s hs
    exact ⟨p, Finset.mem_filter.mpr ⟨hsub s hs hp, hadj⟩⟩
  obtain ⟨p, hp, hmin⟩ := Finset.exists_min_image _ (fun p => w s(p, u)) hadjs
  obtain ⟨hpS, hpu⟩ := Finset.mem_filter.mp hp
  refine ⟨p, hpS, hpu, fun s hs hreach => ?_⟩
  -- the edge that serves for `s` is no lighter than the one of `p`
  obtain ⟨p', hp', hadj', hnone⟩ := hall s hs
  have hle := hmin p' (Finset.mem_filter.mpr ⟨hsub s hs hp', hadj'⟩)
  exact hnone s (Finset.mem_insert_self s A) (hreach.mono (lighter_mono hle))

end CodingForFun.Lib
