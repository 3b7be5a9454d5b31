import CodingForFun.GraphProblems.Exploring

/-!
# Depth-first search

`recursive_dfs` is started with some of the graph visited already. What it leaves (`Traversed`) is
closed under neighbors except for those visited before, so no argument about unvisited walks is
needed: the vertices the caller had visited are closed in the end because the caller goes on with
its own neighbors.

The stack of `iterative_dfs` is the list of the calls that `recursive_dfs` has still to make on the
graph with every adjacency list reversed, the next one on top; a visited vertex on the stack is a
neighbor that `recursive_dfs` passes over.
-/

namespace CodingForFun.GraphProblems

open Lib Dict

variable {V : Type} {s v : V} {path p p' : List V}

/-! ## `recursive_dfs` -/

/-- What a call with `path` leaves. -/
structure Traversed (adj : V → List V) (s : V) (path p : List V) : Prop where
  start : path ++ [s] <+: p
  nodup : p.Nodup
  reach : ∀ v ∈ p, v ∉ path → Reach adj s v
  closed : ∀ u ∈ p, u ∉ path → ∀ v ∈ adj u, v ∈ p

/-- The same in the middle of the loop, when the neighbors `done` have been looked at. -/
structure Traversing (adj : V → List V) (s : V) (path done p : List V) : Prop where
  start : path ++ [s] <+: p
  nodup : p.Nodup
  reach : ∀ v ∈ p, v ∉ path → Reach adj s v
  closed : ∀ u ∈ p, u ∉ path → u ≠ s → ∀ v ∈ adj u, v ∈ p
  looked : ∀ v ∈ done, v ∈ p

namespace Traversing

variable {adj : V → List V} {done : List V} {node : V}

theorem enter (hnodup : path.Nodup) (hs : s ∉ path) : Traversing adj s path [] (path ++ [s]) := by
  have hnew : ∀ v ∈ path ++ [s], v ∉ path → v = s := by
    intro v hv hpath
    exact List.mem_singleton.mp ((List.mem_append.mp hv).resolve_left hpath)
  refine ⟨List.prefix_rfl, ?_, fun v hv hpath => ?_, fun u hu hpath hne => ?_, fun v hv => ?_⟩
  · rw [← List.concat_eq_append]
    exact hnodup.concat hs
  · rw [hnew v hv hpath]
    exact .refl s
  · exact absurd (hnew u hu hpath) hne
  · exact absurd hv List.not_mem_nil

theorem skip (h : Traversing adj s path done p) (hnode : node ∈ p) :
    Traversing adj s path (done ++ [node]) p where
  start := h.start
  nodup := h.nodup
  reach := h.reach
  closed := h.closed
  looked v hv := by
    rcases List.mem_append.mp hv with hv | hv
    · exact h.looked v hv
    · rwa [List.mem_singleton.mp hv]

theorem call (h : Traversing adj s path done p) (hnode : node ∈ adj s)
    (hcall : Traversed adj node p p') : Traversing adj s path (done ++ [node]) p' := by
  have hgrow : p <+: p' := (List.prefix_append p [node]).trans hcall.start
  refine ⟨h.start.trans hgrow, hcall.nodup, fun v hv hpath => ?_, fun u hu hpath hne v hv => ?_,
    fun v hv => ?_⟩
  · by_cases hvp : v ∈ p
    · exact h.reach v hvp hpath
    · exact (Reach.neighbor (.refl s) hnode).trans (hcall.reach v hv hvp)
  · by_cases hup : u ∈ p
    · exact hgrow.subset (h.closed u hup hpath hne v hv)
    · exact hcall.closed u hu hup v hv
  · rcases List.mem_append.mp hv with hv | hv
    · exact hgrow.subset (h.looked v hv)
    · apply hcall.start.subset
      exact List.mem_append_right p hv

theorem leave (h : Traversing adj s path (adj s) p) : Traversed adj s path p where
  start := h.start
  nodup := h.nodup
  reach := h.reach
  closed u hu hpath v hv := by
    by_cases hus : u = s
    · subst hus
      exact h.looked v hv
    · exact h.closed u hu hpath hus v hv

end Traversing

variable [DecidableEq V]

/-- The loop body of `recursive_dfs`. -/
def descend (graph : Dict V (List V)) (fuel : ℕ) (path : List V) (node : V) :
    Except PyError (List V) :=
  if node ∉ path then recursiveDfs graph fuel node path else pure path

theorem descend_mem {graph : Dict V (List V)} {fuel : ℕ} (hv : v ∈ path) :
    descend graph fuel path v = .ok path := if_neg (not_not.mpr hv)

theorem descend_new {graph : Dict V (List V)} {fuel : ℕ} (hv : v ∉ path) :
    descend graph fuel path v = recursiveDfs graph fuel v path := if_pos hv

theorem recursiveDfs_succ (graph : Dict V (List V)) (fuel : ℕ) (s : V) (path : List V) :
    recursiveDfs graph (fuel + 1) s path =
      (graph.getItem s >>= fun neighbors => neighbors.foldlM (descend graph fuel) (path ++ [s])) :=
  rfl

/-- The vertices that are not visited, which bound the depth of the calls. -/
def unvisited (g : ListGraph V) (path : List V) : Finset V := g.vertices.filter (· ∉ path)

theorem unvisited_lt {g : ListGraph V} (hs : s ∈ g.vertices) (hnew : s ∉ path)
    (hp : path ++ [s] <+: p) : (unvisited g p).card < (unvisited g path).card := by
  apply Finset.card_lt_card
  have hsub : ∀ v ∈ path ++ [s], v ∈ p := fun v hv => hp.subset hv
  refine (Finset.ssubset_iff_of_subset fun v hv => ?_).mpr ⟨s, ?_, fun hs' => ?_⟩
  · obtain ⟨hv, hvp⟩ := Finset.mem_filter.mp hv
    exact Finset.mem_filter.mpr ⟨hv, fun hpath => hvp (hsub v (List.mem_append_left _ hpath))⟩
  · exact Finset.mem_filter.mpr ⟨hs, hnew⟩
  · exact (Finset.mem_filter.mp hs').2 (hsub s (by simp))

theorem recursiveDfs_traversed (g : ListGraph V) :
    ∀ (fuel : ℕ) (s : V) (path : List V), s ∈ g.vertices → s ∉ path → path.Nodup →
      (unvisited g path).card ≤ fuel →
      ∃ p, recursiveDfs g.graph fuel s path = .ok p ∧ Traversed g.adj s path p := by
  intro fuel
  induction fuel with
  | zero =>
    intro s path hs hnew _ hfuel
    have hempty := Finset.card_eq_zero.mp (Nat.le_zero.mp hfuel)
    have hmem : s ∈ unvisited g path := Finset.mem_filter.mpr ⟨hs, hnew⟩
    rw [hempty] at hmem
    exact absurd hmem (Finset.notMem_empty s)
  | succ fuel ih =>
    intro s path hs hnew hnodup hfuel
    rw [recursiveDfs_succ, g.getItem hs, ok_bind]
    obtain ⟨p, hp, hinv⟩ : ∃ p, (g.adj s).foldlM (descend g.graph fuel) (path ++ [s]) = .ok p ∧
        Traversing g.adj s path (g.adj s) p := by
      apply foldlM_ok (fun done p => Traversing g.adj s path done p) _ (.enter hnodup hnew)
      intro done node rest p hdone hinv
      have hnode : node ∈ g.adj s := by
        rw [← hdone]
        exact List.mem_append_right done List.mem_cons_self
      by_cases hvisited : node ∈ p
      · exact ⟨p, descend_mem hvisited, hinv.skip hvisited⟩
      · have hlt := unvisited_lt hs hnew hinv.start
        obtain ⟨p', hp', hcall⟩ := ih node p (g.adj_mem hnode) hvisited hinv.nodup (by omega)
        exact ⟨p', by rw [descend_new hvisited, hp'], hinv.call hnode hcall⟩
    exact ⟨p, hp, hinv.leave⟩

theorem recursiveDfs_start (g : ListGraph V) (hs : s ∈ g.vertices) {fuel : ℕ}
    (hfuel : g.vertices.card ≤ fuel) :
    ∃ p, recursiveDfs g.graph fuel s [] = .ok p ∧ Traversed g.adj s [] p := by
  apply recursiveDfs_traversed g fuel s [] hs List.not_mem_nil List.nodup_nil
  exact (Finset.card_filter_le _ _).trans hfuel

/-- `recursive_dfs(graph, start)` returns the vertices in reach of `start`, `start` first and each
of them once. -/
theorem recursiveDfs_reachable (g : ListGraph V) {start : V} (hstart : start ∈ g.vertices) {fuel : ℕ}
    (hfuel : g.vertices.card ≤ fuel) :
    ∃ rest, recursiveDfs g.graph fuel start [] = .ok (start :: rest) ∧ (start :: rest).Nodup ∧
      ∀ v, v ∈ start :: rest ↔ Reach g.adj start v := by
  obtain ⟨p, hp, h⟩ := recursiveDfs_start g hstart hfuel
  obtain ⟨rest, rfl⟩ := h.start
  refine ⟨rest, hp, h.nodup, fun v => ⟨fun hv => h.reach v hv List.not_mem_nil, fun hv => ?_⟩⟩
  exact hv.mem_of_closed List.mem_cons_self fun u hu => h.closed u hu List.not_mem_nil

theorem recursiveDfs_reachable_example :
    ∃ rest, recursiveDfs exploringGraph.graph 5 .A [] = .ok (Letter.A :: rest) ∧ (Letter.A :: rest).Nodup ∧
      ∀ v, v ∈ Letter.A :: rest ↔ Reach exploringGraph.adj .A v :=
  recursiveDfs_reachable exploringGraph (by decide) (by decide)

example : recursiveDfs exploringDict 5 .A [] = .ok [.A, .B, .D, .E, .C] := by decide

/-! ## `iterative_dfs` -/

theorem descend_mono_of {graph : Dict V (List V)} {fuel : ℕ}
    (hcall : recursiveDfs graph fuel v path = .ok p → recursiveDfs graph (fuel + 1) v path = .ok p)
    (h : descend graph fuel path v = .ok p) : descend graph (fuel + 1) path v = .ok p := by
  by_cases hvisited : v ∈ path
  · rw [descend_mem hvisited] at h ⊢
    exact h
  · rw [descend_new hvisited] at h ⊢
    exact hcall h

theorem recursiveDfs_mono {graph : Dict V (List V)} :
    ∀ (fuel : ℕ) (s : V) (path p : List V), recursiveDfs graph fuel s path = .ok p →
      recursiveDfs graph (fuel + 1) s path = .ok p := by
  intro fuel
  induction fuel with
  | zero => intro s path p h; exact absurd h (by simp [recursiveDfs])
  | succ fuel ih =>
    intro s path p h
    rw [recursiveDfs_succ] at h ⊢
    cases hrow : graph.getItem s with
    | error e => simp [hrow] at h
    | ok neighbors =>
      rw [hrow, ok_bind] at h
      rw [ok_bind]
      exact foldlM_refines (fun path node p hnode => descend_mono_of (ih node path p) hnode) h

theorem descend_mono {graph : Dict V (List V)} {fuel : ℕ} (h : descend graph fuel path v = .ok p) :
    descend graph (fuel + 1) path v = .ok p :=
  descend_mono_of (recursiveDfs_mono fuel v path p) h

/-- The calls that `recursive_dfs` has still to make, for it to return `p`. -/
def Pending (graph : Dict V (List V)) (fuel : ℕ) (p : List V) (s : SearchState V) : Prop :=
  s.pending.reverse.foldlM (descend graph fuel) s.path = .ok p

variable {g : ListGraph V} {stack : List V} {fuel : ℕ}

theorem Pending.skip (h : Pending g.reversed.graph fuel p ⟨path, stack ++ [v]⟩) (hv : v ∈ path) :
    Pending g.reversed.graph fuel p ⟨path, stack⟩ := by
  rw [Pending, List.reverse_concat, List.foldlM_cons, descend_mem hv, ok_bind] at h
  exact h

theorem Pending.visit (h : Pending g.reversed.graph fuel p ⟨path, stack ++ [v]⟩) (hv : v ∈ g.vertices)
    (hnew : v ∉ path) : Pending g.reversed.graph fuel p ⟨path ++ [v], stack ++ g.adj v⟩ := by
  rw [Pending, List.reverse_concat, List.foldlM_cons, descend_new hnew] at h
  cases fuel with
  | zero => simp [recursiveDfs] at h
  | succ fuel =>
    rw [recursiveDfs_succ, g.reversed.getItem (by rwa [g.vertices_reversed]), g.adj_reversed,
      ok_bind] at h
    cases hcall : (g.adj v).reverse.foldlM (descend g.reversed.graph fuel) (path ++ [v]) with
    | error e => simp [hcall] at h
    | ok p₁ =>
      rw [hcall, ok_bind] at h
      have hcall' := foldlM_refines (fun _ _ _ => descend_mono) hcall
      rw [Pending, List.reverse_append, List.foldlM_append, hcall', ok_bind]
      exact h

theorem dfsStep_append (graph : Dict V (List V)) (path stack : List V) (v : V) :
    dfsStep graph ⟨path, stack ++ [v]⟩ = look graph path v stack := by
  simp [dfsStep]

/-- `iterative_dfs(graph, start)` returns what `recursive_dfs` returns on the graph with every
adjacency list reversed. -/
theorem iterativeDfs_eq_recursiveDfs (g : ListGraph V) {start : V} (hstart : start ∈ g.vertices)
    {depth rounds : ℕ} (hdepth : g.vertices.card ≤ depth) (hrounds : g.edges + 1 < rounds) :
    ∃ path, iterativeDfs g.graph rounds start = .ok path ∧
      recursiveDfs g.reversed.graph depth start [] = .ok path := by
  have hstart' : start ∈ g.reversed.vertices := by rwa [g.vertices_reversed]
  have hdepth' : g.reversed.vertices.card ≤ depth := by rwa [g.vertices_reversed]
  obtain ⟨p, hp, -⟩ := recursiveDfs_start g.reversed hstart' hdepth'
  obtain ⟨s', hs', hpath⟩ : ∃ s', whileM .unbounded searchGoesOn (dfsStep g.graph) rounds
      ⟨[], [start]⟩ = .ok s' ∧ s'.path = p := by
    refine whileM_ok
      (fun s => Pending g.reversed.graph depth p s ∧ ∀ v ∈ s.pending, v ∈ g.vertices)
      (SearchState.work g) ?_ _ _ ⟨?_, ?_⟩ ?_
    · rintro ⟨path, stack⟩ ⟨hinv, hmem⟩
      rcases List.eq_nil_or_concat stack with rfl | ⟨stack, v, rfl⟩
      · exact .inr ⟨rfl, Except.ok.inj hinv⟩
      · rw [List.concat_eq_append] at hinv hmem ⊢
        have hv : v ∈ g.vertices := hmem v (by simp)
        have hrest : ∀ w ∈ stack, w ∈ g.vertices := fun w hw => hmem w (List.mem_append_left _ hw)
        left
        rw [dfsStep_append, SearchState.work, List.length_append, List.length_singleton]
        by_cases hvisited : v ∈ path
        · exact ⟨⟨path, stack⟩, by simp [searchGoesOn], look_skip hvisited _,
            ⟨hinv.skip hvisited, hrest⟩, work_skip⟩
        · refine ⟨⟨path ++ [v], stack ++ g.adj v⟩, by simp [searchGoesOn], look_visit hv hvisited,
            ⟨hinv.visit hv hvisited, fun w hw => ?_⟩, work_visit hv hvisited⟩
          exact (List.mem_append.mp hw).elim (hrest w) g.adj_mem
    · rw [Pending, List.reverse_singleton, List.foldlM_cons, descend_new List.not_mem_nil, hp]
      rfl
    · intro v hv
      rwa [List.mem_singleton.mp hv]
    · rwa [work_start]
  exact ⟨p, by rw [iterativeDfs, hs', ok_bind, hpath, pure_eq_ok], hp⟩

theorem iterativeDfs_eq_recursiveDfs_example :
    ∃ path, iterativeDfs exploringGraph.graph 10 .A = .ok path ∧
      recursiveDfs exploringGraph.reversed.graph 5 .A [] = .ok path :=
  iterativeDfs_eq_recursiveDfs exploringGraph (by decide) (by decide) (by decide)

example : iterativeDfs exploringDict 10 .A = .ok [.A, .C, .E, .D, .B] := by decide

end CodingForFun.GraphProblems
