import Mathlib.Algebra.BigOperators.Group.Finset.Basic
import Mathlib.Algebra.Order.BigOperators.Group.Finset
import Mathlib.Data.List.Nodup
import Mathlib.Logic.Relation
import Mathlib.Order.Lattice.Nat

/-!
# Exploring a graph

A directed graph is given by the list of the neighbors of each vertex. A search holds the vertices
it has visited (`path`) and those it has still to look at (`frontier`); it looks at one of the
frontier, visits it if that is new and puts its neighbors on the frontier. `Frontier` is what holds
of every such search, in whatever order it takes the frontier, with visited and repeated vertices on
it. With nothing left on the frontier the visited vertices are those in reach. `unexplored` bounds
how much can still be put there.

A search that takes the frontier in the order it was filled goes up by levels: `Levels` splits the
frontier into the vertices of at most `k` edges from the source and the rest, of at most `k + 1`.
-/

namespace CodingForFun.Lib

variable {V : Type} {adj : V → List V} {s u v w : V}

/-- There is a walk from `s` to `v`. -/
def Reach (adj : V → List V) : V → V → Prop := Relation.ReflTransGen fun u v => v ∈ adj u

theorem Reach.refl (s : V) : Reach adj s s := Relation.ReflTransGen.refl

theorem Reach.neighbor (h : Reach adj s u) (hv : v ∈ adj u) : Reach adj s v :=
  Relation.ReflTransGen.tail h hv

theorem Reach.trans (h : Reach adj s u) (h' : Reach adj u v) : Reach adj s v :=
  Relation.ReflTransGen.trans h h'

theorem Reach.mem_of_closed {S : V → Prop} (h : Reach adj s v) (hs : S s)
    (hclosed : ∀ u, S u → ∀ v ∈ adj u, S v) : S v := by
  induction h with
  | refl => exact hs
  | tail _ hv ih => exact hclosed _ ih _ hv

/-! ## Searches -/

/-- The search from `s` has visited `path` and has `frontier` to look at. -/
structure Frontier (adj : V → List V) (s : V) (path frontier : List V) : Prop where
  nodup : path.Nodup
  reach : ∀ v, v ∈ path ∨ v ∈ frontier → Reach adj s v
  source : s ∈ path ∨ s ∈ frontier
  closed : ∀ u ∈ path, ∀ v ∈ adj u, v ∈ path ∨ v ∈ frontier

namespace Frontier

variable {path frontier frontier' rest : List V}

theorem start (adj : V → List V) (s : V) : Frontier adj s [] [s] where
  nodup := List.nodup_nil
  reach v hv := by
    obtain rfl : v = s := by simpa using hv
    exact .refl v
  source := .inr (List.mem_singleton_self s)
  closed u hu := absurd hu List.not_mem_nil

theorem perm (h : Frontier adj s path frontier) (hp : frontier.Perm frontier') :
    Frontier adj s path frontier' where
  nodup := h.nodup
  reach v hv := h.reach v (by rwa [hp.mem_iff])
  source := by rw [← hp.mem_iff]; exact h.source
  closed u hu v hv := by rw [← hp.mem_iff]; exact h.closed u hu v hv

theorem skip (h : Frontier adj s path (v :: rest)) (hv : v ∈ path) : Frontier adj s path rest := by
  have hdrop : ∀ u, u ∈ path ∨ u ∈ v :: rest → u ∈ path ∨ u ∈ rest := by
    intro u hu
    rcases hu with hu | hu
    · exact .inl hu
    · rcases List.mem_cons.mp hu with rfl | hu
      · exact .inl hv
      · exact .inr hu
  refine ⟨h.nodup, fun u hu => h.reach u ?_, hdrop s h.source, fun u hu w hw => ?_⟩
  · exact hu.imp_right (List.mem_cons_of_mem v)
  · exact hdrop w (h.closed u hu w hw)

theorem visit (h : Frontier adj s path (v :: rest)) (hv : v ∉ path) :
    Frontier adj s (path ++ [v]) (rest ++ adj v) := by
  have hmove : ∀ u, u ∈ path ∨ u ∈ v :: rest → u ∈ path ++ [v] ∨ u ∈ rest ++ adj v := by
    intro u hu
    simp only [List.mem_append, List.mem_cons] at hu ⊢
    tauto
  have hreach : Reach adj s v := h.reach v (.inr List.mem_cons_self)
  refine ⟨?_, fun u hu => ?_, hmove s h.source, fun u hu w hw => ?_⟩
  · rw [← List.concat_eq_append]
    exact h.nodup.concat hv
  · simp only [List.mem_append, List.mem_singleton] at hu
    rcases hu with (hu | rfl) | hu | hu
    · exact h.reach u (.inl hu)
    · exact hreach
    · exact h.reach u (.inr (List.mem_cons_of_mem v hu))
    · exact hreach.neighbor hu
  · rcases List.mem_append.mp hu with hu | hu
    · exact hmove w (h.closed u hu w hw)
    · rw [List.mem_singleton.mp hu] at hw
      exact .inr (List.mem_append_right rest hw)

theorem mem_iff (h : Frontier adj s path []) : v ∈ path ↔ Reach adj s v := by
  refine ⟨fun hv => h.reach v (.inl hv), fun hv => ?_⟩
  have hmem : ∀ u, u ∈ path ∨ u ∈ [] → u ∈ path := fun u hu => hu.resolve_right List.not_mem_nil
  exact hv.mem_of_closed (hmem s h.source) fun u hu v hv => hmem v (h.closed u hu v hv)

end Frontier

/-! ### What is still to come -/

section unexplored

variable [DecidableEq V] {Vs : Finset V} {path : List V}

/-- How many neighbors the vertices have that are not visited yet. -/
def unexplored (adj : V → List V) (Vs : Finset V) (path : List V) : ℕ :=
  ∑ v ∈ Vs.filter (· ∉ path), (adj v).length

theorem unexplored_nil (adj : V → List V) (Vs : Finset V) :
    unexplored adj Vs [] = ∑ v ∈ Vs, (adj v).length := by
  simp [unexplored]

theorem unexplored_visit (hv : v ∈ Vs) (hnew : v ∉ path) :
    unexplored adj Vs (path ++ [v]) + (adj v).length = unexplored adj Vs path := by
  have hrest : Vs.filter (· ∉ path ++ [v]) = (Vs.filter (· ∉ path)).erase v := by
    ext u
    simp only [Finset.mem_filter, Finset.mem_erase, List.mem_append, List.mem_singleton]
    tauto
  have hmem : v ∈ Vs.filter (· ∉ path) := Finset.mem_filter.mpr ⟨hv, hnew⟩
  rw [unexplored, unexplored, hrest]
  exact Finset.sum_erase_add _ _ hmem

end unexplored

/-! ## Levels -/

/-- A walk of so many edges. -/
inductive EdgeWalk (adj : V → List V) (s : V) : ℕ → V → Prop
  | nil : EdgeWalk adj s 0 s
  | snoc {n : ℕ} {u v : V} (h : EdgeWalk adj s n u) (hv : v ∈ adj u) : EdgeWalk adj s (n + 1) v

theorem reach_iff_edgeWalk : Reach adj s v ↔ ∃ n, EdgeWalk adj s n v := by
  constructor
  · intro h
    induction h with
    | refl => exact ⟨0, .nil⟩
    | tail _ hv ih =>
      obtain ⟨n, hn⟩ := ih
      exact ⟨n + 1, hn.snoc hv⟩
  · rintro ⟨n, h⟩
    induction h with
    | nil => exact .refl s
    | snoc _ hv ih => exact ih.neighbor hv

/-- The number of edges of a shortest path. -/
noncomputable def hops (adj : V → List V) (s v : V) : ℕ := sInf {n | EdgeWalk adj s n v}

theorem EdgeWalk.hops_le {n : ℕ} (h : EdgeWalk adj s n v) : hops adj s v ≤ n := Nat.sInf_le h

theorem Reach.edgeWalk (h : Reach adj s v) : EdgeWalk adj s (hops adj s v) v :=
  Nat.sInf_mem (reach_iff_edgeWalk.mp h)

theorem hops_self : hops adj s s = 0 := Nat.le_zero.mp EdgeWalk.nil.hops_le

theorem Reach.hops_neighbor (h : Reach adj s u) (hv : v ∈ adj u) :
    hops adj s v ≤ hops adj s u + 1 :=
  (h.edgeWalk.snoc hv).hops_le

theorem Reach.eq_of_hops (h : Reach adj s v) (h0 : hops adj s v = 0) : v = s := by
  have hwalk := h.edgeWalk
  rw [h0] at hwalk
  cases hwalk
  rfl

theorem Reach.exists_hops {n : ℕ} (h : Reach adj s v) (hn : hops adj s v = n + 1) :
    ∃ u, Reach adj s u ∧ hops adj s u = n ∧ v ∈ adj u := by
  have hwalk := h.edgeWalk
  rw [hn] at hwalk
  cases hwalk with
  | @snoc _ u _ hu hv =>
    have hreach : Reach adj s u := reach_iff_edgeWalk.mpr ⟨n, hu⟩
    refine ⟨u, hreach, ?_, hv⟩
    have hle := hu.hops_le
    have hge := hreach.hops_neighbor hv
    omega

/-- The search from `s` is on level `k`: of the frontier it has `front` to look at before `later`. -/
structure Levels (adj : V → List V) (s : V) (k : ℕ) (path front later : List V) : Prop
    extends Frontier adj s path (front ++ later) where
  sorted : path.Pairwise fun u v => hops adj s u ≤ hops adj s v
  path_le : ∀ v ∈ path, hops adj s v ≤ k
  below : ∀ v, Reach adj s v → hops adj s v < k → v ∈ path
  level : ∀ v, Reach adj s v → hops adj s v = k → v ∈ path ∨ v ∈ front
  front_le : ∀ v ∈ front, hops adj s v ≤ k
  later_le : ∀ v ∈ later, hops adj s v ≤ k + 1

namespace Levels

variable {k : ℕ} {path front later : List V}

theorem start (adj : V → List V) (s : V) : Levels adj s 0 [] [s] [] where
  toFrontier := Frontier.start adj s
  sorted := List.Pairwise.nil
  path_le v hv := absurd hv List.not_mem_nil
  below v _ hv := absurd hv (Nat.not_lt_zero _)
  level v hv h0 := .inr (List.mem_singleton.mpr (hv.eq_of_hops h0))
  front_le v hv := by rw [List.mem_singleton.mp hv, hops_self]
  later_le v hv := absurd hv List.not_mem_nil

theorem advance (h : Levels adj s k path [] later) : Levels adj s (k + 1) path later [] where
  toFrontier := by simpa using h.toFrontier
  sorted := h.sorted
  path_le v hv := (h.path_le v hv).trans (Nat.le_succ k)
  below v hv hlt := by
    rcases Nat.lt_succ_iff_lt_or_eq.mp hlt with hlt | heq
    · exact h.below v hv hlt
    · exact (h.level v hv heq).resolve_right List.not_mem_nil
  level v hv heq := by
    obtain ⟨u, hu, hk, huv⟩ := hv.exists_hops heq
    have hpath := (h.level u hu hk).resolve_right List.not_mem_nil
    simpa using h.closed u hpath v huv
  front_le := h.later_le
  later_le v hv := absurd hv List.not_mem_nil

theorem skip (h : Levels adj s k path (v :: front) later) (hv : v ∈ path) :
    Levels adj s k path front later where
  toFrontier := h.toFrontier.skip hv
  sorted := h.sorted
  path_le := h.path_le
  below := h.below
  level u hu hk := by
    rcases h.level u hu hk with hu | hu
    · exact .inl hu
    · rcases List.mem_cons.mp hu with rfl | hu
      · exact .inl hv
      · exact .inr hu
  front_le u hu := h.front_le u (List.mem_cons_of_mem v hu)
  later_le := h.later_le

theorem visit (h : Levels adj s k path (v :: front) later) (hv : v ∉ path) :
    Levels adj s k (path ++ [v]) front (later ++ adj v) := by
  have hreach : Reach adj s v := h.reach v (.inr List.mem_cons_self)
  -- a vertex of a lower level would have been visited
  have hk : hops adj s v = k := by
    apply le_antisymm (h.front_le v List.mem_cons_self)
    by_contra hlt
    exact hv (h.below v hreach (not_le.mp hlt))
  refine ⟨?_, ?_, ?_, ?_, ?_, ?_, ?_⟩
  · rw [← List.append_assoc]
    exact h.toFrontier.visit hv
  · refine List.pairwise_append.mpr ⟨h.sorted, List.pairwise_singleton _ v, fun u hu w hw => ?_⟩
    rw [List.mem_singleton.mp hw, hk]
    exact h.path_le u hu
  · intro u hu
    rcases List.mem_append.mp hu with hu | hu
    · exact h.path_le u hu
    · rw [List.mem_singleton.mp hu, hk]
  · intro u hu hlt
    exact List.mem_append_left _ (h.below u hu hlt)
  · intro u hu huk
    have := h.level u hu huk
    simp only [List.mem_cons, List.mem_append] at this ⊢
    tauto
  · intro u hu
    exact h.front_le u (List.mem_cons_of_mem v hu)
  · intro u hu
    rcases List.mem_append.mp hu with hu | hu
    · exact h.later_le u hu
    · rw [← hk]
      exact hreach.hops_neighbor hu

end Levels

end CodingForFun.Lib
