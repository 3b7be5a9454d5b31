import CodingForFun.GraphProblems.Basic

/-!
# The queue of `dijkstra` and `prim`

`dijkstra` and `prim` keep the same three dictionaries: what is queued, the best value known of each
vertex and its predecessor. `Represents` reads them as one function to labels. `popmin_spec` says
what `popmin` does to a queue: it takes a key of least value, or raises when no value is below 1000.
-/

namespace CodingForFun.GraphProblems

open Lib Dict

variable {V : Type} [DecidableEq V]

/-! ## Input graphs -/

/-- `graph[u][v]`, if there is an edge. -/
def edge (graph : Graph V) (u v : V) : Option ℤ := (graph.lookup u).bind fun row => row.lookup v

/-- An adjacency dictionary in which every neighbour is a vertex. -/
structure DiGraph (V : Type) [DecidableEq V] where
  graph : Graph V
  closed : ∀ u v w, edge graph u v = some w → v ∈ graph

namespace DiGraph

variable (g : DiGraph V)

def vertices : Finset V := g.graph.keys.toFinset

def edge : V → V → Option ℤ := GraphProblems.edge g.graph

theorem mem_keys {v : V} : v ∈ g.graph.keys ↔ v ∈ g.vertices := by
  rw [vertices, List.mem_toFinset]

theorem source_mem {u v : V} {w : ℤ} (h : g.edge u v = some w) : u ∈ g.vertices := by
  obtain ⟨row, hrow, -⟩ := Option.bind_eq_some_iff.mp h
  rw [← g.mem_keys, ← AList.mem_keys, ← AList.lookup_isSome, hrow]
  rfl

theorem target_mem {u v : V} {w : ℤ} (h : g.edge u v = some w) : v ∈ g.vertices := by
  rw [← g.mem_keys, ← AList.mem_keys]
  exact g.closed u v w h

theorem row {u : V} (hu : u ∈ g.vertices) :
    ∃ row, g.graph.getItem u = .ok row ∧ (∀ v, row.lookup v = g.edge u v) := by
  rw [← g.mem_keys, ← AList.mem_keys] at hu
  obtain ⟨row, hlookup, hget⟩ := getItem_of_mem hu
  exact ⟨row, hget, fun v => by rw [edge, GraphProblems.edge, hlookup, Option.bind_some]⟩

end DiGraph

theorem mem_row_keys {row : Dict V Int} {e : V → Option ℤ} (hrow : ∀ v, row.lookup v = e v) {v : V} :
    v ∈ row.keys ↔ ∃ w, e v = some w := by
  rw [← AList.mem_keys, ← AList.lookup_isSome, hrow v, Option.isSome_iff_exists]

/-- The graph of the file's own example. -/
def exampleDict : Graph (Fin 6) :=
  ofList [(0, ofList [(1, 6), (2, 8)]), (1, ofList [(4, 11)]), (2, ofList [(3, 9)]), (3, ∅),
    (4, ofList [(5, 3)]), (5, ofList [(2, 7), (3, 4)])]

def exampleGraph : DiGraph (Fin 6) where
  graph := exampleDict
  closed _ v _ _ := (by decide : ∀ v, v ∈ exampleDict) v

/-! ## `popmin` -/

/-- The best key among those seen so far. -/
def Best (f : V → ℤ) (seen : List V) : ℤ × Option V → Prop
  | (lowest, none) => lowest = 1000 ∧ ∀ v ∈ seen, 1000 ≤ f v
  | (lowest, some u) => u ∈ seen ∧ lowest = f u ∧ f u < 1000 ∧ ∀ v ∈ seen, f u ≤ f v

variable {Q : Finset V} {f : V → ℤ} {pqueue : Dict V Int}

theorem popminStep_best (h : Tabulates pqueue Q f) {seen : List V} {best : ℤ × Option V}
    (hbest : Best f seen best) {v : V} (hv : v ∈ Q) :
    ∃ best', popminStep pqueue best v = .ok best' ∧ Best f (seen ++ [v]) best' := by
  obtain ⟨lowest, keylowest⟩ := best
  simp only [popminStep, h.getItem hv, ok_bind]
  have hlow : lowest ≤ 1000 ∧ ∀ k ∈ seen, lowest ≤ f k := by
    cases keylowest with
    | none => exact ⟨hbest.1.le, fun k hk => hbest.1.trans_le (hbest.2 k hk)⟩
    | some u =>
      obtain ⟨-, rfl, hlt, hmin⟩ := hbest
      exact ⟨hlt.le, hmin⟩
  by_cases hlt : f v < lowest
  · rw [if_pos hlt]
    refine ⟨_, rfl, by simp, rfl, by omega, fun k hk => ?_⟩
    rcases List.mem_append.mp hk with hk | hk
    · exact hlt.le.trans (hlow.2 k hk)
    · rw [List.mem_singleton.mp hk]
  · rw [if_neg hlt]
    refine ⟨_, rfl, ?_⟩
    cases keylowest with
    | none =>
      refine ⟨hbest.1, fun k hk => ?_⟩
      rcases List.mem_append.mp hk with hk | hk
      · exact hbest.2 k hk
      · rw [List.mem_singleton.mp hk, ← hbest.1]
        exact not_lt.mp hlt
    | some u =>
      obtain ⟨hu, rfl, hinf, hmin⟩ := hbest
      refine ⟨List.mem_append_left _ hu, rfl, hinf, fun k hk => ?_⟩
      rcases List.mem_append.mp hk with hk | hk
      · exact hmin k hk
      · rw [List.mem_singleton.mp hk]
        exact not_lt.mp hlt

theorem popminScan_best (h : Tabulates pqueue Q f) (l : List V) (hl : ∀ v ∈ l, v ∈ Q) :
    ∃ best, l.foldlM (popminStep pqueue) (1000, none) = .ok best ∧ Best f l best := by
  have hempty : Best f [] (1000, none) := ⟨rfl, fun _ hv => absurd hv List.not_mem_nil⟩
  apply foldlM_ok (Best f) l hempty
  intro seen v rest best hwhole hbest
  apply popminStep_best h hbest
  apply hl v
  rw [← hwhole]
  exact List.mem_append_right seen List.mem_cons_self

/-- `popmin` takes out a key of least value, or there is no value below 1000 and it raises. -/
theorem popmin_spec (h : Tabulates pqueue Q f) {keys : List V} (hkeys : keys.Perm pqueue.keys) :
    (∃ u pqueue', popmin keys pqueue = .ok (u, pqueue') ∧ u ∈ Q ∧ f u < 1000 ∧
        (∀ v ∈ Q, f u ≤ f v) ∧ Tabulates pqueue' (Q.erase u) f) ∨
      (popmin keys pqueue = .error .keyError ∧ ∀ v ∈ Q, 1000 ≤ f v) := by
  have hmem : ∀ v, v ∈ keys ↔ v ∈ Q := fun v => by rw [hkeys.mem_iff, h.mem_keys]
  obtain ⟨⟨lowest, keylowest⟩, hscan, hbest⟩ := popminScan_best h keys fun v hv => (hmem v).mp hv
  cases keylowest with
  | none =>
    refine .inr ⟨?_, fun v hv => hbest.2 v ((hmem v).mpr hv)⟩
    rw [popmin, hscan, ok_bind]
  | some u =>
    obtain ⟨hu, -, hlt, hmin⟩ := hbest
    obtain ⟨pqueue', hdel, htab⟩ := h.delItem ((hmem u).mp hu)
    refine .inl ⟨u, pqueue', ?_, (hmem u).mp hu, hlt, fun v hv => hmin v ((hmem v).mpr hv), htab⟩
    simp only [popmin, hscan, ok_bind, hdel, pure_eq_ok]

/-! ## Labels -/

/-- What the dictionaries say of a vertex. -/
structure Label (V : Type) where
  value : ℤ
  pred : Option V
  queued : Bool

/-- The vertices in the queue. -/
def queue (Vs : Finset V) (lab : V → Label V) : Finset V := Vs.filter fun v => (lab v).queued = true

/-- The vertices that have left the queue. -/
def settled (Vs : Finset V) (lab : V → Label V) : Finset V :=
  Vs.filter fun v => (lab v).queued = false

variable {Vs : Finset V} {lab : V → Label V} {u v : V}

omit [DecidableEq V] in
theorem mem_queue : v ∈ queue Vs lab ↔ v ∈ Vs ∧ (lab v).queued = true := Finset.mem_filter

omit [DecidableEq V] in
theorem mem_settled : v ∈ settled Vs lab ↔ v ∈ Vs ∧ (lab v).queued = false := Finset.mem_filter

omit [DecidableEq V] in
theorem mem_queue_of_notMem_settled (hv : v ∈ Vs) (h : v ∉ settled Vs lab) : v ∈ queue Vs lab := by
  refine mem_queue.mpr ⟨hv, ?_⟩
  by_contra hq
  exact h (mem_settled.mpr ⟨hv, Bool.eq_false_of_not_eq_true hq⟩)

omit [DecidableEq V] in
theorem notMem_settled_of_mem_queue (h : v ∈ queue Vs lab) : v ∉ settled Vs lab := by
  intro hs
  rw [mem_queue] at h
  rw [mem_settled, h.2] at hs
  exact absurd hs.2 (by simp)

theorem queue_eq_sdiff (Vs : Finset V) (lab : V → Label V) : queue Vs lab = Vs \ settled Vs lab := by
  ext v
  rw [Finset.mem_sdiff]
  constructor
  · intro hv
    exact ⟨(mem_queue.mp hv).1, notMem_settled_of_mem_queue hv⟩
  · intro h
    obtain ⟨hv, hs⟩ := h
    exact mem_queue_of_notMem_settled hv hs

/-- The dictionaries hold the labels. -/
structure Represents (Vs : Finset V) (lab : V → Label V) (pqueue value : Dict V Int)
    (pred : Dict V (Option V)) : Prop where
  pqueue : Tabulates pqueue (queue Vs lab) fun v => (lab v).value
  value : Tabulates value Vs fun v => (lab v).value
  pred : Tabulates pred Vs fun v => (lab v).pred

/-- The label of `u` when it leaves the queue. -/
def Label.leave (l : Label V) : Label V := ⟨l.value, l.pred, false⟩

namespace Represents

variable {value : Dict V Int} {pred : Dict V (Option V)}

theorem pop (h : Represents Vs lab pqueue value pred) (u : V) {pqueue' : Dict V Int}
    (hpop : Tabulates pqueue' ((queue Vs lab).erase u) fun v => (lab v).value) :
    Represents Vs (Function.update lab u (lab u).leave) pqueue' value pred := by
  have hvalue : ∀ v, (Function.update lab u (lab u).leave v).value = (lab v).value := by
    intro v
    by_cases hv : v = u
    · subst hv
      rw [Function.update_self]
      rfl
    · rw [Function.update_of_ne hv]
  have hpred : ∀ v, (Function.update lab u (lab u).leave v).pred = (lab v).pred := by
    intro v
    by_cases hv : v = u
    · subst hv
      rw [Function.update_self]
      rfl
    · rw [Function.update_of_ne hv]
  have hqueue : queue Vs (Function.update lab u (lab u).leave) = (queue Vs lab).erase u := by
    ext v
    rw [mem_queue, Finset.mem_erase, mem_queue]
    by_cases hv : v = u
    · subst hv
      simp [Label.leave]
    · simp [hv]
  refine ⟨?_, h.value.congr fun v _ => (hvalue v).symm, h.pred.congr fun v _ => (hpred v).symm⟩
  rw [hqueue]
  exact hpop.congr fun v _ => (hvalue v).symm

theorem set (h : Represents Vs lab pqueue value pred) (hv : v ∈ Vs) (d : ℤ) (p : Option V) :
    Represents Vs (Function.update lab v ⟨d, p, true⟩) (pqueue.setItem v d) (value.setItem v d)
      (pred.setItem v p) := by
  have hvalue : (fun a => (Function.update lab v ⟨d, p, true⟩ a).value) =
      Function.update (fun a => (lab a).value) v d := by
    funext a
    by_cases ha : a = v
    · subst ha
      simp
    · simp [ha]
  have hpred : (fun a => (Function.update lab v ⟨d, p, true⟩ a).pred) =
      Function.update (fun a => (lab a).pred) v p := by
    funext a
    by_cases ha : a = v
    · subst ha
      simp
    · simp [ha]
  have hqueue : queue Vs (Function.update lab v ⟨d, p, true⟩) = insert v (queue Vs lab) := by
    ext a
    rw [mem_queue, Finset.mem_insert, mem_queue]
    by_cases ha : a = v
    · subst ha
      simp [hv]
    · simp [ha]
  refine ⟨?_, ?_, ?_⟩
  · rw [hqueue, hvalue]
    exact h.pqueue.setItem v d
  · rw [hvalue]
    exact h.value.setItem_mem hv d
  · rw [hpred]
    exact h.pred.setItem_mem hv p

end Represents

theorem settled_leave (hu : u ∈ Vs) :
    settled Vs (Function.update lab u (lab u).leave) = insert u (settled Vs lab) := by
  ext v
  rw [mem_settled, Finset.mem_insert, mem_settled]
  by_cases hv : v = u
  · subst hv
    simp [hu, Label.leave]
  · simp [hv]

/-! ## Before the loop -/

/-- Value 0 for the first vertex, 1000 for the others, and every vertex queued. -/
def initialLabel (start v : V) : Label V := ⟨Function.update (fun _ => (1000 : ℤ)) start 0 v, none, true⟩

theorem initialLabel_self (start : V) : (initialLabel start start).value = 0 := by
  show Function.update (fun _ => (1000 : ℤ)) start 0 start = 0
  rw [Function.update_self]

theorem initialLabel_of_ne {start : V} (hv : v ≠ start) : (initialLabel start v).value = 1000 := by
  show Function.update (fun _ => (1000 : ℤ)) start 0 v = 1000
  rw [Function.update_of_ne hv]

theorem settled_initialLabel (Vs : Finset V) (start : V) : settled Vs (initialLabel start) = ∅ :=
  Finset.filter_eq_empty_iff.mpr fun _ _ => by simp [initialLabel]

theorem enqueueAll_spec {graph : Graph V} {d : Dict V Int} {Vs : Finset V}
    (h : Tabulates d Vs f) (hVs : graph.keys.toFinset ⊆ Vs) :
    ∃ pqueue, enqueueAll graph d = .ok pqueue ∧ Tabulates pqueue graph.keys.toFinset f := by
  have hrun : ∀ (l : List V) (q : Dict V Int), (∀ v ∈ l, v ∈ Vs) →
      l.foldlM (fun q v => do
        let x ← d.getItem v
        pure (q.setItem v x)) q = .ok (q.fill l f) := by
    intro l
    induction l with
    | nil => intro q _; rfl
    | cons v l ih =>
      intro q hl
      rw [List.foldlM_cons, h.getItem (hl v List.mem_cons_self), ok_bind, pure_eq_ok, ok_bind,
        ih _ fun a ha => hl a (List.mem_cons_of_mem v ha)]
      rfl
  exact ⟨_, hrun graph.keys ∅ fun v hv => hVs (List.mem_toFinset.mpr hv), tabulates_fill _ f⟩

theorem represents_initial (g : DiGraph V) {start : V} (hstart : start ∈ g.vertices) :
    ∃ pqueue, enqueueAll g.graph ((fill ∅ g.graph.keys fun _ => 1000).setItem start 0) = .ok pqueue ∧
      Represents g.vertices (initialLabel start) pqueue
        ((fill ∅ g.graph.keys fun _ => 1000).setItem start 0) (fill ∅ g.graph.keys fun _ => none) := by
  have hvalue : Tabulates ((fill ∅ g.graph.keys fun _ => (1000 : ℤ)).setItem start 0) g.vertices
      fun v => (initialLabel start v).value :=
    (tabulates_fill g.graph.keys fun _ => (1000 : ℤ)).setItem_mem hstart 0
  have hkeys : g.graph.keys.toFinset ⊆ g.vertices := Finset.Subset.refl _
  obtain ⟨pqueue, hpqueue, htab⟩ := enqueueAll_spec hvalue hkeys
  refine ⟨pqueue, hpqueue, ?_, hvalue, tabulates_fill _ _⟩
  have hqueue : queue g.vertices (initialLabel start) = g.vertices :=
    Finset.filter_true_of_mem fun _ _ => rfl
  rw [hqueue]
  exact htab

end CodingForFun.GraphProblems
