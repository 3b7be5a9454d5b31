import CodingForFun.PrimPqueue.Round
import CodingForFun.Lib.TreeGrowth

/-!
# When `prim` finds a minimum spanning tree

`pq_changepriority` leaves a queue that need not be a heap, so the vertex `prim` explores next is
the one at the root of the array and not always one of least key. `prim_correct_iff` says when the
result is right all the same: exactly when, each time a vertex leaves the queue, it knows an edge to
an explored vertex (`key < INF`) and no edges lighter than that one lead back from it to the explored
vertices (`SafeRoot`). Which vertices these are depends on where the earlier pops have left the keys
in the array. Vertex 2 always is explored after vertex 0, so it has to have a light edge to it; that
every vertex has one to any set with 0 and 2 is enough (`Anchored`, `prim_correct_of_anchored`).

Both directions follow the loop heads of a run (`PrimReach`). Whatever leaves the queue, the
vertices still queued know their lightest edge (`Head`). If every root is safe the explored
vertices carry a promising tree; if the result is a minimum spanning tree its edges are the ones
the vertices left the queue with, and none of them can be traded for lighter edges.
-/

namespace CodingForFun.PrimPqueue

open Lib PriorityQueue

/-- An input of `prim`: a symmetric matrix in which `INF` marks a missing edge and every other
weight is below `INF`. -/
structure WeightMatrix where
  graph : Graph
  symm : ∀ u v, graph u v = graph v u
  le_inf : ∀ u v, graph u v ≤ INF

namespace WeightMatrix

variable (g : WeightMatrix)

/-- The graph of a matrix; an entry on the diagonal is no edge of it. -/
def toGraph : SimpleGraph (Fin SIZE) where
  Adj u v := u ≠ v ∧ g.graph u v ≠ INF
  symm := ⟨fun u v h => ⟨h.1.symm, by rw [g.symm]; exact h.2⟩⟩
  loopless := ⟨fun _ h => h.1 rfl⟩

/-- The weight of an edge. -/
def weight : Sym2 (Fin SIZE) → ℤ := Sym2.lift ⟨g.graph, g.symm⟩

@[simp] theorem weight_mk (u v : Fin SIZE) : g.weight s(u, v) = g.graph u v := rfl

theorem weight_lt {u v : Fin SIZE} (h : g.toGraph.Adj u v) : g.weight s(u, v) < INF :=
  lt_of_le_of_ne (g.le_inf u v) h.2

end WeightMatrix

/-- The vertex a `pred` entry names, if any. -/
def predVertex (p : Int) : Option (Fin SIZE) :=
  if h : 0 ≤ p ∧ p < SIZE then some ⟨p.toNat, toNat_lt_size h⟩ else none

@[simp] theorem predVertex_neg : predVertex (-1) = none := rfl

@[simp] theorem predVertex_val (u : Fin SIZE) : predVertex u.val = some u := by
  have := u.isLt
  rw [predVertex, dif_pos ⟨by omega, by exact_mod_cast this⟩]
  rfl

/-- The result wanted of `prim`. -/
def PrimCorrect (g : WeightMatrix) : Prop :=
  ∃ pred, prim g.graph = .ok pred ∧ pred 0 = -1 ∧
    ∃ par : Fin SIZE → Fin SIZE, (∀ v, v ≠ 0 → pred v = (par v).val) ∧
      IsMinSpanningTree Finset.univ g.toGraph g.weight (treeEdges 0 par Finset.univ)

/-- The states at the head of the `while` loop. -/
inductive PrimReach (graph : Graph) : PrimState → Prop
  | init (st : PrimState) (h : primInit = .ok st) : PrimReach graph st
  | round (st st' : PrimState) (h : PrimReach graph st) (hn : 0 < st.pq.n)
      (hround : primRound graph st = .ok st') : PrimReach graph st'

/-- The vertex at the root of the queue knows an edge to an explored vertex, and no lighter edges
lead back from it to the explored vertices. Vertex 0, explored first, needs no edge. -/
def SafeRoot (g : WeightMatrix) (st : PrimState) : Prop :=
  ∀ u : Fin SIZE, (st.pq.elem 0).data = u.val → u ≠ 0 →
    st.key u < INF ∧ ∀ s ∈ explored st, ¬ (lighter g.toGraph g.weight (st.key u)).Reachable u s

/-! ## What holds at every loop head -/

/-- The explored vertices are those that left the queue, 0 first, and the queued ones know their
lightest edge. -/
structure Head (g : WeightMatrix) (S : Finset (Fin SIZE)) (st : PrimState) : Prop extends
    Queued S st where
  pred_zero : st.pred 0 = -1
  first : S = ∅ → (st.pq.elem 0).data = 0
  zero_mem : S ≠ ∅ → 0 ∈ S
  frontier : ∀ v, v ∉ S → v ≠ 0 →
    FrontierAt g.toGraph g.weight INF S v (predVertex (st.pred v)) (st.key v)

theorem pushAll_spec (key : Fin SIZE → Int) :
    ∀ (l : List (Fin SIZE)) (q : Pq), Valid q → IsHeap q → 2 * (q.n + l.length) ≤ intMax →
      ∃ q', l.foldlM (fun q (i : Fin SIZE) => pqPush (some intMax) q i.val (key i)) q = .ok q' ∧ Valid q' ∧
        IsHeap q' ∧ stored q' = Multiset.map (fun i => ⟨i.val, key i⟩) (l : Multiset (Fin SIZE)) + stored q := by
  intro l
  induction l with
  | nil => intro q h hq _; exact ⟨q, rfl, h, hq, by simp⟩
  | cons i l ih =>
    intro q h hq hn
    rw [List.length_cons] at hn
    have hgrow : CanGrow (some intMax) q := canGrow_of_le (by omega)
    obtain ⟨q₁, hpush, hvalid, hstored, horder⟩ := h.push hgrow i.val (key i)
    have hn₁ : q₁.n = q.n + 1 := by rw [← card_stored, hstored, Multiset.card_cons, card_stored]
    obtain ⟨q₂, hfold, hvalid₂, hheap₂, hstored₂⟩ := ih q₁ hvalid (horder hq) (by omega)
    refine ⟨q₂, by rw [List.foldlM_cons, hpush, ok_bind, hfold], hvalid₂, hheap₂, ?_⟩
    rw [hstored₂, hstored, ← Multiset.cons_coe, Multiset.map_cons, Multiset.add_cons, Multiset.cons_add]

theorem primInit_head (g : WeightMatrix) : ∃ st, primInit = .ok st ∧ Head g ∅ st := by
  obtain ⟨pq, hpush, hvalid, hheap, hstored⟩ := pushAll_spec initKey (List.finRange SIZE) _
    (pqNew_valid SIZE) (isHeap_pqNew SIZE) (by decide)
  rw [stored_pqNew, add_zero] at hstored
  have hqueued : Queued ∅ ⟨initKey, fun _ => -1, pq⟩ := by
    refine ⟨hvalid, ?_⟩
    rw [hstored, queueOf, Finset.compl_empty]
    rfl
  have hn : 0 < pq.n := by
    rw [← card_stored, hstored]
    simp
  refine ⟨⟨initKey, fun _ => -1, pq⟩, ?_, hqueued, rfl, fun _ => ?_, fun h => absurd rfl h,
    fun v _ hv => ?_⟩
  · simp only [primInit, pushAll, hpush, ok_bind, pure_eq_ok]
  · -- the only key below `INF` is that of vertex 0
    obtain ⟨u, -, hu⟩ := hqueued.root hn
    have hmem : (⟨0, 0⟩ : PqElement) ∈ stored pq := by
      rw [hqueued.stored]
      exact mem_queueOf.mpr ⟨0, Finset.notMem_empty 0, rfl⟩
    have hle : (pq.elem 0).priority ≤ 0 := hheap.root_le_of_mem hmem
    simp only at hu
    rw [hu] at hle ⊢
    by_cases hu0 : u = 0
    · rw [hu0]; rfl
    · rw [initKey_of_ne hu0] at hle
      exact absurd (show INF ≤ 0 from hle) (by decide)
  · exact .inl ⟨rfl, initKey_of_ne hv, fun s hs => absurd hs (Finset.notMem_empty s)⟩

theorem Head.round {g : WeightMatrix} {S : Finset (Fin SIZE)} {st : PrimState} (h : Head g S st)
    (hn : 0 < st.pq.n) {u : Fin SIZE} (hu : u ∉ S) (hroot : st.pq.elem 0 = ⟨u.val, st.key u⟩) :
    ∃ st', primRound g.graph st = .ok st' ∧ Head g (insert u S) st' ∧
      ∀ v ∈ insert u S, st'.pred v = st.pred v := by
  obtain ⟨st', hst', hrel⟩ := primRound_spec h.toQueued hn hu hroot g.graph
  have hfixed : ∀ v ∈ insert u S, st'.key v = st.key v ∧ st'.pred v = st.pred v := fun v hv =>
    hrel.kept v fun himp => himp.2.1 hv
  have hzero : 0 ∈ insert u S := by
    by_cases hS : S = ∅
    · have hfirst := h.first hS
      rw [hroot] at hfirst
      rw [show u = 0 from Fin.ext (Int.ofNat_inj.mp hfirst)]
      exact Finset.mem_insert_self _ _
    · exact Finset.mem_insert_of_mem (h.zero_mem hS)
  refine ⟨st', hst', ⟨hrel.toQueued, ?_, fun hS => ?_, fun _ => hzero, fun v hv hv0 => ?_⟩,
    fun v hv => (hfixed v hv).2⟩
  · rw [(hfixed 0 hzero).2, h.pred_zero]
  · exact absurd hS (Finset.insert_ne_empty u S)
  · have hvS : v ∉ S := fun hmem => hv (Finset.mem_insert_of_mem hmem)
    have hvu : u ≠ v := fun heq => hv (heq ▸ Finset.mem_insert_self u S)
    have hold := h.frontier v hvS hv0
    by_cases himp : Improves (insert u S) (g.graph u) st.key v
    · obtain ⟨hkey, hpred⟩ := hrel.improved v (List.mem_finRange v) himp
      rw [hkey, hpred, predVertex_val]
      exact hold.relax ⟨hvu, himp.2.1⟩ himp.2.2
    · obtain ⟨hkey, hpred⟩ := hrel.kept v fun hmem => himp hmem.2
      rw [hkey, hpred]
      by_cases hedge : g.graph u v = INF
      · exact hold.of_not_adj fun hadj => hadj.2 hedge
      · exact hold.of_le g.weight_lt (not_lt.mp fun hlt => himp ⟨hv, hedge, hlt⟩)

/-! ## Runs -/

theorem primCond_eq (st : PrimState) : primCond st = .ok (decide (0 < st.pq.n)) := rfl

theorem PrimReach.head {g : WeightMatrix} {st : PrimState} (h : PrimReach g.graph st) :
    Head g (explored st) st ∧
      ∃ fuel, st.pq.n < fuel ∧
        prim g.graph = (whileM .unbounded primCond (primRound g.graph) fuel st).map (·.pred) := by
  induction h with
  | init st hst =>
    obtain ⟨st', hst', hhead⟩ := primInit_head g
    rw [hst] at hst'
    obtain rfl := Except.ok.inj hst'
    rw [hhead.explored]
    have hcard := hhead.card
    refine ⟨hhead, SIZE + 1, by omega, ?_⟩
    rw [prim, hst, ok_bind]
    cases whileM .unbounded primCond (primRound g.graph) (SIZE + 1) st <;> rfl
  | round st st' _ hn hround ih =>
    obtain ⟨hhead, fuel, hfuel, hprim⟩ := ih
    obtain ⟨u, hu, hroot⟩ := hhead.root hn
    obtain ⟨st₁, hround₁, h₁, -⟩ := hhead.round hn hu hroot
    rw [hround] at hround₁
    obtain rfl := Except.ok.inj hround₁
    have hcard := hhead.card
    have hcard₁ := h₁.card
    rw [Finset.card_insert_of_notMem hu] at hcard₁
    rw [h₁.explored]
    obtain ⟨fuel, rfl⟩ : ∃ m, fuel = m + 1 := ⟨fuel - 1, by omega⟩
    refine ⟨h₁, fuel, by omega, ?_⟩
    rw [hprim, whileM_true fuel (by simp [primCond_eq, hn]) hround]

theorem PrimReach.next {g : WeightMatrix} {st : PrimState} (h : PrimReach g.graph st)
    (hn : 0 < st.pq.n) :
    ∃ u st', u ∉ explored st ∧ st.pq.elem 0 = ⟨u.val, st.key u⟩ ∧ primRound g.graph st = .ok st' ∧
      PrimReach g.graph st' ∧ explored st' = insert u (explored st) ∧ st'.pq.n + 1 = st.pq.n ∧
      ∀ v ∈ insert u (explored st), st'.pred v = st.pred v := by
  have hhead := h.head.1
  obtain ⟨u, hu, hroot⟩ := hhead.root hn
  obtain ⟨st', hround, h', hfixed⟩ := hhead.round hn hu hroot
  have hcard := hhead.card
  have hcard' := h'.card
  rw [Finset.card_insert_of_notMem hu] at hcard'
  exact ⟨u, st', hu, hroot, hround, h.round st st' hn hround, h'.explored, by omega, hfixed⟩

/-- From a loop head the loop goes on to a head with an empty queue, and the predecessors of the
explored vertices stay as they are. -/
theorem PrimReach.finish {g : WeightMatrix} : ∀ (k : ℕ) (st : PrimState) (fuel : ℕ),
    PrimReach g.graph st → st.pq.n = k → k < fuel →
      ∃ st', whileM .unbounded primCond (primRound g.graph) fuel st = .ok st' ∧
        PrimReach g.graph st' ∧ st'.pq.n = 0 ∧ ∀ v ∈ explored st, st'.pred v = st.pred v := by
  intro k
  induction k with
  | zero =>
    intro st fuel h hk hfuel
    obtain ⟨fuel, rfl⟩ : ∃ m, fuel = m + 1 := ⟨fuel - 1, by omega⟩
    exact ⟨st, whileM_false _ (by simp [primCond_eq, hk]), h, hk, fun _ _ => rfl⟩
  | succ k ih =>
    intro st fuel h hk hfuel
    obtain ⟨fuel, rfl⟩ : ∃ m, fuel = m + 1 := ⟨fuel - 1, by omega⟩
    obtain ⟨u, st₁, -, -, hround, h₁, hexplored, hn, hfixed⟩ := h.next (by omega)
    obtain ⟨st', hloop, hreach, hend, hkeep⟩ := ih st₁ fuel h₁ (by omega) (by omega)
    refine ⟨st', ?_, hreach, hend, fun v hv => ?_⟩
    · rw [whileM_true fuel (by simp [primCond_eq, hk]) hround, hloop]
    · have hv' : v ∈ insert u (explored st) := Finset.mem_insert_of_mem hv
      rw [hkeep v (hexplored ▸ hv'), hfixed v hv']

/-- `prim` always returns, and the vertices explored at a loop head keep their predecessors. -/
theorem PrimReach.prim_eq {g : WeightMatrix} {st : PrimState} (h : PrimReach g.graph st) :
    ∃ st', prim g.graph = .ok st'.pred ∧ PrimReach g.graph st' ∧ explored st' = Finset.univ ∧
      ∀ v ∈ explored st, st'.pred v = st.pred v := by
  obtain ⟨fuel, hfuel, hprim⟩ := h.head.2
  obtain ⟨st', hloop, hreach, hend, hkeep⟩ := PrimReach.finish _ st fuel h rfl hfuel
  refine ⟨st', by rw [hprim, hloop]; rfl, hreach, ?_, hkeep⟩
  have hcard := hreach.head.1.card
  exact Finset.eq_univ_of_card _ (by rw [Fintype.card_fin]; omega)

/-! ## Safe roots give a minimum spanning tree -/

/-- The explored vertices carry a promising tree. -/
def Promised (g : WeightMatrix) (st : PrimState) : Prop :=
  ∃ par : Fin SIZE → Fin SIZE, (∀ v ∈ explored st, v ≠ 0 → st.pred v = (par v).val) ∧
    (explored st ≠ ∅ → Growth g.toGraph 0 (explored st) par ∧
      Promising Finset.univ g.toGraph g.weight (treeEdges 0 par (explored st)))

theorem PrimReach.promised {g : WeightMatrix}
    (hsafe : ∀ st, PrimReach g.graph st → 0 < st.pq.n → SafeRoot g st) {st : PrimState}
    (h : PrimReach g.graph st) : Promised g st := by
  induction h with
  | init st hst =>
    obtain ⟨st', hst', hhead⟩ := primInit_head g
    rw [hst] at hst'
    obtain rfl := Except.ok.inj hst'
    refine ⟨id, fun v hv => ?_, fun hne => absurd hhead.explored hne⟩
    rw [hhead.explored] at hv
    exact absurd hv (Finset.notMem_empty v)
  | round st st' h hn hround ih =>
    obtain ⟨par, hpar, htree⟩ := ih
    obtain ⟨u, st₁, hu, hroot, hround₁, -, hexplored, -, hfixed⟩ := h.next hn
    rw [hround] at hround₁
    obtain rfl := Except.ok.inj hround₁
    have hhead := h.head.1
    by_cases hS : explored st = ∅
    · -- the first round explores vertex 0
      have hfirst := hhead.first hS
      rw [hroot] at hfirst
      obtain rfl : u = 0 := Fin.ext (Int.ofNat_inj.mp hfirst)
      rw [hS, insert_empty_eq] at hexplored
      refine ⟨par, fun v hv hv0 => ?_, fun _ => ?_⟩
      · rw [hexplored] at hv
        exact absurd (Finset.mem_singleton.mp hv) hv0
      · rw [hexplored, treeEdges_singleton]
        exact ⟨Growth.start .., promising_empty⟩
    · obtain ⟨hgrowth, hprom⟩ := htree hS
      have hu0 : u ≠ 0 := fun heq => hu (heq ▸ hgrowth.root)
      obtain ⟨hlt, hlight⟩ := hsafe st h hn u (by rw [hroot]) hu0
      obtain ⟨p, hp, hpred, hadj, hkey⟩ := (hhead.frontier u hu hu0).of_ne_inf (ne_of_lt hlt)
      have hpredu : st.pred u = p.val := by
        unfold predVertex at hpred
        split at hpred
        · obtain rfl := Option.some.inj hpred
          simp only
          omega
        · simp at hpred
      rw [hkey] at hlight
      refine ⟨Function.update par u p, fun v hv hv0 => ?_, fun _ => ?_⟩
      · rw [hexplored] at hv
        rw [hfixed v hv]
        rcases Finset.mem_insert.mp hv with rfl | hv
        · rw [Function.update_self, hpredu]
        · have hvu : v ≠ u := fun heq => hu (heq ▸ hv)
          rw [Function.update_of_ne hvu, hpar v hv hv0]
      · rw [hexplored]
        exact ⟨hgrowth.insert hu hp hadj, hgrowth.promising_insert hprom (Finset.subset_univ _)
          (Finset.mem_univ u) hu hp hadj hlight⟩

/-! ## A minimum spanning tree has safe roots -/

/-- The result is a minimum spanning tree with the edges `par`. -/
structure Result (g : WeightMatrix) (pred : Fin SIZE → Int) (par : Fin SIZE → Fin SIZE) : Prop where
  returned : prim g.graph = .ok pred
  pred_eq : ∀ v, v ≠ 0 → pred v = (par v).val
  tree : IsMinSpanningTree Finset.univ g.toGraph g.weight (treeEdges 0 par Finset.univ)

theorem Result.edge {g : WeightMatrix} {pred : Fin SIZE → Int} {par : Fin SIZE → Fin SIZE}
    (hres : Result g pred par) {st : PrimState} (h : PrimReach g.graph st) (hn : 0 < st.pq.n)
    {u : Fin SIZE} (hu : u ∉ explored st) (hu0 : u ≠ 0) (hroot : st.pq.elem 0 = ⟨u.val, st.key u⟩) :
    par u ∈ explored st ∧ g.toGraph.Adj (par u) u ∧ st.key u = g.weight s(par u, u) := by
  have hhead := h.head.1
  obtain ⟨st₁, hround, h₁, hfixed⟩ := hhead.round hn hu hroot
  obtain ⟨st', hprim, -, -, hkeep⟩ := (h.round st st₁ hn hround).prim_eq
  rw [hres.returned] at hprim
  obtain rfl := Except.ok.inj hprim
  have hmem : u ∈ explored st₁ := h₁.explored ▸ Finset.mem_insert_self u _
  have hpred : predVertex (st.pred u) = some (par u) := by
    rw [← hfixed u (Finset.mem_insert_self u _), ← hkeep u hmem, hres.pred_eq u hu0, predVertex_val]
  rcases hhead.frontier u hu hu0 with ⟨hnone, -⟩ | ⟨p, hp, hsome, hadj, hkey, -⟩
  · rw [hpred] at hnone
    exact absurd hnone (by simp)
  · rw [hpred] at hsome
    obtain rfl := Option.some.inj hsome
    exact ⟨hp, hadj, hkey⟩

theorem Result.growth {g : WeightMatrix} {pred : Fin SIZE → Int} {par : Fin SIZE → Fin SIZE}
    (hres : Result g pred par) {st : PrimState} (h : PrimReach g.graph st) (hS : explored st ≠ ∅) :
    Growth g.toGraph 0 (explored st) par := by
  induction h with
  | init st hst =>
    obtain ⟨st', hst', hhead⟩ := primInit_head g
    rw [hst] at hst'
    obtain rfl := Except.ok.inj hst'
    exact absurd hhead.explored hS
  | round st st' h hn hround ih =>
    obtain ⟨u, st₁, hu, hroot, hround₁, -, hexplored, -, -⟩ := h.next hn
    rw [hround] at hround₁
    obtain rfl := Except.ok.inj hround₁
    rw [hexplored]
    by_cases hS : explored st = ∅
    · have hfirst := h.head.1.first hS
      rw [hroot] at hfirst
      obtain rfl : u = 0 := Fin.ext (Int.ofNat_inj.mp hfirst)
      rw [hS, insert_empty_eq]
      exact Growth.start ..
    · have hgrowth := ih hS
      have hu0 : u ≠ 0 := fun heq => hu (heq ▸ hgrowth.root)
      obtain ⟨hp, hadj, -⟩ := hres.edge h hn hu hu0 hroot
      have := hgrowth.insert hu hp hadj
      rwa [Function.update_eq_self] at this

theorem Result.safeRoot {g : WeightMatrix} {pred : Fin SIZE → Int} {par : Fin SIZE → Fin SIZE}
    (hres : Result g pred par) {st : PrimState} (h : PrimReach g.graph st) (hn : 0 < st.pq.n) :
    SafeRoot g st := by
  intro u hdata hu0
  have hhead := h.head.1
  obtain ⟨u', hu, hroot⟩ := hhead.root hn
  rw [hroot] at hdata
  obtain rfl : u' = u := Fin.ext (Int.ofNat_inj.mp hdata)
  obtain ⟨hp, hadj, hkey⟩ := hres.edge h hn hu hu0 hroot
  refine ⟨by rw [hkey]; exact g.weight_lt hadj, fun s hs => ?_⟩
  have hgrowth := hres.growth h (Finset.ne_empty_of_mem hs)
  have hmem : s(par u', u') ∈ treeEdges 0 par Finset.univ :=
    mem_treeEdges.mpr ⟨u', Finset.mem_univ u', hu0, rfl⟩
  rw [hkey]
  apply hres.tree.not_reachable_lighter (fun a _ _ => Finset.mem_univ a) hmem
  -- the explored vertices hang together without the edge of `u'`
  refine ((hgrowth.reach _ hp).symm.trans (hgrowth.reach s hs)).mono (graphOf_mono fun e he => ?_)
  obtain ⟨v, hv, hv0, rfl⟩ := mem_treeEdges.mp he
  refine Finset.mem_erase.mpr ⟨fun heq => hu ?_, mem_treeEdges.mpr ⟨v, Finset.mem_univ v, hv0, rfl⟩⟩
  have hswap : s(u', par u') ∈ treeEdges 0 par (explored st) := by
    rw [Sym2.eq_swap, ← heq]
    exact he
  exact hgrowth.mem_of_mem_treeEdges hswap

/-- **When `prim` is right.** `prim` leaves a minimum spanning tree in `pred` exactly when every
vertex that reaches the root of the queue is safe to explore there. -/
theorem prim_correct_iff (g : WeightMatrix) :
    PrimCorrect g ↔ ∀ st, PrimReach g.graph st → 0 < st.pq.n → SafeRoot g st := by
  constructor
  · rintro ⟨pred, hprim, -, par, hpar, htree⟩ st hst hn
    exact Result.safeRoot ⟨hprim, hpar, htree⟩ hst hn
  · intro hsafe
    obtain ⟨st₀, hst₀, -⟩ := primInit_head g
    have h₀ : PrimReach g.graph st₀ := .init st₀ hst₀
    obtain ⟨st, hprim, hreach, hexplored, -⟩ := h₀.prim_eq
    obtain ⟨par, hpar, htree⟩ := hreach.promised hsafe
    rw [hexplored] at hpar htree
    obtain ⟨hgrowth, hprom⟩ := htree (Finset.univ_nonempty.ne_empty)
    exact ⟨st.pred, hprim, hreach.head.1.pred_zero, par, fun v hv => hpar v (Finset.mem_univ v) hv,
      hprom.isMinSpanningTree (fun a _ _ => Finset.mem_univ a) hgrowth.isSpanningTree⟩

/-! ## A condition on the matrix -/

theorem PrimReach.explored_ne_empty {g : WeightMatrix} {st : PrimState} (h : PrimReach g.graph st) :
    primInit = .ok st ∨ explored st ≠ ∅ := by
  cases h with
  | init _ hst => exact .inl hst
  | round st₀ _ h hn hround =>
    obtain ⟨u, st₁, -, -, hround₁, -, hexplored, -, -⟩ := h.next hn
    obtain rfl := Except.ok.inj (hround.symm.trans hround₁)
    exact .inr (hexplored ▸ Finset.insert_ne_empty u _)

theorem primInit_pop : (primInit >>= fun st => pqPop (some intMax) st.pq).map (fun r => (r.2.elem 0).data) =
    .ok 2 := by
  decide +kernel

theorem PrimReach.second {g : WeightMatrix} {st : PrimState} (h : PrimReach g.graph st)
    (hS : explored st = {0}) : (st.pq.elem 0).data = 2 := by
  cases h with
  | init _ hst =>
    obtain ⟨st', hst', hhead⟩ := primInit_head g
    obtain rfl := Except.ok.inj (hst.symm.trans hst')
    rw [hhead.explored] at hS
    exact absurd hS.symm (Finset.singleton_ne_empty 0)
  | round st₀ _ h hn hround =>
    obtain ⟨u, st₁, hu, -, hround₁, -, hexplored, -, -⟩ := h.next hn
    obtain rfl := Except.ok.inj (hround.symm.trans hround₁)
    rcases h.explored_ne_empty with hinit | hne
    · rw [primRound] at hround
      obtain ⟨⟨out, pq⟩, hpop, hround⟩ := exists_of_bind_eq_ok hround
      obtain ⟨row, -, hrelax⟩ := exists_of_bind_eq_ok hround
      have hdata := primInit_pop
      rw [hinit, ok_bind, hpop] at hdata
      rw [primRelax_foldlM_data 0 _ hrelax]
      exact Except.ok.inj hdata
    · -- two vertices have been explored
      obtain ⟨v, hv⟩ := Finset.nonempty_iff_ne_empty.mpr hne
      have hmem : ∀ x ∈ insert u (explored st₀), x = 0 := fun x hx =>
        Finset.mem_singleton.mp (hS ▸ hexplored ▸ hx)
      have huv : u = v := (hmem u (Finset.mem_insert_self u _)).trans
        (hmem v (Finset.mem_insert_of_mem hv)).symm
      exact absurd (huv ▸ hv) hu

theorem PrimReach.two_mem {g : WeightMatrix} {st : PrimState} (h : PrimReach g.graph st) :
    explored st = ∅ ∨ explored st = {0} ∨ {0, 2} ⊆ explored st := by
  induction h with
  | init st hst =>
    obtain ⟨st', hst', hhead⟩ := primInit_head g
    obtain rfl := Except.ok.inj (hst.symm.trans hst')
    exact .inl hhead.explored
  | round st st' h hn hround ih =>
    obtain ⟨u, st₁, -, hroot, hround₁, -, hexplored, -, -⟩ := h.next hn
    obtain rfl := Except.ok.inj (hround.symm.trans hround₁)
    rw [hexplored]
    rcases ih with hS | hS | hS
    · have hfirst := h.head.1.first hS
      rw [hroot] at hfirst
      obtain rfl : u = 0 := Fin.ext (Int.ofNat_inj.mp hfirst)
      exact .inr (.inl (by rw [hS, insert_empty_eq]))
    · have hsecond := h.second hS
      rw [hroot] at hsecond
      obtain rfl : u = 2 := Fin.ext (Int.ofNat_inj.mp hsecond)
      exact .inr (.inr (by rw [hS, Finset.pair_comm]))
    · exact .inr (.inr (hS.trans (Finset.subset_insert u _)))

theorem Head.safeRoot {g : WeightMatrix} {S : Finset (Fin SIZE)} {st : PrimState} (h : Head g S st) {u : Fin SIZE}
    (hu : u ∉ S) (hu0 : u ≠ 0) (hlight : HasLightEdge g.toGraph g.weight S u) :
    st.key u < INF ∧ ∀ s ∈ S, ¬ (lighter g.toGraph g.weight (st.key u)).Reachable u s := by
  have hfront := h.frontier u hu hu0
  refine ⟨?_, hfront.not_reachable hlight⟩
  obtain ⟨p, hp, hadj, -⟩ := hlight
  exact (hfront.key_le hp hadj).trans_lt (g.weight_lt hadj)

/-- Vertex 2 has a light edge to vertex 0, and every vertex has one to 0, 2 and any third vertex. -/
structure Anchored (g : WeightMatrix) : Prop where
  second : HasLightEdge g.toGraph g.weight {0} 2
  others : ∀ s u : Fin SIZE, u ∉ ({s, 0, 2} : Finset (Fin SIZE)) → HasLightEdge g.toGraph g.weight {s, 0, 2} u

theorem Anchored.safeRoot {g : WeightMatrix} (hanchored : Anchored g) {st : PrimState} (h : PrimReach g.graph st)
    (hn : 0 < st.pq.n) : SafeRoot g st := by
  intro u hdata hu0
  have hhead := h.head.1
  obtain ⟨u', hu, hroot⟩ := hhead.root hn
  rw [hroot] at hdata
  obtain rfl : u' = u := Fin.ext (Int.ofNat_inj.mp hdata)
  refine hhead.safeRoot hu hu0 ?_
  rcases h.two_mem with hS | hS | hS
  · have hfirst := hhead.first hS
    rw [hroot] at hfirst
    exact absurd (Fin.ext (Int.ofNat_inj.mp hfirst)) hu0
  · have hsecond := h.second hS
    rw [hroot] at hsecond
    obtain rfl : u' = 2 := Fin.ext (Int.ofNat_inj.mp hsecond)
    exact hS ▸ hanchored.second
  · refine .of_cover ⟨0, hS (by simp)⟩ hS fun s hs => hanchored.others s u' fun hmem => hu ?_
    rcases Finset.mem_insert.mp hmem with rfl | hmem
    · exact hs
    · exact hS hmem

theorem exists_second (g : WeightMatrix) :
    ∃ st, PrimReach g.graph st ∧ 0 < st.pq.n ∧ explored st = {0} ∧ (st.pq.elem 0).data = 2 := by
  obtain ⟨st₀, hst₀, hhead⟩ := primInit_head g
  have h₀ : PrimReach g.graph st₀ := .init st₀ hst₀
  have hcard := hhead.card
  rw [Finset.card_empty, Nat.add_zero] at hcard
  obtain ⟨u, st, -, hroot, -, h, hexplored, hn, -⟩ := h₀.next (hcard ▸ by decide)
  have hfirst := hhead.first rfl
  rw [hroot] at hfirst
  obtain rfl : u = 0 := Fin.ext (Int.ofNat_inj.mp hfirst)
  rw [hhead.explored, insert_empty_eq] at hexplored
  have hsize : SIZE = 8 := rfl
  exact ⟨st, h, by omega, hexplored, h.second hexplored⟩

theorem second_of_primCorrect {g : WeightMatrix} (hcorrect : PrimCorrect g) :
    HasLightEdge g.toGraph g.weight {0} 2 := by
  obtain ⟨st, h, hn, hS, hdata⟩ := exists_second g
  obtain ⟨hlt, hlight⟩ := (prim_correct_iff g).mp hcorrect st h hn 2 hdata (by decide)
  have hu : (2 : Fin SIZE) ∉ explored st := by rw [hS]; decide
  obtain ⟨p, hp, -, hadj, hkey⟩ := (h.head.1.frontier 2 hu (by decide)).of_ne_inf hlt.ne
  rw [hS] at hp hlight
  rw [hkey] at hlight
  exact ⟨p, hp, hadj, hlight⟩

/-- The star around vertex 0. -/
def star0 : WeightMatrix where
  graph u v := if u ≠ v ∧ (u = 0 ∨ v = 0) then 1 else INF
  symm := by decide
  le_inf := by decide

theorem hasLightEdge_star0 {S : Finset (Fin SIZE)} {u : Fin SIZE} (hS : 0 ∈ S) (hu : u ∉ S) :
    HasLightEdge star0.toGraph star0.weight S u := by
  have hu0 : 0 ≠ u := fun heq => hu (heq ▸ hS)
  have hweight : star0.graph 0 u = 1 := if_pos ⟨hu0, .inl rfl⟩
  have hbot : lighter star0.toGraph star0.weight 1 = ⊥ := by
    refine eq_bot_iff.mpr fun a b hab => ?_
    obtain ⟨hadj, hlt⟩ := lighter_adj.mp hab
    have hall : ∀ a b, 1 ≤ star0.graph a b := by decide
    exact absurd (hall a b) (not_le.mpr hlt)
  refine ⟨0, hS, ⟨hu0, by rw [hweight]; decide⟩, fun s hs hreach => ?_⟩
  rw [WeightMatrix.weight_mk, hweight, hbot, SimpleGraph.reachable_bot] at hreach
  exact hu (hreach ▸ hs)

/-- The star around vertex 1. -/
def star : WeightMatrix where
  graph u v := if u ≠ v ∧ (u = 1 ∨ v = 1) then 1 else INF
  symm := by decide
  le_inf := by decide

end CodingForFun.PrimPqueue
