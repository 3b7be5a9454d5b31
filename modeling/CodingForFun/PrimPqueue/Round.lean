import CodingForFun.PrimPqueue.Basic
import Mathlib.Data.Fintype.Card

/-!
# One round of `prim`

The queue of a running `prim` holds every unexplored vertex once, with its key (`queueOf`); this
does not depend on the order of the array. Exploring the vertex at the root relaxes every vertex
still queued: `primRound_spec` gives the keys and predecessors a round leaves.
-/

namespace CodingForFun.PrimPqueue

open Lib Lib.MinHeap PriorityQueue

/-- What the queue holds when the vertices `S` are explored. -/
def queueOf (S : Finset (Fin SIZE)) (key : Fin SIZE → Int) : Multiset PqElement :=
  (Sᶜ).val.map fun v => ⟨v.val, key v⟩

/-- The vertices no longer in the queue. -/
def explored (st : PrimState) : Finset (Fin SIZE) :=
  Finset.univ.filter fun v => ∀ e ∈ stored st.pq, e.data ≠ v.val

/-- The queue holds the unexplored vertices with their keys. -/
structure Queued (S : Finset (Fin SIZE)) (st : PrimState) : Prop where
  valid : Valid st.pq
  stored : stored st.pq = queueOf S st.key

theorem mem_queueOf {S : Finset (Fin SIZE)} {key : Fin SIZE → Int} {e : PqElement} :
    e ∈ queueOf S key ↔ ∃ v, v ∉ S ∧ e = ⟨v.val, key v⟩ := by
  simp only [queueOf, Multiset.mem_map, Finset.mem_val, Finset.mem_compl]
  exact exists_congr fun v => and_congr_right fun _ => eq_comm

theorem queued_iff {S : Finset (Fin SIZE)} {key : Fin SIZE → Int} (v : Fin SIZE) :
    (∃ e ∈ queueOf S key, e.data = v.val) ↔ v ∉ S := by
  constructor
  · intro h
    obtain ⟨e, he, hdata⟩ := h
    obtain ⟨v', hv', rfl⟩ := mem_queueOf.mp he
    rwa [show v' = v from Fin.ext (Int.ofNat_inj.mp hdata)] at hv'
  · intro hv
    exact ⟨⟨v.val, key v⟩, mem_queueOf.mpr ⟨v, hv, rfl⟩, rfl⟩

theorem Queued.explored {S : Finset (Fin SIZE)} {st : PrimState} (h : Queued S st) :
    explored st = S := by
  ext v
  rw [PrimPqueue.explored, Finset.mem_filter, h.stored]
  have hq : (∃ e ∈ queueOf S st.key, e.data = v.val) ↔ v ∉ S := queued_iff v
  simp only [Finset.mem_univ, true_and]
  constructor
  · intro hall
    by_contra hv
    obtain ⟨e, he, hdata⟩ := hq.mpr hv
    exact hall e he hdata
  · intro hv e he hdata
    exact hq.mp ⟨e, he, hdata⟩ hv

theorem queueOf_insert {S : Finset (Fin SIZE)} {u : Fin SIZE} (hu : u ∉ S) (key : Fin SIZE → Int) :
    queueOf S key = ⟨u.val, key u⟩ ::ₘ queueOf (insert u S) key := by
  have hcompl : Sᶜ = insert u (insert u S)ᶜ := by
    ext v
    by_cases hv : v = u
    · subst hv; simp [hu]
    · simp [hv]
  have hnot : u ∉ (insert u S)ᶜ := by simp
  rw [queueOf, hcompl, Finset.insert_val_of_notMem hnot, Multiset.map_cons]
  rfl

theorem queueOf_update {S : Finset (Fin SIZE)} {v : Fin SIZE} (hv : v ∉ S) (key : Fin SIZE → Int)
    (x : Int) :
    queueOf S (Function.update key v x) = ⟨v.val, x⟩ ::ₘ (queueOf S key).erase ⟨v.val, key v⟩ := by
  have hfun : (fun v' : Fin SIZE => (⟨v'.val, Function.update key v x v'⟩ : PqElement)) =
      Function.update (fun v' : Fin SIZE => ⟨v'.val, key v'⟩) v ⟨v.val, x⟩ := by
    funext v'
    by_cases h : v' = v
    · subst h; simp
    · simp [h]
  rw [queueOf, hfun, map_update (Sᶜ).nodup (Finset.mem_val.mpr (Finset.mem_compl.mpr hv))]
  rfl

/-- Whether exploring a vertex with the row `row` improves the key of `v`. -/
def Improves (S : Finset (Fin SIZE)) (row key : Fin SIZE → Int) (v : Fin SIZE) : Prop :=
  v ∉ S ∧ row v ≠ INF ∧ row v < key v

instance (S : Finset (Fin SIZE)) (row key : Fin SIZE → Int) (v : Fin SIZE) :
    Decidable (Improves S row key v) := inferInstanceAs (Decidable (_ ∧ _ ∧ _))

/-- The state after the vertices `l` were relaxed from `u`. -/
structure Relaxed (S : Finset (Fin SIZE)) (u : Int) (row : Fin SIZE → Int) (l : List (Fin SIZE))
    (st st' : PrimState) : Prop extends Queued S st' where
  improved : ∀ v ∈ l, Improves S row st.key v → st'.key v = row v ∧ st'.pred v = u
  kept : ∀ v, ¬ (v ∈ l ∧ Improves S row st.key v) → st'.key v = st.key v ∧ st'.pred v = st.pred v

theorem primRelax_spec {S : Finset (Fin SIZE)} {st : PrimState} (h : Queued S st) (u : Int)
    (row : Fin SIZE → Int) (v : Fin SIZE) :
    ∃ st', primRelax u row st v = .ok st' ∧ Relaxed S u row [v] st st' := by
  have hsame : ¬ Improves S row st.key v → Relaxed S u row [v] st st := fun hno =>
    { h with
      improved := fun v' hv' himp => absurd (List.mem_singleton.mp hv' ▸ himp) hno
      kept := fun _ _ => ⟨rfl, rfl⟩ }
  by_cases hedge : row v = INF
  · exact ⟨st, by simp [primRelax, hedge], hsame fun himp => himp.2.1 hedge⟩
  obtain ⟨b, hb, hbiff⟩ := pqHaskey_spec h.valid v.val
  rw [h.stored, queued_iff] at hbiff
  cases b with
  | false =>
    exact ⟨st, by simp [primRelax, hb], hsame fun himp => absurd (hbiff.mpr himp.1) (by simp)⟩
  | true =>
    have hv : v ∉ S := hbiff.mp rfl
    by_cases hlt : row v < st.key v
    · have hpresent : ∃ e ∈ stored st.pq, e.data = v.val := by
        rw [h.stored]
        exact (queued_iff v).mpr hv
      obtain ⟨i, hi⟩ := exists_firstAt hpresent
      have hchange := hi.changepriority h.valid (row v)
      have helem : st.pq.elem i = ⟨v.val, st.key v⟩ := by
        have hmem : st.pq.elem i ∈ stored st.pq := mem_contents.mpr ⟨i, hi.lt, rfl⟩
        rw [h.stored] at hmem
        obtain ⟨v', -, hv'⟩ := mem_queueOf.mp hmem
        have hdata := hi.data_eq
        rw [hv'] at hdata ⊢
        rw [show v' = v from Fin.ext (Int.ofNat_inj.mp hdata)]
      refine ⟨_, by simp [primRelax, hedge, hb, hlt, hchange]; rfl, ?_, ?_, ?_⟩
      · refine ⟨setPriority_valid h.valid hi.lt _, ?_⟩
        show stored (setPriority st.pq i (row v)) = queueOf S (Function.update st.key v (row v))
        rw [stored_setPriority h.valid hi.lt, helem, h.stored, queueOf_update hv]
      · intro v' hv' _
        obtain rfl := List.mem_singleton.mp hv'
        exact ⟨Function.update_self .., Function.update_self ..⟩
      · intro v' hv'
        have hne : v' ≠ v := by
          rintro rfl
          exact hv' ⟨List.mem_singleton_self v', hv, hedge, hlt⟩
        exact ⟨Function.update_of_ne hne .., Function.update_of_ne hne ..⟩
    · exact ⟨st, by simp [primRelax, hb, hlt], hsame fun himp => hlt himp.2.2⟩

theorem primRelax_data {u : Int} {row : Fin SIZE → Int} {st st' : PrimState} {v : Fin SIZE}
    (h : primRelax u row st v = .ok st') (j : ℕ) : (st'.pq.elem j).data = (st.pq.elem j).data := by
  have hsame : (.ok st : Except Fault PrimState) = .ok st' → (st'.pq.elem j).data = (st.pq.elem j).data :=
    fun heq => by rw [Except.ok.inj heq]
  rw [primRelax] at h
  split at h
  · obtain ⟨found, -, h⟩ := exists_of_bind_eq_ok h
    split at h
    · split at h
      · obtain ⟨pq, hchange, h⟩ := exists_of_bind_eq_ok h
        obtain rfl := Except.ok.inj h
        exact pqChangepriority_data hchange j
      · exact hsame h
    · exact hsame h
  · exact hsame h

theorem primRelax_foldlM_data {u : Int} {row : Fin SIZE → Int} (j : ℕ) :
    ∀ (l : List (Fin SIZE)) {st st' : PrimState}, l.foldlM (primRelax u row) st = .ok st' →
      (st'.pq.elem j).data = (st.pq.elem j).data := by
  intro l
  induction l with
  | nil =>
    intro st st' h
    rw [← Except.ok.inj h]
  | cons v l ih =>
    intro st st' h
    rw [List.foldlM_cons] at h
    obtain ⟨st₁, hfirst, hrest⟩ := exists_of_bind_eq_ok h
    rw [ih hrest, primRelax_data hfirst j]

theorem primRelax_foldlM {S : Finset (Fin SIZE)} (u : Int) (row : Fin SIZE → Int) :
    ∀ (l : List (Fin SIZE)) (st : PrimState), l.Nodup → Queued S st →
      ∃ st', l.foldlM (primRelax u row) st = .ok st' ∧ Relaxed S u row l st st' := by
  intro l
  induction l with
  | nil =>
    intro st _ h
    exact ⟨st, rfl, { h with improved := fun v hv => by simp at hv, kept := fun _ _ => ⟨rfl, rfl⟩ }⟩
  | cons v l ih =>
    intro st hnodup h
    obtain ⟨hv, hnodup⟩ := List.nodup_cons.mp hnodup
    obtain ⟨st₁, hst₁, h₁⟩ := primRelax_spec h u row v
    obtain ⟨st₂, hst₂, h₂⟩ := ih st₁ hnodup h₁.toQueued
    have hkey : ∀ x, x ≠ v → st₁.key x = st.key x ∧ st₁.pred x = st.pred x := fun x hx =>
      h₁.kept x fun hmem => hx (List.mem_singleton.mp hmem.1)
    have himp : ∀ x, x ≠ v → (Improves S row st₁.key x ↔ Improves S row st.key x) := fun x hx => by
      rw [Improves, Improves, (hkey x hx).1]
    refine ⟨st₂, by rw [List.foldlM_cons, hst₁, ok_bind, hst₂], { h₂.toQueued with improved := ?_, kept := ?_ }⟩
    · intro x hx hximp
      rcases List.mem_cons.mp hx with rfl | hx
      · have := h₂.kept x fun hmem => hv hmem.1
        rw [this.1, this.2]
        exact h₁.improved x (List.mem_singleton_self x) hximp
      · have hxv : x ≠ v := fun heq => hv (heq ▸ hx)
        exact h₂.improved x hx ((himp x hxv).mpr hximp)
    · intro x hx
      by_cases hxv : x = v
      · subst hxv
        have hno : ¬ Improves S row st.key x := fun hi => hx ⟨List.mem_cons_self, hi⟩
        rw [(h₂.kept x fun hmem => hv hmem.1).1, (h₂.kept x fun hmem => hv hmem.1).2]
        exact h₁.kept x fun hmem => hno hmem.2
      · have := h₂.kept x fun hmem => hx ⟨List.mem_cons_of_mem v hmem.1, (himp x hxv).mp hmem.2⟩
        rw [this.1, this.2]
        exact hkey x hxv

theorem Queued.root {S : Finset (Fin SIZE)} {st : PrimState} (h : Queued S st) (hn : 0 < st.pq.n) :
    ∃ u, u ∉ S ∧ st.pq.elem 0 = ⟨u.val, st.key u⟩ := by
  have hmem : st.pq.elem 0 ∈ PriorityQueue.stored st.pq := mem_contents.mpr ⟨0, hn, rfl⟩
  rw [h.stored] at hmem
  exact mem_queueOf.mp hmem

theorem Queued.card {S : Finset (Fin SIZE)} {st : PrimState} (h : Queued S st) :
    st.pq.n + S.card = SIZE := by
  have hcard := congrArg Multiset.card h.stored
  rw [card_stored, queueOf, Multiset.card_map, Finset.card_val, Finset.card_compl, Fintype.card_fin] at hcard
  have := Finset.card_le_univ S
  rw [Fintype.card_fin] at this
  omega

theorem Queued.descends {S : Finset (Fin SIZE)} {st : PrimState} (h : Queued S st) :
    Descends (some intMax) st.pq := by
  have hcard := h.card
  have hsize : 2 * SIZE ≤ intMax := by decide
  exact descends_of_le (by omega)

/-- **One round.** The root vertex `u` leaves the queue, and every vertex still queued takes the edge
from `u` if it is lighter than its key. -/
theorem primRound_spec {S : Finset (Fin SIZE)} {st : PrimState} (h : Queued S st) (hn : 0 < st.pq.n)
    {u : Fin SIZE} (hu : u ∉ S) (hroot : st.pq.elem 0 = ⟨u.val, st.key u⟩) (graph : Graph) :
    ∃ st', primRound graph st = .ok st' ∧
      Relaxed (insert u S) u.val (graph u) (List.finRange SIZE) st st' := by
  obtain ⟨pq, hpop, hvalid, hstored, -⟩ := h.valid.pop hn h.descends
  rw [hroot, h.stored, queueOf_insert hu, Multiset.cons_inj_right] at hstored
  have hqueued : Queued (insert u S) { st with pq := pq } := ⟨hvalid, hstored⟩
  obtain ⟨st', hst', hrelaxed⟩ :=
    primRelax_foldlM u.val (graph u) (List.finRange SIZE) _ (List.nodup_finRange SIZE) hqueued
  have hrow : graphRow graph u.val = .ok (graph u) := by
    have := u.isLt
    rw [graphRow, dif_pos ⟨by omega, by exact_mod_cast this⟩]
    rfl
  refine ⟨st', ?_, hrelaxed.toQueued, hrelaxed.improved, hrelaxed.kept⟩
  simp only [primRound, hpop, hroot, ok_bind, hrow, hst']

end CodingForFun.PrimPqueue
