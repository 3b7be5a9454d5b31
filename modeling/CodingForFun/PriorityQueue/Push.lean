import CodingForFun.PriorityQueue.Basic
import CodingForFun.Lib.MinHeap

/-!
# `pq_push`

The loop of `pq_push` moves a hole from position `n` towards the root. `Sifting` is its invariant:
the cells off the hole hold an array `a` whose value at the hole is the pushed element, and `a` has
the values of the array the loop started from. `pqPush_spec` states the result for a queue whose
allocated cells may go on beyond the new element, since `pq_adjusttree` pushes in the middle of the
array; `Valid.push` is the case of a whole queue.
-/

namespace CodingForFun.PriorityQueue

open Lib Lib.MinHeap

/-- The order of the heap. -/
abbrev prio (e : PqElement) : Int := e.priority

theorem pushCond_zero {priority : Int} {st : PushState} (h : st.s = 0) :
    pushCond priority st = .ok false := by
  simp [pushCond, h]

theorem pushCond_pos {priority : Int} {st : PushState} {e : PqElement} (h : 0 < st.s)
    (hread : st.arr.read st.f = .ok e) : pushCond priority st = .ok (decide (priority < e.priority)) := by
  simp [pushCond, h, hread]

theorem pushBody_ok {st : PushState} {e : PqElement} (hread : st.arr.read st.f = .ok e)
    (hs : st.s < st.arr.length) :
    pushBody st = .ok ⟨st.arr.set st.s (some e), st.f, (st.f - 1) / 2⟩ := by
  simp [pushBody, hread, Cells.write_eq_ok hs]

/-- The loop has moved the hole of `a₀` (at `n`) to `st.s`: `a` is the array with the pushed element
counted at the hole. -/
structure Sifting (a₀ : ℕ → PqElement) (m n len : ℕ) (x : PqElement) (st : PushState)
    (a : ℕ → PqElement) : Prop where
  off : st.arr.HoldsOff a m st.s
  length : st.arr.length = len
  le : st.s ≤ n
  father : st.f = parent st.s
  value : a st.s = x
  above : ∀ i, n < i → a i = a₀ i
  contents : contents a (n + 1) = contents a₀ (n + 1)
  order : UpOrder prio a₀ (n + 1) n → UpOrder prio a (n + 1) st.s

theorem Sifting.start {arr : Cells PqElement} {a : ℕ → PqElement} {m n : ℕ} (x : PqElement)
    (h : arr.HoldsOff a m n) :
    Sifting (Function.update a n x) m n arr.length x ⟨arr, n, parent n⟩ (Function.update a n x) where
  off := h.congr fun _ _ hne => (Function.update_of_ne hne _ _).symm
  length := rfl
  le := le_rfl
  father := rfl
  value := Function.update_self ..
  above _ _ := rfl
  contents := rfl
  order h := h

theorem Sifting.step {a₀ a : ℕ → PqElement} {m n len : ℕ} {x : PqElement} {st : PushState}
    (h : Sifting a₀ m n len x st a) (hnm : n < m) (hs : 0 < st.s)
    (hlt : x.priority < (a (parent st.s)).priority) :
    Sifting a₀ m n len x ⟨st.arr.set st.s (some (a st.f)), st.f, (st.f - 1) / 2⟩
      (a ∘ Equiv.swap st.s (parent st.s)) := by
  have hle := h.le
  have hp := parent_lt hs
  constructor
  · rw [h.father]
    exact h.off.move (by omega)
  · simpa using h.length
  · show st.f ≤ n
    rw [h.father]; omega
  · rfl
  · show (a ∘ Equiv.swap st.s (parent st.s)) st.f = x
    rw [h.father, Function.comp_apply, Equiv.swap_apply_right, h.value]
  · intro i hi
    rw [Function.comp_apply, Equiv.swap_apply_of_ne_of_ne (by omega) (by omega), h.above i hi]
  · rw [contents_swap (by omega) (by omega), h.contents]
  · intro h₀
    have := (h.order h₀).move hs (by omega) (by rw [h.value]; exact hlt)
    rwa [← h.father] at this ⊢

/-- What the loop leaves: the hole where the pushed element belongs. -/
structure Sifted (a₀ : ℕ → PqElement) (m n len : ℕ) (x : PqElement) (st : PushState)
    (a : ℕ → PqElement) : Prop extends Sifting a₀ m n len x st a where
  stop : 0 < st.s → (a (parent st.s)).priority ≤ x.priority

theorem pushLoop_spec {a₀ : ℕ → PqElement} {m n len : ℕ} {x : PqElement} (hnm : n < m) (st : PushState)
    (hinv : ∃ a, Sifting a₀ m n len x st a) (hfuel : st.s < n + 1) :
    ∃ st', whileM .unbounded (pushCond x.priority) pushBody (n + 1) st = .ok st' ∧
      ∃ a, Sifted a₀ m n len x st' a := by
  refine whileM_ok (fun st => ∃ a, Sifting a₀ m n len x st a) (·.s) ?_ _ st hinv hfuel
  rintro st ⟨a, h⟩
  have hle := h.le
  rcases Nat.eq_zero_or_pos st.s with hs | hs
  · exact .inr ⟨pushCond_zero hs, a, h, fun h0 => by omega⟩
  · have hp := parent_lt hs
    have hread : st.arr.read st.f = .ok (a st.f) := by
      rw [h.father]; exact h.off.read (by omega) hp.ne
    by_cases hlt : x.priority < (a (parent st.s)).priority
    · refine .inl ⟨_, ?_, pushBody_ok hread ?_, ⟨_, h.step hnm hs hlt⟩, ?_⟩
      · rw [pushCond_pos hs hread, h.father, decide_eq_true hlt]
      · have := h.off.1; omega
      · show st.f < st.s
        rw [h.father]; exact hp
    · refine .inr ⟨?_, a, h, fun _ => not_lt.mp hlt⟩
      rw [pushCond_pos hs hread, h.father, decide_eq_false hlt]

theorem pqReserve_of_lt {max : Option ℕ} {q : Pq} (h : q.n < q.alloc) : pqReserve max q = .ok q := by
  rw [pqReserve, if_neg (by omega), pure_eq_ok]

theorem pqPush_spec (max : Option ℕ) (q : Pq) {a : ℕ → PqElement} {m : ℕ} (hheld : q.pqArray.HoldsOff a m q.n)
    (hnm : q.n < m) (hroom : q.n < q.alloc) (data priority : Int) :
    ∃ arr a', pqPush max q data priority = .ok { q with pqArray := arr, n := q.n + 1 } ∧
      arr.length = q.pqArray.length ∧ arr.Holds a' m ∧ (∀ i, q.n < i → a' i = a i) ∧
      contents a' (q.n + 1) = ⟨data, priority⟩ ::ₘ contents a q.n ∧
      (HeapOrdered prio a q.n → HeapOrdered prio a' (q.n + 1)) := by
  obtain ⟨st, hloop, a', h⟩ := pushLoop_spec hnm _
    ⟨_, Sifting.start ⟨data, priority⟩ hheld⟩ (Nat.lt_succ_self q.n)
  have hs : st.s < st.arr.length := by have := h.le; have := h.off.1; omega
  refine ⟨st.arr.set st.s (some ⟨data, priority⟩), a', ?_, by simpa using h.length, ?_, ?_, ?_, ?_⟩
  · simp only [pqPush, pqReserve_of_lt hroom, ok_bind, Nat.add_sub_cancel]
    rw [show ((q.n - 1) / 2) = parent q.n from rfl, hloop, ok_bind, Cells.write_eq_ok hs]
    rfl
  · have := h.off.fill
    rwa [h.value] at this
  · intro i hi
    rw [h.above i hi, Function.update_of_ne (by omega)]
  · rw [h.contents, contents_succ, Function.update_self]
    congr 1
    exact contents_congr fun i hi => Function.update_of_ne (by omega) _ _
  · intro ha
    refine (h.order (ha.upOrder _)).finish fun hs0 => ?_
    rw [h.value]
    exact h.stop hs0

/-! ## Whole queues -/

/-- The element in position `i` (any element where nothing was written). -/
def Pq.elem (q : Pq) (i : ℕ) : PqElement :=
  match q.pqArray[i]? with
  | some (some e) => e
  | _ => ⟨0, 0⟩

/-- The stored pairs. -/
def stored (q : Pq) : Multiset PqElement := contents q.elem q.n

/-- `pq_array[0..n)` is a min-heap on priority. -/
def IsHeap (q : Pq) : Prop := HeapOrdered prio q.elem q.n

/-- The storage is what `alloc` says, has room for at least four elements, and the stored elements
are written. -/
structure Valid (q : Pq) : Prop where
  room : 4 ≤ q.alloc
  le : q.n ≤ q.alloc
  length : q.pqArray.length = q.alloc
  written : ∀ i < q.n, ∃ e, q.pqArray[i]? = some (some e)

theorem Valid.holds {q : Pq} (h : Valid q) : q.pqArray.Holds q.elem q.n := by
  refine ⟨by rw [h.length]; exact h.le, fun i hi => ?_⟩
  obtain ⟨e, he⟩ := h.written i hi
  rw [he, Pq.elem, he]

theorem elem_of_holds {q : Pq} {a : ℕ → PqElement} {m i : ℕ} (h : q.pqArray.Holds a m) (hi : i < m) :
    q.elem i = a i := by
  rw [Pq.elem, h.2 i hi]

theorem Valid.of_holds {q : Pq} {a : ℕ → PqElement} (h : q.pqArray.Holds a q.n) (hroom : 4 ≤ q.alloc)
    (hlen : q.pqArray.length = q.alloc) : Valid q :=
  ⟨hroom, hlen ▸ h.1, hlen, fun i hi => ⟨a i, h.2 i hi⟩⟩

theorem stored_of_holds {q : Pq} {a : ℕ → PqElement} {m : ℕ} (h : q.pqArray.Holds a m) (hm : q.n ≤ m) :
    stored q = contents a q.n :=
  contents_congr fun _ hi => elem_of_holds h (hi.trans_le hm)

theorem isHeap_of_holds {q : Pq} {a : ℕ → PqElement} {m : ℕ} (h : q.pqArray.Holds a m) (hm : q.n ≤ m)
    (ha : HeapOrdered prio a q.n) : IsHeap q :=
  ha.congr fun _ hi => (elem_of_holds h (hi.trans_le hm)).symm

@[simp] theorem card_stored (q : Pq) : Multiset.card (stored q) = q.n := card_contents ..

theorem pqNew_valid (size : Int) : Valid (pqNew size) := by
  constructor
  · unfold pqNew
    by_cases h : size < 4 <;> simp [h]
    omega
  · exact Nat.zero_le _
  · simp [pqNew]
  · intro i hi
    exact absurd hi (Nat.not_lt_zero i)

theorem stored_pqNew (size : Int) : stored (pqNew size) = 0 := contents_zero _

theorem isHeap_pqNew (size : Int) : IsHeap (pqNew size) := heapOrdered_of_le_one (Nat.zero_le 1)

/-- There is room for one more element, or can be made. -/
def CanGrow (max : Option ℕ) (q : Pq) : Prop := q.n < q.alloc ∨ InRange max (q.alloc * 2)

theorem canGrow_none (q : Pq) : CanGrow none q := .inr (inRange_none _)

theorem canGrow_of_le {m : ℕ} {q : Pq} (hn : 2 * q.n ≤ m) : CanGrow (some m) q := by
  rcases Nat.lt_or_ge q.n q.alloc with hroom | hfull
  · exact .inl hroom
  · exact .inr (inRange_some.mpr (by omega))

theorem pqReserve_spec {max : Option ℕ} {q : Pq} (h : Valid q) (hgrow : CanGrow max q) :
    ∃ q', pqReserve max q = .ok q' ∧ Valid q' ∧ q'.n = q.n ∧ q.n < q'.alloc ∧
      q'.pqArray.Holds q.elem q.n := by
  have hroom := h.room
  by_cases hfull : q.n ≥ q.alloc
  · have hrange : InRange max (q.alloc * 2) := hgrow.resolve_left (Nat.not_lt.mpr hfull)
    have hle := h.le
    have hheld : (q.pqArray.realloc (q.alloc * 2)).Holds q.elem q.n := h.holds.realloc (by omega)
    refine ⟨{ q with alloc := q.alloc * 2, pqArray := q.pqArray.realloc (q.alloc * 2) }, ?_,
      .of_holds hheld (by show 4 ≤ q.alloc * 2; omega) (by simp), rfl,
      by show q.n < q.alloc * 2; omega, hheld⟩
    rw [pqReserve, if_pos hfull, checked_ok hrange]
    rfl
  · exact ⟨q, pqReserve_of_lt (by omega), h, rfl, by omega, h.holds⟩

theorem pqReserve_idem {max : Option ℕ} {q q' : Pq} (hreserve : pqReserve max q = .ok q')
    (hroom : q'.n < q'.alloc) (data priority : Int) :
    pqPush max q data priority = pqPush max q' data priority := by
  simp only [pqPush, hreserve, pqReserve_of_lt hroom]

theorem pqPush_overflow {max : Option ℕ} {q : Pq} (hgrow : ¬CanGrow max q) (data priority : Int) :
    pqPush max q data priority = .error .overflow := by
  obtain ⟨hfull, hrange⟩ := not_or.mp hgrow
  rw [pqPush, pqReserve, if_pos (Nat.not_lt.mp hfull), checked_overflow hrange]
  rfl

theorem Valid.push {max : Option ℕ} {q : Pq} (h : Valid q) (hgrow : CanGrow max q) (data priority : Int) :
    ∃ q', pqPush max q data priority = .ok q' ∧ Valid q' ∧ stored q' = ⟨data, priority⟩ ::ₘ stored q ∧
      (IsHeap q → IsHeap q') := by
  obtain ⟨q₁, hreserve, hv, hn, hlt, hheld⟩ := pqReserve_spec h hgrow
  rw [pqReserve_idem hreserve (by omega)]
  have hoff : q₁.pqArray.HoldsOff (Function.update q.elem q.n ⟨data, priority⟩) (q.n + 1) q₁.n := by
    rw [hn]
    exact hheld.extend (by rw [hv.length]; exact hlt) _
  obtain ⟨arr, a, hpush, hlen, hholds, -, hcont, hord⟩ :=
    pqPush_spec max q₁ hoff (by omega) (by omega) data priority
  rw [hn] at hcont hord hpush
  have hbelow : ∀ i < q.n, Function.update q.elem q.n ⟨data, priority⟩ i = q.elem i :=
    fun i hi => Function.update_of_ne (by omega) _ _
  refine ⟨_, hpush, .of_holds hholds hv.room (by rw [hlen]; exact hv.length), ?_, fun hq => ?_⟩
  · rw [stored_of_holds hholds le_rfl, hcont, contents_congr hbelow]
    rfl
  · exact isHeap_of_holds hholds le_rfl (hord (hq.congr fun i hi => (hbelow i hi).symm))

end CodingForFun.PriorityQueue
