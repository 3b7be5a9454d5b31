import CodingForFun.PriorityQueue.Push

/-!
# `pq_adjusttree` and `pq_pop`

`pq_adjusttree` removes the root in two loops. The first moves a hole from the root to a leaf, each
time lifting the smaller son (`Descending`), unless the index of a son is too large for its type
(`Descends`); what lies before the leaf is then a heap. The second
pushes every element after the leaf again, into the heap of the elements before it, with `q->n`
lowered to their number (`Refilling`): the push fills the hole and leaves a new one where its element
was read. In both loops the removed element is counted at the hole, so the stored values stay those
the loop started from, and at the end the hole is the last cell.
-/

namespace CodingForFun.PriorityQueue

open Lib Lib.MinHeap

/-! ## The hole moves to a leaf -/

/-- The indices of the sons are in range, of each place behind `p` on the way of the smaller sons. -/
def SonsInRange (max : Option ℕ) (a : ℕ → PqElement) (n p : ℕ) : Prop :=
  ∀ c, Relation.TransGen (SmallerChild prio a n) p c → InRange max (2 * c + 2)

/-- The indices that the first loop computes are in range. -/
def Descends (max : Option ℕ) (q : Pq) : Prop := SonsInRange max q.elem q.n 0

theorem descends_none (q : Pq) : Descends none q := fun _ _ => inRange_none _

theorem descends_of_le {m : ℕ} {q : Pq} (hn : 2 * q.n ≤ m) : Descends (some m) q := by
  intro c hc
  have hlt := lt_of_transGen_smallerChild hc
  exact inRange_some.mpr (by omega)

theorem descends_of_empty {max : Option ℕ} {q : Pq} (hn : q.n = 0) : Descends max q := by
  intro c hc
  have hlt := lt_of_transGen_smallerChild hc
  omega

/-- The first loop has moved the hole of `a₀` (at the root) to `st.p`, and what was computed on the way was in
range. -/
structure Descending (max : Option ℕ) (a₀ : ℕ → PqElement) (n len : ℕ) (st : DescendState) (a : ℕ → PqElement) :
    Prop where
  off : st.arr.HoldsOff a n st.p
  length : st.arr.length = len
  lt : st.p < n
  son1 : st.s1 = 2 * st.p + 1
  son2 : st.s2 = 2 * st.p + 2
  value : a st.p = a₀ 0
  below : ∀ i, st.p < i → a i = a₀ i
  contents : contents a n = contents a₀ n
  order : HeapOrdered prio a₀ n → DownOrder prio a n st.p
  range : SonsInRange max a₀ n 0 ↔ SonsInRange max a₀ n st.p

variable {max : Option ℕ}

variable (max) in
theorem Descending.start {arr : Cells PqElement} {a : ℕ → PqElement} {n : ℕ} (h : arr.Holds a n)
    (hn : 0 < n) : Descending max a n arr.length ⟨arr, 0, 1, 2⟩ a :=
  ⟨h.off 0, rfl, hn, rfl, rfl, rfl, fun _ _ => rfl, rfl, HeapOrdered.downOrder, Iff.rfl⟩

theorem Descending.descendSon {a₀ a : ℕ → PqElement} {n len : ℕ} {st : DescendState}
    (h : Descending max a₀ n len st a) (hson : st.s1 ≤ n - 1) :
    ∃ c, descendSon n st = .ok c ∧ SmallerChild prio a n st.p c := by
  have hlt := h.lt
  have h1 := h.son1
  have h2 := h.son2
  by_cases honly : st.s2 > n - 1
  · exact ⟨st.s1, by simp [PriorityQueue.descendSon, honly], .inl ⟨h1, by omega, fun h => by omega⟩⟩
  · have hread1 : st.arr.read st.s1 = .ok (a st.s1) := h.off.read (by omega) (by omega)
    have hread2 : st.arr.read st.s2 = .ok (a st.s2) := h.off.read (by omega) (by omega)
    have hchoice : PriorityQueue.descendSon n st =
        .ok (if (a st.s1).priority < (a st.s2).priority then st.s1 else st.s2) := by
      simp [PriorityQueue.descendSon, honly, hread1, hread2]
    by_cases hless : (a st.s1).priority < (a st.s2).priority
    · rw [if_pos hless] at hchoice
      exact ⟨st.s1, hchoice, .inl ⟨h1, by omega, fun _ => h2 ▸ hless⟩⟩
    · rw [if_neg hless] at hchoice
      exact ⟨st.s2, hchoice, .inr ⟨h2, by omega, h1 ▸ not_lt.mp hless⟩⟩

theorem Descending.step {a₀ a : ℕ → PqElement} {n len : ℕ} {st : DescendState}
    (h : Descending max a₀ n len st a) (hson : st.s1 ≤ n - 1) :
    (∃ st' a', descendBody max n st = .ok st' ∧ Descending max a₀ n len st' a' ∧ st.p < st'.p) ∨
      (descendBody max n st = .error .overflow ∧ ¬SonsInRange max a₀ n 0) := by
  obtain ⟨c, hc, hsmaller⟩ := h.descendSon hson
  obtain ⟨hpc, hcn⟩ := hsmaller.lt
  have hread : st.arr.read c = .ok (a c) := h.off.read hcn (by omega)
  have hwrite : st.p < st.arr.length := h.lt.trans_le h.off.1
  have hbehind : SonsInRange max a₀ n st.p ↔ InRange max (2 * c + 2) ∧ SonsInRange max a₀ n c :=
    (hsmaller.congr h.below).forall_iff
  have hbody : descendBody max n st = (do
      let s1 ← checked max (2 * c + 1)
      let s2 ← checked max (2 * c + 2)
      pure ⟨st.arr.set st.p (some (a c)), c, s1, s2⟩) := by
    simp [descendBody, hc, hread, Cells.write_eq_ok hwrite]
  by_cases hrange : InRange max (2 * c + 2)
  · have hrange' : InRange max (2 * c + 1) := fun m hm => (Nat.le_succ _).trans (hrange m hm)
    refine .inl ⟨⟨st.arr.set st.p (some (a c)), c, 2 * c + 1, 2 * c + 2⟩, a ∘ Equiv.swap st.p c, ?_, ?_, hpc⟩
    · rw [hbody, checked_ok hrange', checked_ok hrange]
      rfl
    · exact {
        off := h.off.move h.lt
        length := by simpa using h.length
        lt := hcn
        son1 := rfl
        son2 := rfl
        value := by simp [h.value]
        below := fun i hi => by
          change c < i at hi
          rw [Function.comp_apply, Equiv.swap_apply_of_ne_of_ne (by omega) (by omega), h.below i (by omega)]
        contents := by rw [contents_swap h.lt hcn, h.contents]
        order := fun h₀ => (h.order h₀).move (Nat.zero_lt_of_lt hpc) hsmaller.parent_eq hcn
          fun i hi hin hp => hsmaller.le hi hin hp
        range := by rw [h.range, hbehind, and_iff_right hrange] }
  · refine .inr ⟨?_, fun hall => hrange (hbehind.mp (h.range.mp hall)).1⟩
    rw [hbody]
    by_cases hrange' : InRange max (2 * c + 1)
    · rw [checked_ok hrange', ok_bind, checked_overflow hrange]
      rfl
    · rw [checked_overflow hrange']
      rfl

variable (max) in
theorem descend_cases {arr : Cells PqElement} {a₀ : ℕ → PqElement} {n : ℕ} (h : arr.Holds a₀ n)
    (hn : 2 ≤ n) :
    (SonsInRange max a₀ n 0 ∧
      ∃ st, doWhileM .unbounded (descendCond n) (descendBody max n) n ⟨arr, 0, 1, 2⟩ = .ok st ∧
        ∃ a, Descending max a₀ n arr.length st a) ∨
      (¬SonsInRange max a₀ n 0 ∧
        doWhileM .unbounded (descendCond n) (descendBody max n) n ⟨arr, 0, 1, 2⟩ = .error .overflow) := by
  rcases (Descending.start max h (by omega)).step (show 1 ≤ n - 1 by omega) with
    ⟨st, a, hbody, hst, hpos⟩ | ⟨hbody, hnot⟩
  · rw [doWhileM_eq _ hbody]
    refine whileM_rule (fun st => ∃ a, Descending max a₀ n arr.length st a) (fun st => n - st.p)
      (fun r => (SonsInRange max a₀ n 0 ∧ ∃ st, r = .ok st ∧ ∃ a, Descending max a₀ n arr.length st a) ∨
        (¬SonsInRange max a₀ n 0 ∧ r = .error Fault.overflow))
      ?_ n st ⟨a, hst⟩ (by have := hst.lt; change 0 < st.p at hpos; omega)
    rintro st ⟨a, hst⟩
    by_cases hson : st.s1 ≤ n - 1
    · have hcond : descendCond n st = .ok true := by simp [descendCond, hson]
      rcases hst.step hson with ⟨st', a', hbody, hst', hlt⟩ | ⟨hbody, hnot⟩
      · have := hst'.lt
        exact .next st' hcond hbody ⟨a', hst'⟩ (by omega)
      · exact .fault _ hcond hbody (.inr ⟨hnot, rfl⟩)
    · have hlt := hst.lt
      have hlast := hst.son1
      refine .exit (by simp [descendCond, hson]) (.inl ⟨hst.range.mpr fun c hc => ?_, st, rfl, a, hst⟩)
      exact absurd hc (not_transGen_smallerChild (by omega) c)
  · refine .inr ⟨hnot, ?_⟩
    rw [doWhileM, hbody]
    rfl

/-! ## The elements after the leaf are pushed again -/

/-- The second loop has pushed the elements before `st.current`: they form a heap of
`st.current - 1` elements, and the cell before `st.current` is the hole. -/
structure Refilling (a₀ : ℕ → PqElement) (size : ℕ) (x : PqElement) (q₀ : Pq) (st : RefillState)
    (a : ℕ → PqElement) : Prop where
  off : st.q.pqArray.HoldsOff a size (st.current - 1)
  length : st.q.pqArray.length = q₀.pqArray.length
  alloc : st.q.alloc = q₀.alloc
  pos : 0 < st.current
  le : st.current ≤ size
  value : a (st.current - 1) = x
  contents : contents a size = contents a₀ size
  order : HeapOrdered prio a₀ size → HeapOrdered prio a (st.current - 1)

theorem Descending.refilling {q : Pq} {st : DescendState} {a : ℕ → PqElement}
    (h : Descending max q.elem q.n q.pqArray.length st a) :
    Refilling q.elem q.n (q.elem 0) q ⟨{ q with pqArray := st.arr }, st.p + 1⟩ a where
  off := h.off
  length := h.length
  alloc := rfl
  pos := Nat.succ_pos _
  le := h.lt
  value := h.value
  contents := h.contents
  order h₀ := (h.order h₀).finish h.lt.le

variable (max) in
theorem Refilling.step {a₀ a : ℕ → PqElement} {size : ℕ} {x : PqElement} {q₀ : Pq} {st : RefillState}
    (h : Refilling a₀ size x q₀ st a) (hroom : size ≤ q₀.alloc) (hne : st.current ≠ size) :
    ∃ st' a', refillBody max st = .ok st' ∧ Refilling a₀ size x q₀ st' a' ∧
      st'.current = st.current + 1 := by
  obtain ⟨⟨arr, n, alloc⟩, current⟩ := st
  obtain ⟨hoff, hlength, halloc, hpos, hle, hvalue, hcont, hord⟩ := h
  obtain ⟨k, rfl⟩ : ∃ k, current = k + 1 := ⟨current - 1, by change 0 < current at hpos; omega⟩
  simp only [Nat.add_sub_cancel] at hoff hlength halloc hle hvalue hord hne
  have hread : arr.read (k + 1) = .ok (a (k + 1)) := hoff.read (by omega) (by omega)
  obtain ⟨arr', a', hpush, hlen, hholds, habove, hcontents, horder⟩ :=
    pqPush_spec max ⟨arr, k, alloc⟩ hoff (by show k < size; omega) (by show k < alloc; omega)
      (a (k + 1)).data (a (k + 1)).priority
  have hcur : ∀ i, k + 2 ≤ i → Function.update a' (k + 1) x i = a i := fun i hi => by
    rw [Function.update_of_ne (by omega), habove i (by show k < i; omega)]
  have hupto : ∀ i < k + 1, Function.update a' (k + 1) x i = a' i := fun i hi =>
    Function.update_of_ne (by omega) _ _
  refine ⟨⟨⟨arr', k + 1, alloc⟩, k + 2⟩, Function.update a' (k + 1) x, ?_, ?_, rfl⟩
  · simp only [refillBody, hread, ok_bind, Nat.add_sub_cancel]
    rw [hpush]
    rfl
  · exact {
      off := (hholds.off (k + 1)).congr fun i _ hi => (Function.update_of_ne hi _ _).symm
      length := hlen.trans hlength
      alloc := halloc
      pos := Nat.succ_pos _
      le := by show k + 2 ≤ size; omega
      value := Function.update_self ..
      contents := by
        rw [← hcont]
        refine contents_of_prefix (k + 2) ?_ hcur (by omega)
        rw [contents_succ, contents_succ a, contents_succ a, Function.update_self,
          contents_congr hupto, hcontents, hvalue, Multiset.cons_swap]
      order := fun h₀ => (horder (hord h₀)).congr fun i hi => (hupto i hi).symm }

variable (max) in
theorem refill_spec {a₀ : ℕ → PqElement} {size : ℕ} {x : PqElement} {q₀ : Pq} {st : RefillState}
    {a : ℕ → PqElement} (h : Refilling a₀ size x q₀ st a) (hroom : size ≤ q₀.alloc) :
    ∃ st', whileM .unbounded (refillCond size) (refillBody max) (size + 1) st = .ok st' ∧
      ∃ a', Refilling a₀ size x q₀ st' a' ∧ st'.current = size := by
  refine whileM_ok (fun st => ∃ a, Refilling a₀ size x q₀ st a) (fun st => size - st.current) ?_ _ st
    ⟨a, h⟩ (by omega)
  rintro st ⟨a, h⟩
  by_cases hend : st.current = size
  · exact .inr ⟨by simp [refillCond, hend], a, h, hend⟩
  · obtain ⟨st', a', hbody, hst', hcur⟩ := h.step max hroom hend
    refine .inl ⟨st', by simp [refillCond, hend], hbody, ⟨a', hst'⟩, ?_⟩
    have := h.le
    have := hst'.le
    omega

/-! ## The whole function -/

theorem pqShrink_spec {q : Pq} (h : Valid q) :
    Valid (pqShrink q) ∧ (pqShrink q).n = q.n ∧ (pqShrink q).pqArray.Holds q.elem q.n := by
  by_cases hsmall : q.n < q.alloc / 2 ∧ q.n ≥ 4
  · have heq : pqShrink q = { q with pqArray := q.pqArray.realloc (q.alloc / 2), alloc := q.alloc / 2 } :=
      if_pos hsmall
    have hheld : (q.pqArray.realloc (q.alloc / 2)).Holds q.elem q.n := h.holds.realloc (by omega)
    rw [heq]
    exact ⟨.of_holds hheld (by show 4 ≤ q.alloc / 2; omega) (by simp), rfl, hheld⟩
  · rw [pqShrink, if_neg hsmall]
    exact ⟨h, rfl, h.holds⟩

theorem stored_pqShrink {q : Pq} (h : Valid q) : stored (pqShrink q) = stored q := by
  obtain ⟨-, hn, hheld⟩ := pqShrink_spec h
  rw [stored_of_holds hheld hn.le, hn]
  rfl

theorem IsHeap.pqShrink {q : Pq} (hq : IsHeap q) (h : Valid q) : IsHeap (pqShrink q) := by
  obtain ⟨-, hn, hheld⟩ := pqShrink_spec h
  exact isHeap_of_holds hheld hn.le (by rw [hn]; exact hq)

variable (max) in
theorem Valid.adjusttree_cases {q : Pq} (h : Valid q) (hn : 2 ≤ q.n) :
    (Descends max q ∧ ∃ q', pqAdjusttree max q = .ok q' ∧ Valid q' ∧ q.elem 0 ::ₘ stored q' = stored q ∧
      (IsHeap q → IsHeap q')) ∨
      (¬Descends max q ∧ pqAdjusttree max q = .error .overflow) := by
  rcases descend_cases max h.holds hn with ⟨hrange, st, hdescend, a, hst⟩ | ⟨hnot, hdescend⟩
  swap
  · exact .inr ⟨hnot, by rw [pqAdjusttree, hdescend, error_bind]⟩
  obtain ⟨⟨⟨arr, n', alloc⟩, current⟩, hrefill, a', hst', hend⟩ := refill_spec max hst.refilling h.le
  obtain ⟨hoff, hlength, halloc, -, -, hvalue, hcontents, horder⟩ := hst'
  simp only at hoff hlength halloc hvalue hcontents horder hend
  subst hend
  have hheld : arr.Holds a' (q.n - 1) :=
    ⟨by have := hoff.1; omega, fun i hi => hoff.2 i (by omega) (by omega)⟩
  have hvalid : Valid ⟨arr, q.n - 1, alloc⟩ :=
    .of_holds hheld (by show 4 ≤ alloc; rw [halloc]; exact h.room)
      (by show arr.length = alloc; rw [hlength, halloc, h.length])
  refine .inl ⟨hrange, pqShrink ⟨arr, q.n - 1, alloc⟩, ?_, (pqShrink_spec hvalid).1, ?_, fun hq => ?_⟩
  · simp only [pqAdjusttree, hdescend, hrefill, ok_bind, pure_eq_ok]
  · have hlast : q.n - 1 + 1 = q.n := by omega
    rw [← hlast, contents_succ, hlast, hvalue] at hcontents
    rw [stored_pqShrink hvalid, stored_of_holds hheld le_rfl]
    exact hcontents
  · exact (isHeap_of_holds hheld le_rfl (horder hq)).pqShrink hvalid

variable (max) in
theorem pqPop_empty {q : Pq} (hn : q.n = 0) : pqPop max q = .ok (0, q) := by
  simp [pqPop, hn]

variable (max) in
/-- **`pq_pop`** on a non-empty queue removes its root and returns the root's data, or an index overflows. -/
theorem Valid.pop_cases {q : Pq} (h : Valid q) (hn : 0 < q.n) :
    (Descends max q ∧ ∃ q', pqPop max q = .ok ((q.elem 0).data, q') ∧ Valid q' ∧
      q.elem 0 ::ₘ stored q' = stored q ∧ (IsHeap q → IsHeap q')) ∨
      (¬Descends max q ∧ pqPop max q = .error .overflow) := by
  have hroot : q.pqArray.read 0 = .ok (q.elem 0) := h.holds.read hn
  by_cases hone : q.n = 1
  · refine .inl ⟨fun c hc => ?_, { q with n := 0 }, ?_, ?_, ?_, fun _ => ?_⟩
    · exact absurd hc (not_transGen_smallerChild (by omega) c)
    · simp [pqPop, hone, hroot]
    · exact ⟨h.room, Nat.zero_le _, h.length, fun i hi => absurd hi (Nat.not_lt_zero i)⟩
    · rw [stored, stored, hone, contents_succ]
      rfl
    · exact heapOrdered_of_le_one (Nat.zero_le 1)
  · rcases h.adjusttree_cases max (by omega) with
      ⟨hdescends, q', hadjust, hvalid, hstored, horder⟩ | ⟨hnot, hadjust⟩
    · exact .inl ⟨hdescends, q', by simp [pqPop, hn.ne', hone, hroot, hadjust], hvalid, hstored, horder⟩
    · exact .inr ⟨hnot, by simp [pqPop, hn.ne', hone, hroot, hadjust]⟩

theorem Valid.pop {q : Pq} (h : Valid q) (hn : 0 < q.n) (hdescends : Descends max q) :
    ∃ q', pqPop max q = .ok ((q.elem 0).data, q') ∧ Valid q' ∧ q.elem 0 ::ₘ stored q' = stored q ∧
      (IsHeap q → IsHeap q') := by
  rcases h.pop_cases max hn with ⟨-, hpop⟩ | ⟨hnot, -⟩
  · exact hpop
  · exact absurd hdescends hnot

end CodingForFun.PriorityQueue
