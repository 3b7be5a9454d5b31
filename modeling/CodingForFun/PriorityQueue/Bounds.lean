import CodingForFun.PriorityQueue.Runs

/-!
# The queue stays inside its storage

Every access of the model is checked against the allocated cells and against what was written, so a
run that ends in `.ok` has made no other access (`Cells.read_eq_ok_iff`, `Cells.write_eq_ok_iff`).
What is left is how `n` and `alloc` move. Inside `pq_adjusttree` the calls of `pq_push` see `q->n`
lowered to `current - 1`, which the loop keeps below the number of elements, hence below `alloc`
(`RefillHead.fits`).
-/

namespace CodingForFun.PriorityQueue

open Lib

/-- The states in which the second loop of `pq_adjusttree` tests its condition, for a call on `q`. -/
inductive RefillHead (q : Pq) : RefillState → Prop
  | start {st : DescendState}
      (hdescend : doWhileM .unbounded (descendCond q.n) (descendBody none q.n) q.n
        ⟨q.pqArray, 0, 1, 2⟩ = .ok st) :
      RefillHead q ⟨{ q with pqArray := st.arr }, st.p + 1⟩
  | round {st st' : RefillState} (hhead : RefillHead q st) (hcond : refillCond q.n st = .ok true)
      (hbody : refillBody none st = .ok st') : RefillHead q st'

theorem refillCond_eq_true {size : ℕ} {st : RefillState} :
    refillCond size st = .ok true ↔ st.current ≠ size := by
  simp [refillCond]

theorem RefillHead.refilling {q : Pq} {st : RefillState} (hhead : RefillHead q st) (h : Valid q)
    (hn : 2 ≤ q.n) : ∃ a, Refilling q.elem q.n (q.elem 0) q st a := by
  induction hhead with
  | @start st hdescend =>
    rcases descend_cases none h.holds hn with ⟨-, st', hdescend', a, hst'⟩ | ⟨hnot, -⟩
    swap
    · exact absurd (descends_none q) hnot
    obtain rfl : st' = st := by
      rw [hdescend] at hdescend'
      exact (Except.ok.inj hdescend').symm
    exact ⟨a, hst'.refilling⟩
  | @round st st' _ hcond hbody ih =>
    obtain ⟨a, hst⟩ := ih
    obtain ⟨st'', a'', hbody'', hst'', -⟩ := hst.step none h.le (refillCond_eq_true.mp hcond)
    obtain rfl : st'' = st' := by
      rw [hbody] at hbody''
      exact (Except.ok.inj hbody'').symm
    exact ⟨a'', hst''⟩

theorem RefillHead.fits {q : Pq} {st : RefillState} (hhead : RefillHead q st) (h : Valid q)
    (hn : 2 ≤ q.n) : st.current - 1 < st.q.alloc := by
  obtain ⟨a, hst⟩ := hhead.refilling h hn
  have hpos := hst.pos
  have hle := hst.le
  have hroom := h.le
  rw [hst.alloc]
  omega

/-- **The queue never leaves its storage.** Any pushes and pops on a new queue of any size end
without a fault, with `n ≤ alloc` and `alloc ≥ 4`, in as many cells as `alloc` says; and if the next
call is of `pq_adjusttree`, no `pq_push` inside it reallocates. -/
theorem pqRun_inBounds (size : Int) (ops : List PqOp) :
    ∃ q, pqRun none (pqNew size) ops = .ok q ∧ q.n ≤ q.alloc ∧ 4 ≤ q.alloc ∧
      q.pqArray.length = q.alloc ∧
      (2 ≤ q.n → ∀ st, RefillHead q st → refillCond q.n st = .ok true →
        pqReserve none { st.q with n := st.current - 1 } = .ok { st.q with n := st.current - 1 }) := by
  obtain ⟨q, hrun, hvalid, -⟩ := pqRun_spec ops _ (pqNew_valid size) (isHeap_pqNew size)
    (each_of_forall noOverflow_none ops _)
  refine ⟨q, hrun, hvalid.le, hvalid.room, hvalid.length, ?_⟩
  intro hn st hhead _
  exact pqReserve_of_lt (hhead.fits hvalid hn)

end CodingForFun.PriorityQueue
