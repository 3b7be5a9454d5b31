import CodingForFun.Lib.Runs
import CodingForFun.PriorityQueue.AdjustTree

/-!
# The queue over whole runs

For its callers the queue is a multiset of pairs: a push adds a pair, a pop takes out one of minimal
priority (`RemovesMin`). `pqStep_cases` says when a call does so: unless a size or an index is too large for
its type (`NoOverflow`). What holds of whole sequences of calls follows from it, and a heap is emptied in the
order of the priorities (`pqDrain_spec`).
-/

namespace CodingForFun.PriorityQueue

open Lib Lib.MinHeap

/-- One element of minimal priority leaves `m`; `data` is its data and `m'` what remains. -/
def RemovesMin (m : Multiset PqElement) (data : Int) (m' : Multiset PqElement) : Prop :=
  ∃ e, e.data = data ∧ m = e ::ₘ m' ∧ ∀ x ∈ m, e.priority ≤ x.priority

/-- A call of the queue's interface. -/
inductive PqOp
  | push (data priority : Int)
  | pop

def pqStep (max : Option ℕ) (q : Pq) : PqOp → Except Fault Pq
  | .push data priority => pqPush max q data priority
  | .pop => do
    let (_, q) ← pqPop max q
    pure q

/-- A sequence of calls. -/
def pqRun (max : Option ℕ) (q : Pq) : List PqOp → Except Fault Pq
  | [] => pure q
  | op :: ops => do
    let q ← pqStep max q op
    pqRun max q ops

/-- `k` pops in a row: the data returned and the queue left. -/
def pqDrain (max : Option ℕ) : ℕ → Pq → Except Fault (List Int × Pq)
  | 0, q => pure ([], q)
  | k + 1, q => do
    let (out, q) ← pqPop max q
    let (outs, q) ← pqDrain max k q
    pure (out :: outs, q)

/-- What a call is for. Nothing is asked of the value that a pop of an empty queue returns. -/
def Serves (max : Option ℕ) (q : Pq) : PqOp → Prop
  | .push data priority => ∃ q', pqPush max q data priority = .ok q' ∧ IsHeap q' ∧
      stored q' = ⟨data, priority⟩ ::ₘ stored q
  | .pop => ∃ data q', pqPop max q = .ok (data, q') ∧ IsHeap q' ∧
      (q.n = 0 ∧ q' = q ∨ RemovesMin (stored q) data (stored q'))

/-- All that the call computes is in range. -/
def NoOverflow (max : Option ℕ) (q : Pq) : PqOp → Prop
  | .push _ _ => CanGrow max q
  | .pop => Descends max q

variable {max : Option ℕ}

theorem noOverflow_none (q : Pq) (op : PqOp) : NoOverflow none q op := by
  cases op with
  | push data priority => exact canGrow_none q
  | pop => exact descends_none q

theorem noOverflow_of_le {m : ℕ} {q : Pq} (hn : 2 * q.n ≤ m) (op : PqOp) : NoOverflow (some m) q op := by
  cases op with
  | push data priority => exact canGrow_of_le hn
  | pop => exact descends_of_le hn

theorem IsHeap.pop {q : Pq} (hq : IsHeap q) (h : Valid q) (hn : 0 < q.n) (hdescends : Descends max q) :
    ∃ data q', pqPop max q = .ok (data, q') ∧ Valid q' ∧ IsHeap q' ∧
      RemovesMin (stored q) data (stored q') := by
  obtain ⟨q', hpop, hvalid, hstored, horder⟩ := h.pop hn hdescends
  exact ⟨_, q', hpop, hvalid, horder hq, q.elem 0, rfl, hstored.symm, fun x hx => hq.root_le_of_mem hx⟩

theorem pqStep_cases {q : Pq} (h : Valid q) (hq : IsHeap q) (op : PqOp) :
    (NoOverflow max q op ∧ Serves max q op ∧ ∃ q', pqStep max q op = .ok q' ∧ Valid q' ∧ IsHeap q') ∨
      (¬NoOverflow max q op ∧ ¬Serves max q op ∧ pqStep max q op = .error .overflow) := by
  cases op with
  | push data priority =>
    by_cases hgrow : CanGrow max q
    · obtain ⟨q', hpush, hvalid, hstored, horder⟩ := h.push hgrow data priority
      exact .inl ⟨hgrow, ⟨q', hpush, horder hq, hstored⟩, q', hpush, hvalid, horder hq⟩
    · have hpush := pqPush_overflow hgrow data priority
      refine .inr ⟨hgrow, ?_, hpush⟩
      rintro ⟨q', hok, -⟩
      rw [hpush] at hok
      cases hok
  | pop =>
    rcases Nat.eq_zero_or_pos q.n with hn | hn
    · have hpop := pqPop_empty max hn
      refine .inl ⟨descends_of_empty hn, ⟨0, q, hpop, hq, .inl ⟨hn, rfl⟩⟩, q, ?_, h, hq⟩
      rw [pqStep, hpop]
      rfl
    · by_cases hdescends : Descends max q
      · obtain ⟨data, q', hpop, hvalid, hheap, hmin⟩ := hq.pop h hn hdescends
        refine .inl ⟨hdescends, ⟨data, q', hpop, hheap, .inr hmin⟩, q', ?_, hvalid, hheap⟩
        rw [pqStep, hpop]
        rfl
      · have hpop := (h.pop_cases max hn).resolve_left fun hok => hdescends hok.1
        refine .inr ⟨hdescends, ?_, by rw [pqStep, hpop.2, error_bind]⟩
        rintro ⟨data, q', hok, -⟩
        rw [hpop.2] at hok
        cases hok

theorem pqStep_serves {q : Pq} (h : Valid q) (hq : IsHeap q) {op : PqOp} (hno : NoOverflow max q op) :
    Serves max q op ∧ ∃ q', pqStep max q op = .ok q' ∧ Valid q' ∧ IsHeap q' :=
  ((pqStep_cases h hq op).resolve_right fun hover => hover.1 hno).2

theorem each_serves_iff (ops : List PqOp) : ∀ q, Valid q → IsHeap q →
    (Each (pqStep max) (Serves max) q ops ↔ Each (pqStep max) (NoOverflow max) q ops) := by
  induction ops with
  | nil => exact fun _ _ _ => Iff.rfl
  | cons op ops ih =>
    intro q h hq
    rcases pqStep_cases h hq op with ⟨hno, hserves, q', hstep, hvalid, hheap⟩ | ⟨hover, hnot, -⟩
    · rw [each_cons hstep, each_cons hstep, ih q' hvalid hheap]
      exact and_congr_left fun _ => iff_of_true hserves hno
    · exact iff_of_false (fun heach => hnot heach.1) fun heach => hover heach.1

theorem pqRun_spec (ops : List PqOp) : ∀ q, Valid q → IsHeap q → Each (pqStep max) (NoOverflow max) q ops →
    ∃ q', pqRun max q ops = .ok q' ∧ Valid q' ∧ IsHeap q' := by
  induction ops with
  | nil => intro q h hq _; exact ⟨q, rfl, h, hq⟩
  | cons op ops ih =>
    intro q h hq heach
    obtain ⟨-, q', hstep, hvalid, hheap⟩ := pqStep_serves h hq heach.1
    obtain ⟨q'', hrun, hfinal⟩ := ih q' hvalid hheap (heach.2 q' hstep)
    exact ⟨q'', by simp [pqRun, hstep, hrun], hfinal⟩

theorem each_of_pqRun (ops : List PqOp) {q' : Pq} : ∀ q, Valid q → IsHeap q → pqRun max q ops = .ok q' →
    Each (pqStep max) (NoOverflow max) q ops := by
  induction ops with
  | nil => exact fun _ _ _ _ => trivial
  | cons op ops ih =>
    intro q h hq hrun
    rcases pqStep_cases h hq op with ⟨hno, -, q₁, hstep, hvalid, hheap⟩ | ⟨-, -, hstep⟩
    · rw [pqRun, hstep, ok_bind] at hrun
      exact (each_cons hstep).mpr ⟨hno, ih q₁ hvalid hheap hrun⟩
    · rw [pqRun, hstep] at hrun
      cases hrun

theorem pqDrain_spec : ∀ (k : ℕ) (q : Pq) {outs : List Int} {q' : Pq}, q.n = k → Valid q → IsHeap q →
    pqDrain max k q = .ok (outs, q') →
    ∃ es : List PqElement, outs = es.map (·.data) ∧ q'.n = 0 ∧
      (es : Multiset PqElement) = stored q ∧ es.Pairwise (·.priority ≤ ·.priority) := by
  intro k
  induction k with
  | zero =>
    intro q outs q' hn _ _ hdrain
    obtain ⟨rfl, rfl⟩ := Prod.mk.inj (Except.ok.inj hdrain)
    refine ⟨[], rfl, hn, ?_, .nil⟩
    rw [stored, hn]
    rfl
  | succ k ih =>
    intro q outs q' hn h hq hdrain
    rw [pqDrain] at hdrain
    obtain ⟨⟨data, q₁⟩, hpop, hdrain⟩ := exists_of_bind_eq_ok hdrain
    obtain ⟨⟨outs₁, q₂⟩, hrest, hdrain⟩ := exists_of_bind_eq_ok hdrain
    obtain ⟨rfl, rfl⟩ := Prod.mk.inj (Except.ok.inj hdrain)
    have hdescends : Descends max q := by
      rcases h.pop_cases max (by omega) with ⟨hdescends, -⟩ | ⟨-, hover⟩
      · exact hdescends
      · rw [hover] at hpop
        cases hpop
    obtain ⟨data', q₁', hpop', hvalid, hheap, e, rfl, hstored, hmin⟩ := hq.pop h (by omega) hdescends
    obtain ⟨rfl, rfl⟩ := Prod.mk.inj (Except.ok.inj (hpop.symm.trans hpop'))
    have hn' : q₁.n = k := by
      have := congrArg Multiset.card hstored
      rw [Multiset.card_cons, card_stored, card_stored] at this
      omega
    obtain ⟨es, rfl, hempty, hes, hsorted⟩ := ih q₁ hn' hvalid hheap hrest
    refine ⟨e :: es, rfl, hempty, ?_, ?_⟩
    · rw [hstored, ← hes]
      rfl
    · refine List.pairwise_cons.mpr ⟨fun x hx => hmin x ?_, hsorted⟩
      rw [hstored, ← hes]
      exact Multiset.mem_cons_of_mem hx

/-- **The queue is a priority queue** until a size or an index overflows. In any sequence of pushes and pops on a
new queue each call leaves a heap and adds its pair or removes one of minimal priority, exactly as long as
all that the calls compute is in range; and draining the queue yields its elements in the order of their
priorities. -/
theorem pqRun_isPriorityQueue_iff (size : Int) (ops : List PqOp) :
    (Each (pqStep (some intMax)) (Serves (some intMax)) (pqNew size) ops ↔
      Each (pqStep (some intMax)) (NoOverflow (some intMax)) (pqNew size) ops) ∧
    ∀ q outs q', pqRun (some intMax) (pqNew size) ops = .ok q → pqDrain (some intMax) q.n q = .ok (outs, q') →
      ∃ es : List PqElement, outs = es.map (·.data) ∧ q'.n = 0 ∧ (es : Multiset PqElement) = stored q ∧
        es.Pairwise (·.priority ≤ ·.priority) := by
  have hvalid := pqNew_valid size
  have hheap := isHeap_pqNew size
  refine ⟨each_serves_iff ops _ hvalid hheap, fun q outs q' hrun hdrain => ?_⟩
  obtain ⟨q₁, hrun₁, hvalid₁, hheap₁⟩ := pqRun_spec ops _ hvalid hheap (each_of_pqRun ops _ hvalid hheap hrun)
  obtain rfl := Except.ok.inj (hrun.symm.trans hrun₁)
  exact pqDrain_spec _ q rfl hvalid₁ hheap₁ hdrain

theorem not_each_noOverflow {m : ℕ} (data priority : Int) (k : ℕ) : ∀ q, Valid q → IsHeap q → q.n + k = q.alloc →
    m < q.alloc * 2 →
    ¬Each (pqStep (some m)) (NoOverflow (some m)) q (List.replicate (k + 1) (.push data priority)) := by
  induction k with
  | zero =>
    rintro q - - hfull hm ⟨hgrow, -⟩
    rcases hgrow with hroom | hrange
    · omega
    · have := inRange_some.mp hrange
      omega
  | succ k ih =>
    rintro q h hq hfull hm ⟨hgrow, hrest⟩
    obtain ⟨q', hpush, hvalid, -, horder⟩ := h.push hgrow data priority
    obtain ⟨hn, halloc⟩ : q'.n = q.n + 1 ∧ q'.alloc = q.alloc := by
      obtain ⟨arr, a, hpush', -⟩ := pqPush_spec (some m) q (h.holds.extend (by rw [h.length]; omega) ⟨0, 0⟩)
        (Nat.lt_succ_self _) (by omega) data priority
      obtain rfl := Except.ok.inj (hpush.symm.trans hpush')
      exact ⟨rfl, rfl⟩
    exact ih q' hvalid (horder hq) (by omega) (by omega) (hrest q' hpush)

theorem Serves.size_le {q q' : Pq} {op : PqOp} (h : Serves max q op) (hstep : pqStep max q op = .ok q') :
    q'.n ≤ q.n + 1 := by
  cases op with
  | push data priority =>
    obtain ⟨q₁, hpush, -, hstored⟩ := h
    obtain rfl := Except.ok.inj (hpush.symm.trans hstep)
    have hcard := congrArg Multiset.card hstored
    rw [Multiset.card_cons, card_stored, card_stored] at hcard
    exact hcard.le
  | pop =>
    obtain ⟨data, q₁, hpop, -, hleft⟩ := h
    rw [pqStep, hpop] at hstep
    obtain rfl := Except.ok.inj hstep
    rcases hleft with ⟨-, rfl⟩ | ⟨e, -, hstored, -⟩
    · exact Nat.le_succ _
    · have hcard := congrArg Multiset.card hstored
      rw [Multiset.card_cons, card_stored, card_stored] at hcard
      omega

theorem each_noOverflow_of_length {m : ℕ} (ops : List PqOp) : ∀ q, Valid q → IsHeap q →
    2 * (q.n + ops.length) ≤ m + 2 → Each (pqStep (some m)) (NoOverflow (some m)) q ops := by
  induction ops with
  | nil => exact fun _ _ _ _ => trivial
  | cons op ops ih =>
    intro q h hq hlen
    rw [List.length_cons] at hlen
    have hno : NoOverflow (some m) q op := noOverflow_of_le (by omega) op
    obtain ⟨hserves, q', hstep, hvalid, hheap⟩ := pqStep_serves h hq hno
    have hsize := hserves.size_le hstep
    exact (each_cons hstep).mpr ⟨hno, ih q' hvalid hheap (by omega)⟩

/-- Up to `2 ^ 30` calls the queue is a priority queue, whatever they are. -/
theorem each_serves_of_length (size : Int) {ops : List PqOp} (hlen : ops.length ≤ 1073741824) :
    Each (pqStep (some intMax)) (Serves (some intMax)) (pqNew size) ops := by
  have hvalid := pqNew_valid size
  have hheap := isHeap_pqNew size
  have hempty : (pqNew size).n = 0 := rfl
  refine (each_serves_iff ops _ hvalid hheap).mpr (each_noOverflow_of_length ops _ hvalid hheap ?_)
  rw [hempty, intMax]
  omega

/-- A queue for `2 ^ 30` elements, and one more. -/
theorem not_serves_full : ¬Each (pqStep (some intMax)) (Serves (some intMax)) (pqNew 1073741824)
    (List.replicate 1073741825 (.push 0 0)) := by
  intro h
  have hvalid := pqNew_valid 1073741824
  have hheap := isHeap_pqNew 1073741824
  exact not_each_noOverflow 0 0 1073741824 _ hvalid hheap (by decide) (by decide)
    ((each_serves_iff _ _ hvalid hheap).mp h)

end CodingForFun.PriorityQueue
