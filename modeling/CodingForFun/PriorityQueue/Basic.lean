import CodingForFun.Lib.Cells

/-!
# The priority queue of `priorityqueue_heap.c`

The queue is an array heap that grows by doubling and shrinks by halving. Every function below
follows its C namesake statement by statement; array accesses are the checked ones of
`Lib.Cells`, and every `while` carries a bound on its rounds that is never met (`Valid.push`,
`Valid.pop_cases`). Indices and sizes are naturals. Where they can outgrow their type, the result is
`checked`: `max` is `some intMax` for the `int` of the source, and `none` where the sizes are taken as
unbounded. What is only printed is left out.
-/

namespace CodingForFun.PriorityQueue

open Lib

/-- `struct pq_element`. -/
structure PqElement where
  data : Int
  priority : Int
  deriving DecidableEq, Repr

/-- `struct pq`: the allocated cells, the number of elements stored and the number of elements the
queue believes allocated. -/
structure Pq where
  pqArray : Cells PqElement
  n : ℕ
  alloc : ℕ
  deriving DecidableEq, Repr

/-- `pq_new`. -/
def pqNew (size : Int) : Pq :=
  let size := if size < 4 then 4 else size.toNat
  { pqArray := Cells.malloc size, n := 0, alloc := size }

/-- `if (q->n >= q->alloc) …` of `pq_push`. -/
def pqReserve (max : Option ℕ) (q : Pq) : Except Fault Pq :=
  if q.n ≥ q.alloc then do
    let alloc ← checked max (q.alloc * 2)
    pure { q with alloc := alloc, pqArray := q.pqArray.realloc alloc }
  else pure q

/-- The variables of the loop of `pq_push`: the cells, the son `s` and the father `f`. -/
structure PushState where
  arr : Cells PqElement
  s : ℕ
  f : ℕ

/-- `(s > 0) && (priority < q->pq_array[f].priority)`. -/
def pushCond (priority : Int) (st : PushState) : Except Fault Bool :=
  if st.s > 0 then do
    let father ← st.arr.read st.f
    pure (decide (priority < father.priority))
  else pure false

/-- Shift the father down and follow it up. For `s = 0` C's `(s - 1) / 2` is `0`, as here. -/
def pushBody (st : PushState) : Except Fault PushState := do
  let father ← st.arr.read st.f
  let arr ← st.arr.write st.s father
  let s := st.f
  pure { arr := arr, s := s, f := (s - 1) / 2 }

/-- `pq_push`. -/
def pqPush (max : Option ℕ) (q : Pq) (data priority : Int) : Except Fault Pq := do
  let q ← pqReserve max q
  let n := q.n + 1
  let s := n - 1
  let st ← whileM .unbounded (pushCond priority) pushBody n { arr := q.pqArray, s := s, f := (s - 1) / 2 }
  let arr ← st.arr.write st.s { data := data, priority := priority }
  pure { q with pqArray := arr, n := n }

/-- The variables of the first loop of `pq_adjusttree`: the cells, the parent `p` and its sons. -/
structure DescendState where
  arr : Cells PqElement
  p : ℕ
  s1 : ℕ
  s2 : ℕ

/-- `(s2 > q->n-1) || (q->pq_array[s1].priority < q->pq_array[s2].priority)`: the son that takes the
place of the parent. -/
def descendSon (n : ℕ) (st : DescendState) : Except Fault ℕ :=
  if st.s2 > n - 1 then pure st.s1
  else do
    let son1 ← st.arr.read st.s1
    let son2 ← st.arr.read st.s2
    pure (if son1.priority < son2.priority then st.s1 else st.s2)

def descendBody (max : Option ℕ) (n : ℕ) (st : DescendState) : Except Fault DescendState := do
  let p ← descendSon n st
  let son ← st.arr.read p
  let arr ← st.arr.write st.p son
  let s1 ← checked max (2 * p + 1)
  let s2 ← checked max (2 * p + 2)
  pure { arr := arr, p := p, s1 := s1, s2 := s2 }

def descendCond (n : ℕ) (st : DescendState) : Except Fault Bool :=
  pure (decide (st.s1 ≤ n - 1))

/-- The variables of the second loop of `pq_adjusttree`. -/
structure RefillState where
  q : Pq
  current : ℕ

def refillCond (size : ℕ) (st : RefillState) : Except Fault Bool :=
  pure (decide (st.current ≠ size))

/-- Push the element at `current` again, with `q->n` lowered to the elements before it. -/
def refillBody (max : Option ℕ) (st : RefillState) : Except Fault RefillState := do
  let e ← st.q.pqArray.read st.current
  let q ← pqPush max { st.q with n := st.current - 1 } e.data e.priority
  pure { q := q, current := st.current + 1 }

/-- The shrinking at the end of `pq_adjusttree`. -/
def pqShrink (q : Pq) : Pq :=
  if q.n < q.alloc / 2 ∧ q.n ≥ 4 then
    { q with pqArray := q.pqArray.realloc (q.alloc / 2), alloc := q.alloc / 2 }
  else q

/-- `pq_adjusttree`. -/
def pqAdjusttree (max : Option ℕ) (q : Pq) : Except Fault Pq := do
  let st ← doWhileM .unbounded (descendCond q.n) (descendBody max q.n) q.n
    { arr := q.pqArray, p := 0, s1 := 1, s2 := 2 }
  let size := q.n
  let st ← whileM .unbounded (refillCond size) (refillBody max) (size + 1)
    { q := { q with pqArray := st.arr }, current := st.p + 1 }
  pure (pqShrink { st.q with n := size - 1 })

/-- `pq_pop`: the value returned and the queue left. -/
def pqPop (max : Option ℕ) (q : Pq) : Except Fault (Int × Pq) :=
  if q.n = 0 then pure (0, q)
  else do
    let root ← q.pqArray.read 0
    if q.n = 1 then
      pure (root.data, { q with n := 0 })
    else do
      let q ← pqAdjusttree max q
      pure (root.data, q)

/-- The scan shared by `pq_changepriority` and `pq_haskey`: the first of `remaining` positions from
`i` on that holds `data`. -/
def pqScan (arr : Cells PqElement) (data : Int) : (remaining i : ℕ) → Except Fault (Option ℕ)
  | 0, _ => pure none
  | remaining + 1, i => do
    let e ← arr.read i
    if e.data = data then pure (some i) else pqScan arr data remaining (i + 1)

/-- `pq_changepriority`: a value that is not stored ends the program. -/
def pqChangepriority (q : Pq) (data priority : Int) : Except Fault Pq := do
  match ← pqScan q.pqArray data q.n 0 with
  | some i =>
    let e ← q.pqArray.read i
    let arr ← q.pqArray.write i { e with priority := priority }
    pure { q with pqArray := arr }
  | none => .error .exit

/-- `pq_haskey`. -/
def pqHaskey (q : Pq) (data : Int) : Except Fault Bool := do
  let found ← pqScan q.pqArray data q.n 0
  pure found.isSome

end CodingForFun.PriorityQueue
