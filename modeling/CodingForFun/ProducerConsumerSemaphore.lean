import CodingForFun.Lib.Threads
import CodingForFun.ProducerConsumerBuffer

/-!
# The semaphore of `producerconsumer_semaphore.c`

A producer queues one value under `buffer_lock` and then posts `buffer_sem`; a consumer waits for
`buffer_sem` and then dequeues under the lock (`buffer_unlock` in the source is read as
`buffer_lock`). Between the semaphore and the lock any other thread may run. What is in the buffer is
the count of the semaphore, plus one for each consumer that has passed `sem_wait` and not dequeued yet,
plus one for each producer that has queued and not posted yet (`Inv`).
-/

namespace CodingForFun.ProducerConsumerSemaphore

open Lib ProducerConsumerBuffer

/-- The function of a thread, and what a producer is started with. -/
inductive Role
  | producer (n : Int)
  | consumer
  deriving DecidableEq, Repr

/-- Where a thread is in its function. -/
inductive Pc
  | semWait
  | lock
  | queue
  | dequeue
  | unlock
  | semPost
  | done
  /-- a failed assertion -/
  | abort
  deriving DecidableEq, Repr

/-- The shared variables, the places of the threads, and the values queued and dequeued so far. -/
structure State (Tid : Type) where
  buffer : Buffer
  bufferLock : Option Tid
  bufferSem : ℕ
  pc : Tid → Pc
  queued : List Int
  dequeued : List Int

variable {Tid : Type}

/-- The first statement of a thread. -/
def Role.entry : Role → Pc
  | .producer _ => .lock
  | .consumer => .semWait

/-- The program as `main` starts it, with one thread for each `role t`. -/
def initial (role : Tid → Role) : State Tid where
  buffer := empty
  bufferLock := none
  bufferSem := 0
  pc t := (role t).entry
  queued := []
  dequeued := []

variable [DecidableEq Tid]

def State.goto (s : State Tid) (t : Tid) (pc : Pc) : State Tid :=
  { s with pc := Function.update s.pc t pc }

/-- The next statement of thread `t`. -/
def step (role : Tid → Role) (s : State Tid) (t : Tid) : Option (State Tid) :=
  match role t, s.pc t with
  | .producer _, .lock =>
    if s.bufferLock = none then some ({ s with bufferLock := some t }.goto t .queue) else none
  | .producer n, .queue =>
    match queue n s.buffer with
    | some buffer => some ({ s with buffer := buffer, queued := s.queued ++ [n] }.goto t .unlock)
    | none => some (s.goto t .abort)
  | .producer _, .unlock => some ({ s with bufferLock := none }.goto t .semPost)
  | .producer _, .semPost => some ({ s with bufferSem := s.bufferSem + 1 }.goto t .done)
  | .consumer, .semWait =>
    if 0 < s.bufferSem then some ({ s with bufferSem := s.bufferSem - 1 }.goto t .lock) else none
  | .consumer, .lock =>
    if s.bufferLock = none then some ({ s with bufferLock := some t }.goto t .dequeue) else none
  | .consumer, .dequeue =>
    let (v, buffer) := dequeue s.buffer
    some ({ s with buffer := buffer, dequeued := s.dequeued ++ [v] }.goto t .unlock)
  | .consumer, .unlock => some ({ s with bufferLock := none }.goto t .done)
  | _, _ => none

/-! ## The books -/

/-- The consumer has passed `sem_wait` and has not dequeued yet. -/
def taking : Role → Pc → Bool
  | .consumer, .lock => true
  | .consumer, .dequeue => true
  | _, _ => false

/-- The producer has queued its value and has not posted yet. -/
def posting : Role → Pc → Bool
  | .producer _, .unlock => true
  | .producer _, .semPost => true
  | _, _ => false

/-- The producer has queued its value. -/
def hasQueued : Role → Pc → Bool
  | .producer _, .unlock => true
  | .producer _, .semPost => true
  | .producer _, .done => true
  | _, _ => false

/-- A producer, wherever it is. -/
def isProducer : Role → Bool
  | .producer _ => true
  | .consumer => false

section books

variable [Fintype Tid]

/-- The number of threads that the predicate holds of. -/
def count (role : Tid → Role) (f : Role → Pc → Bool) (s : State Tid) : ℕ :=
  tally fun t => f (role t) (s.pc t) = true

/-- What holds throughout every run. -/
structure Inv (role : Tid → Role) (s : State Tid) : Prop where
  index : s.buffer.index1 = s.bufferSem + count role taking s + count role posting s
  queued : s.queued.length = count role hasQueued s
  values : (s.queued : Multiset Int) = s.dequeued + stored s.buffer
  running : ∀ t, s.pc t ≠ .abort

variable {role : Tid → Role} {s s' : State Tid} {t : Tid}

omit [DecidableEq Tid] in
theorem Inv.initial (role : Tid → Role) : Inv role (initial role) := by
  have hzero : ∀ f : Role → Pc → Bool, (∀ r : Role, f r r.entry = false) →
      count role f (ProducerConsumerSemaphore.initial role) = 0 := by
    intro f hf
    apply tally_eq_zero
    intro t
    show ¬ f (role t) (role t).entry = true
    rw [hf]
    exact Bool.false_ne_true
  constructor
  · rw [hzero taking (fun r => by cases r <;> rfl), hzero posting (fun r => by cases r <;> rfl)]
    rfl
  · rw [hzero hasQueued (fun r => by cases r <;> rfl)]
    rfl
  · rfl
  · intro t
    show (role t).entry ≠ .abort
    cases role t <;> exact Pc.noConfusion

theorem count_goto (role : Tid → Role) (f : Role → Pc → Bool) {p p' : Pc} (hpc : s.pc t = p)
    (hpc' : s'.pc = Function.update s.pc t p') :
    count role f s' + (if f (role t) p = true then 1 else 0) =
      count role f s + (if f (role t) p' = true then 1 else 0) := by
  have hchange := tally_change (p := fun u => f (role u) (s.pc u) = true)
    (q := fun u => f (role u) (s'.pc u) = true) (t := t)
    fun u hu => by rw [hpc', Function.update_of_ne hu]
  have hnew : s'.pc t = p' := by rw [hpc', Function.update_self]
  rw [hpc, hnew] at hchange
  exact hchange

omit [DecidableEq Tid] in
theorem Inv.index_lt (h : Inv role s) (hproducers : (tally fun t => isProducer (role t) = true) ≤ SIZE)
    {n : Int} (hrole : role t = .producer n) (hpc : s.pc t = .queue) : s.buffer.index1 < SIZE := by
  have hcard := congrArg Multiset.card h.values
  rw [Multiset.coe_card, Multiset.card_add, Multiset.coe_card, card_stored, h.queued] at hcard
  have hlt : count role hasQueued s < tally fun t => isProducer (role t) = true := by
    apply tally_lt (t := t)
    · intro u hu
      cases hu' : role u with
      | producer n => rfl
      | consumer => simp [hu', hasQueued] at hu
    · rw [hrole]
      rfl
    · simp [hrole, hpc, hasQueued]
  have hindex := h.index
  omega

omit [DecidableEq Tid] in
theorem Inv.index_pos (h : Inv role s) (hrole : role t = .consumer) (hpc : s.pc t = .dequeue) :
    0 < s.buffer.index1 := by
  have hpos : 0 < count role taking s := tally_pos.mpr ⟨t, by simp [hrole, hpc, taking]⟩
  have hindex := h.index
  omega

theorem Inv.not_abort_goto (h : Inv role s) {p : Pc} (hp : p ≠ .abort)
    (hpc : s'.pc = Function.update s.pc t p) (u : Tid) : s'.pc u ≠ .abort := by
  rw [hpc]
  by_cases hu : u = t
  · rw [hu, Function.update_self]
    exact hp
  · rw [Function.update_of_ne hu]
    exact h.running u

theorem Inv.quiet (h : Inv role s) {p : Pc} (hpc : s.pc t = p) (p' : Pc)
    (hpc' : s'.pc = Function.update s.pc t p') (hp' : p' ≠ .abort) (hbuffer : s'.buffer = s.buffer)
    (hqueued : s'.queued = s.queued) (hdequeued : s'.dequeued = s.dequeued)
    (hhas : hasQueued (role t) p' = hasQueued (role t) p)
    (hsem : s'.bufferSem + (if taking (role t) p' = true then 1 else 0) +
        (if posting (role t) p' = true then 1 else 0) =
      s.bufferSem + (if taking (role t) p = true then 1 else 0) +
        (if posting (role t) p = true then 1 else 0)) : Inv role s' := by
  have htaking := count_goto role taking hpc hpc'
  have hposting := count_goto role posting hpc hpc'
  have hhasQueued := count_goto role hasQueued hpc hpc'
  have hindex := h.index
  rw [hhas] at hhasQueued
  constructor
  · rw [hbuffer]
    omega
  · rw [hqueued, h.queued]
    omega
  · rw [hbuffer, hqueued, hdequeued]
    exact h.values
  · exact h.not_abort_goto hp' hpc'

theorem Inv.step_producer (h : Inv role s)
    (hproducers : (tally fun t => isProducer (role t) = true) ≤ SIZE) {n : Int}
    (hrole : role t = .producer n) (hstep : step role s t = some s') : Inv role s' := by
  cases hpc : s.pc t with
  | lock =>
    simp only [step, hrole, hpc] at hstep
    split at hstep
    · obtain rfl := Option.some.inj hstep
      refine h.quiet hpc .queue rfl (by simp) rfl rfl rfl ?_ ?_
      · simp [hrole, hasQueued]
      · simp [hrole, taking, posting, State.goto]
    · exact absurd hstep (Option.some_ne_none _).symm
  | queue =>
    have hlt := h.index_lt hproducers hrole hpc
    have hindex := h.index
    simp only [step, hrole, hpc, queue_of_le hlt.le] at hstep
    obtain rfl := Option.some.inj hstep
    generalize hs' : State.goto _ t Pc.unlock = s'
    have hpc' : s'.pc = Function.update s.pc t .unlock := by rw [← hs']; rfl
    have htaking := count_goto role taking hpc hpc'
    have hposting := count_goto role posting hpc hpc'
    have hhasQueued := count_goto role hasQueued hpc hpc'
    simp only [hrole, taking, posting, hasQueued, Bool.false_eq_true, if_false, if_true]
      at htaking hposting hhasQueued
    constructor
    · rw [← hs'] at htaking hposting ⊢
      show s.buffer.index1 + 1 = s.bufferSem + _ + _
      omega
    · rw [← hs'] at hhasQueued ⊢
      show (s.queued ++ [n]).length = _
      rw [List.length_append, List.length_singleton, h.queued]
      omega
    · rw [← hs']
      show ((s.queued ++ [n] : List Int) : Multiset Int) = s.dequeued + stored ⟨_, _⟩
      rw [stored_queue (by omega), ← Multiset.coe_add, h.values, Multiset.add_cons,
        Multiset.coe_singleton, ← Multiset.singleton_add, add_comm]
    · exact h.not_abort_goto (by simp) hpc'
  | unlock =>
    simp only [step, hrole, hpc] at hstep
    obtain rfl := Option.some.inj hstep
    refine h.quiet hpc .semPost rfl (by simp) rfl rfl rfl ?_ ?_
    · simp [hrole, hasQueued]
    · simp [hrole, taking, posting, State.goto]
  | semPost =>
    simp only [step, hrole, hpc] at hstep
    obtain rfl := Option.some.inj hstep
    refine h.quiet hpc .done rfl (by simp) rfl rfl rfl ?_ ?_
    · simp [hrole, hasQueued]
    · simp [hrole, taking, posting, State.goto]
  | semWait | dequeue | done | abort => simp [step, hrole, hpc] at hstep

theorem Inv.step_consumer (h : Inv role s) (hrole : role t = .consumer)
    (hstep : step role s t = some s') : Inv role s' := by
  cases hpc : s.pc t with
  | semWait =>
    simp only [step, hrole, hpc] at hstep
    split at hstep
    · obtain rfl := Option.some.inj hstep
      refine h.quiet hpc .lock rfl (by simp) rfl rfl rfl ?_ ?_
      · simp [hrole, hasQueued]
      · simp [hrole, taking, posting, State.goto]
        omega
    · exact absurd hstep (Option.some_ne_none _).symm
  | lock =>
    simp only [step, hrole, hpc] at hstep
    split at hstep
    · obtain rfl := Option.some.inj hstep
      refine h.quiet hpc .dequeue rfl (by simp) rfl rfl rfl ?_ ?_
      · simp [hrole, hasQueued]
      · simp [hrole, taking, posting, State.goto]
    · exact absurd hstep (Option.some_ne_none _).symm
  | dequeue =>
    have hpos := h.index_pos hrole hpc
    have hindex := h.index
    have hvalues := h.values
    simp only [step, hrole, hpc] at hstep
    obtain rfl := Option.some.inj hstep
    generalize hs' : State.goto _ t Pc.unlock = s'
    have hpc' : s'.pc = Function.update s.pc t .unlock := by rw [← hs']; rfl
    have htaking := count_goto role taking hpc hpc'
    have hposting := count_goto role posting hpc hpc'
    have hhasQueued := count_goto role hasQueued hpc hpc'
    simp only [hrole, taking, posting, hasQueued, Bool.false_eq_true, if_false, if_true]
      at htaking hposting hhasQueued
    constructor
    · rw [← hs'] at htaking hposting ⊢
      show s.buffer.index1 - 1 = s.bufferSem + _ + _
      omega
    · rw [← hs'] at hhasQueued ⊢
      show s.queued.length = _
      rw [h.queued]
      omega
    · rw [← hs']
      show (s.queued : Multiset Int) =
        ((s.dequeued ++ [(ProducerConsumerBuffer.dequeue s.buffer).1] : List Int) : Multiset Int) +
          stored (ProducerConsumerBuffer.dequeue s.buffer).2
      rw [hvalues, ← stored_dequeue hpos, ← Multiset.coe_add, Multiset.coe_singleton, add_assoc,
        Multiset.singleton_add]
    · exact h.not_abort_goto (by simp) hpc'
  | unlock =>
    simp only [step, hrole, hpc] at hstep
    obtain rfl := Option.some.inj hstep
    refine h.quiet hpc .done rfl (by simp) rfl rfl rfl ?_ ?_
    · simp [hrole, hasQueued]
    · simp [hrole, taking, posting, State.goto]
  | queue | semPost | done | abort => simp [step, hrole, hpc] at hstep

/-- **No thread finds the buffer the wrong way.** With at most `SIZE` producers and any number of
consumers, in every run: a consumer that is about to dequeue finds a value, a producer that is about to
queue finds room, and the values dequeued are among those queued, each at most as often. -/
theorem reaches_safe (hproducers : (tally fun t => isProducer (role t) = true) ≤ SIZE)
    (hrun : Reaches (step role) (fun _ _ => True) (initial role) s) :
    (∀ t, role t = .consumer → s.pc t = .dequeue → 0 < s.buffer.index1) ∧
      (∀ t n, role t = .producer n → s.pc t = .queue → s.buffer.index1 < SIZE) ∧
      (s.dequeued : Multiset Int) ≤ s.queued := by
  have h : Inv role s := by
    apply hrun.invariant (Inv.initial role)
    intro s t s' hs _ hstep
    cases hrole : role t with
    | producer n => exact hs.step_producer hproducers hrole hstep
    | consumer => exact hs.step_consumer hrole hstep
  refine ⟨fun t => h.index_pos, fun t n => h.index_lt hproducers, ?_⟩
  rw [h.values]
  exact Multiset.le_add_right _ _

end books

/-! ## The program as it is started -/

/-- `THREADS` -/
abbrev THREADS : ℕ := 10

/-- `main`: producers, which are passed their number, and consumers by turns. -/
def main (t : Fin (2 * THREADS)) : Role := if t.val % 2 = 0 then .producer t.val else .consumer

/-- The consumer that passes the semaphore first gets the value of the second producer. -/
theorem reaches_safe_main :
    ∃ s, Reaches (step main) (fun _ _ => True) (initial main) s ∧ s.dequeued = [2] ∧
      (s.dequeued : Multiset Int) ≤ s.queued := by
  have hrun : ([0, 0, 0, 0, 1, 2, 2, 2, 1, 1].foldlM
      (fun s t => if True then step main s t else none) (initial main)).any
        (fun s => decide (s.dequeued = [2])) = true := by
    decide +kernel
  obtain ⟨s, hs, hvalues⟩ := (Option.any_eq_true _ _).mp hrun
  have hreach := Reaches.of_foldlM _ hs
  exact ⟨s, hreach, of_decide_eq_true hvalues, (reaches_safe (by decide) hreach).2.2⟩

end CodingForFun.ProducerConsumerSemaphore
