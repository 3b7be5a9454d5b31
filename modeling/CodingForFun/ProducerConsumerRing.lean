import CodingForFun.Lib.Ring
import CodingForFun.Lib.Threads

/-!
# The ring of `producerconsumer_condv.cpp`

`push` and `pop` run their bodies under `mtx_` once the predicate they wait for holds, so a completed
call is one step, enabled by that predicate; which thread makes it is read nowhere. The counters are
64-bit words that grow forever and are reduced by `Q_MASK` at each access. As long as they do not
overflow they are the numbers of the completed pushes and pops, and the array holds what was pushed
and not yet popped (`Represents`).
-/

namespace CodingForFun.ProducerConsumerRing

open Lib

/-- `head_`, `tail_` and `ptr_array_`. -/
structure Queue (T : Type) where
  head : UInt64
  tail : UInt64
  ptrArray : ℕ → T

variable {T : Type}

/-- `Q_MASK`. -/
def qMask (qSize : UInt64) : UInt64 := qSize - 1

/-- `push`; `none` while the predicate of `cond_overflow_` does not hold. -/
def push (qSize : UInt64) (q : Queue T) (x : T) : Option (Queue T) :=
  if q.tail + qSize > q.head then
    some { q with
      ptrArray := Function.update q.ptrArray (q.head &&& qMask qSize).toNat x
      head := q.head + 1 }
  else none

/-- `pop`; `none` while the predicate of `cond_empty_` does not hold. -/
def pop (qSize : UInt64) (q : Queue T) : Option (T × Queue T) :=
  if q.tail < q.head then
    some (q.ptrArray (q.tail &&& qMask qSize).toNat, { q with tail := q.tail + 1 })
  else none

/-- The queue, and the pointers that the completed calls were passed and returned. -/
structure State (T : Type) where
  queue : Queue T
  pushed : List T
  popped : List T

/-- A call that completes. -/
inductive Call (T : Type)
  | push (x : T)
  | pop

def step (qSize : UInt64) (s : State T) : Call T → Option (State T)
  | .push x => do
    let queue ← push qSize s.queue x
    some { s with queue := queue, pushed := s.pushed ++ [x] }
  | .pop => do
    let (x, queue) ← pop qSize s.queue
    some { s with queue := queue, popped := s.popped ++ [x] }

/-- `head_ = tail_ = 0`; the array starts with any contents. -/
def initial (ptrArray : ℕ → T) : State T := ⟨⟨0, 0, ptrArray⟩, [], []⟩

/-- The counters count the completed calls, the array holds the pointers pushed and not yet popped,
and those popped are the first ones pushed. -/
structure Represents (qSize : UInt64) (s : State T) : Prop where
  head : s.queue.head.toNat = s.pushed.length
  tail : s.queue.tail.toNat = s.popped.length
  ring : RingHolds s.queue.ptrArray qSize.toNat s.pushed s.popped.length
  fifo : s.popped = s.pushed.take s.popped.length

theorem initial_represents (qSize : UInt64) (ptrArray : ℕ → T) :
    Represents qSize (initial ptrArray) :=
  ⟨rfl, rfl, .nil _ _, rfl⟩

variable {qSize : UInt64} {k : ℕ} {s s' : State T}

theorem step_cases {c : Call T} (h : step qSize s c = some s') :
    (∃ x, c = .push x ∧ s.queue.tail + qSize > s.queue.head ∧
      s' = ⟨⟨s.queue.head + 1, s.queue.tail,
        Function.update s.queue.ptrArray (s.queue.head &&& qMask qSize).toNat x⟩,
        s.pushed ++ [x], s.popped⟩) ∨
    (c = .pop ∧ s.queue.tail < s.queue.head ∧
      s' = ⟨⟨s.queue.head, s.queue.tail + 1, s.queue.ptrArray⟩, s.pushed,
        s.popped ++ [s.queue.ptrArray (s.queue.tail &&& qMask qSize).toNat]⟩) := by
  cases c with
  | push x =>
    by_cases hroom : s.queue.tail + qSize > s.queue.head
    · refine .inl ⟨x, rfl, hroom, ?_⟩
      simpa [step, push, hroom] using h.symm
    · simp [step, push, hroom] at h
  | pop =>
    by_cases hfull : s.queue.tail < s.queue.head
    · refine .inr ⟨rfl, hfull, ?_⟩
      simpa [step, pop, hfull] using h.symm
    · simp [step, pop, hfull] at h

theorem Represents.step {c : Call T} (hr : Represents qSize s) (hsize : qSize.toNat = 2 ^ k)
    (h : step qSize s c = some s') (hfew : s'.pushed.length < 2 ^ 64 - qSize.toNat) :
    Represents qSize s' := by
  have hsize64 := qSize.toNat_lt
  have hhead := hr.head
  have htail := hr.tail
  have hle := hr.ring.le
  obtain ⟨x, -, hroom, rfl⟩ | ⟨-, hfull, rfl⟩ := step_cases h
  · simp only [List.length_append, List.length_singleton] at hfew
    have hlt : s.pushed.length < s.popped.length + qSize.toNat := by
      have hroom' := UInt64.lt_iff_toNat_lt.mp hroom
      rw [UInt64.toNat_add, Nat.mod_eq_of_lt (by omega), hhead, htail] at hroom'
      exact hroom'
    have hslot : (s.queue.head &&& qMask qSize).toNat = s.pushed.length % qSize.toNat := by
      rw [qMask, toNat_and_mask hsize, hhead]
    constructor
    · show (s.queue.head + 1).toNat = (s.pushed ++ [x]).length
      rw [UInt64.toNat_add, UInt64.toNat_one, Nat.mod_eq_of_lt (by omega), hhead]
      simp
    · exact htail
    · show RingHolds (Function.update s.queue.ptrArray _ x) _ _ _
      rw [hslot]
      exact hr.ring.push hlt x
    · show s.popped = (s.pushed ++ [x]).take s.popped.length
      rw [List.take_append_of_le_length hle]
      exact hr.fifo
  · change s.pushed.length < _ at hfew
    have hlt : s.popped.length < s.pushed.length := by
      have hfull' := UInt64.lt_iff_toNat_lt.mp hfull
      rwa [hhead, htail] at hfull'
    have hslot : (s.queue.tail &&& qMask qSize).toNat = s.popped.length % qSize.toNat := by
      rw [qMask, toNat_and_mask hsize, htail]
    obtain ⟨hvalue, hring⟩ := hr.ring.pop hlt
    constructor
    · exact hhead
    · show (s.queue.tail + 1).toNat = (s.popped ++ [_]).length
      rw [UInt64.toNat_add, UInt64.toNat_one, Nat.mod_eq_of_lt (by omega), htail]
      simp
    · show RingHolds s.queue.ptrArray _ s.pushed (s.popped ++ [_]).length
      rw [List.length_append, List.length_singleton]
      exact hring
    · show s.popped ++ [_] = s.pushed.take (s.popped ++ [_]).length
      rw [List.length_append, List.length_singleton, List.take_succ_eq_append_getElem hlt, ← hr.fifo,
        hslot, hvalue]

theorem pushed_length_le {c : Call T} (h : step qSize s c = some s') :
    s.pushed.length ≤ s'.pushed.length := by
  obtain ⟨x, -, -, rfl⟩ | ⟨-, -, rfl⟩ := step_cases h
  · simp
  · exact le_rfl

theorem reaches_represents (hsize : qSize.toNat = 2 ^ k) {ptrArray : ℕ → T}
    (hrun : Reaches (step qSize) (fun _ _ => True) (initial ptrArray) s)
    (hfew : s.pushed.length < 2 ^ 64 - qSize.toNat) : Represents qSize s := by
  revert hfew
  refine @Reaches.invariant _ _ _ _ (fun s => s.pushed.length < _ → Represents qSize s) _ _ hrun
    (fun _ => initial_represents qSize ptrArray) ?_
  intro s c s' ih _ hstep hfew'
  have hgrows := pushed_length_le hstep
  exact (ih (by omega)).step hsize hstep hfew'

/-- **The ring is a FIFO queue.** In every run with fewer than `2 ^ 64 - Q_SIZE` pushes, `head_` is at
most `Q_SIZE` ahead of `tail_`, and the pops have returned the first pointers pushed, in their
order. -/
theorem reaches_isFifo (hsize : qSize.toNat = 2 ^ k) {ptrArray : ℕ → T}
    (hrun : Reaches (step qSize) (fun _ _ => True) (initial ptrArray) s)
    (hfew : s.pushed.length < 2 ^ 64 - qSize.toNat) :
    s.queue.tail.toNat ≤ s.queue.head.toNat ∧
      s.queue.head.toNat - s.queue.tail.toNat ≤ qSize.toNat ∧
      ∀ k (hk : k < s.popped.length), s.pushed[k]? = some s.popped[k] := by
  have hr := reaches_represents hsize hrun hfew
  have hle := hr.ring.le
  have hroom := hr.ring.room
  rw [hr.head, hr.tail]
  refine ⟨hle, by omega, ?_⟩
  intro k hk
  have htake : s.popped[k]? = (s.pushed.take s.popped.length)[k]? := by rw [← hr.fifo]
  rw [List.getElem?_take_of_lt hk, List.getElem?_eq_getElem hk] at htake
  exact htake.symm

/-- A ring of two slots that is filled, emptied and used again. -/
theorem reaches_isFifo_twoSlots :
    ∃ s : State ℕ, Reaches (step 2) (fun _ _ => True) (initial fun _ => 0) s ∧
      s.popped = [7, 8, 9] ∧ ∀ k (hk : k < s.popped.length), s.pushed[k]? = some s.popped[k] := by
  have hrun : Reaches (step 2) (fun _ _ => True) (initial fun _ => 0)
      (⟨⟨3, 3, Function.update (Function.update (Function.update (fun _ => 0) 0 7) 1 8) 0 9⟩,
        [7, 8, 9], [7, 8, 9]⟩ : State ℕ) :=
    .of_foldlM [.push 7, .push 8, .pop, .push 9, .pop, .pop] rfl
  exact ⟨_, hrun, rfl, (reaches_isFifo (k := 1) rfl hrun (by decide)).2.2⟩

end CodingForFun.ProducerConsumerRing
