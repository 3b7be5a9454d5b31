import CodingForFun.Lib.Monitor

/-!
# The bounded buffer of `producerconsumer_condv.c`

Any number of producers and consumers share a buffer, the mutex `buffer_lock` and the condition
variables `full_cond` and `empty_cond`. The two thread functions differ in a few values only, which
`producer` and `consumer` list; `stepThread` is the code they have in common, one call of the pthread
library or one test a step. What they print and the time they sleep are left out.
-/

namespace CodingForFun.ProducerConsumerCondv

open Lib

/-- `SIZE` -/
abbrev SIZE : ℕ := 10

/-- `buffer` and `buffer_index` -/
structure Buffer where
  buffer : Vector Int SIZE
  buffer_index : ℕ
  le_size : buffer_index ≤ SIZE

/-- `insertbuffer` -/
def insertbuffer (value : Int) (b : Buffer) : Buffer :=
  if h : b.buffer_index < SIZE then
    ⟨b.buffer.set b.buffer_index value h, b.buffer_index + 1, h⟩
  else b

/-- `dequeuebuffer` -/
def dequeuebuffer (b : Buffer) : Int × Buffer :=
  have hle := b.le_size
  if h : b.buffer_index > 0 then
    (b.buffer.get ⟨b.buffer_index - 1, by omega⟩, ⟨b.buffer, b.buffer_index - 1, by omega⟩)
  else (0, b)

/-- `isempty` -/
def isempty (b : Buffer) : Bool := decide (b.buffer_index = 0)

/-- `isfull` -/
def isfull (b : Buffer) : Bool := decide (b.buffer_index = SIZE)

/-- The condition variables. -/
inductive Cond
  | full_cond
  | empty_cond
  deriving DecidableEq, Repr

instance : Fintype Cond :=
  ⟨{.full_cond, .empty_cond}, fun c => by cases c <;> simp⟩

/-- What a thread function is made of: how often it loops, what a round starts with (`rand()` and the
`value` so far), the test and the condition variable of its wait, the test for a signal, what it does
with the buffer, and the condition variable that it signals. -/
structure Code where
  loops : ℕ
  start : ℕ → Int → Int
  blocked : Buffer → Bool
  waits : Cond
  notifies : Buffer → Bool
  body : Int → Buffer → Int × Buffer
  signals : Cond

/-- `producer` -/
def producer (PRODUCER_LOOPS : ℕ) : Code where
  loops := PRODUCER_LOOPS
  start rand _ := (rand % 100 : ℕ)
  blocked := isfull
  waits := .full_cond
  notifies := isempty
  body value b := (value, insertbuffer value b)
  signals := .empty_cond

/-- `consumer` -/
def consumer (CONSUMER_LOOPS : ℕ) : Code where
  loops := CONSUMER_LOOPS
  start _ value := value
  blocked := isempty
  waits := .empty_cond
  notifies := isfull
  body _ b := dequeuebuffer b
  signals := .full_cond

/-- Where a thread is in its function. -/
inductive Pc
  /-- `while (i++ < LOOPS)` -/
  | loop
  /-- `pthread_mutex_lock` -/
  | lock
  /-- the test of the `while` around the wait -/
  | test
  /-- `pthread_cond_wait` -/
  | wait
  /-- the `if` and what it does with the buffer -/
  | act
  /-- `pthread_cond_signal` -/
  | signal
  /-- `pthread_mutex_unlock` -/
  | unlock
  /-- `pthread_exit` -/
  | done
  deriving DecidableEq, Repr

/-- The local variables of a thread; `value` is written before it is used. -/
structure Local where
  pc : Pc
  i : ℕ
  value : Int
  deriving DecidableEq, Repr

inductive Role
  | producer
  | consumer
  deriving DecidableEq, Repr

/-- Which threads there are. -/
structure Program (Tid : Type) where
  PRODUCER_LOOPS : ℕ
  CONSUMER_LOOPS : ℕ
  role : Tid → Role

/-- The function that a thread runs. -/
def Program.code {Tid : Type} (P : Program Tid) (t : Tid) : Code :=
  match P.role t with
  | .producer => producer P.PRODUCER_LOOPS
  | .consumer => consumer P.CONSUMER_LOOPS

structure State (Tid : Type) where
  monitor : Monitor Tid Cond
  buffer : Buffer
  threads : Tid → Local

/-- `buffer_index = 0`, and no thread has started. -/
def init (Tid : Type) : State Tid where
  monitor := .init
  buffer := ⟨Vector.replicate SIZE 0, 0, Nat.zero_le _⟩
  threads _ := ⟨.loop, 0, 0⟩

/-- What the scheduler decides: which thread goes on, what `rand()` returns to it, and whom a signal
wakes. -/
structure Action (Tid : Type) where
  tid : Tid
  rand : ℕ
  wakes : Option Tid
  deriving DecidableEq, Repr

section step

variable {Tid : Type} [DecidableEq Tid]

/-- The thread goes to `pc`. -/
def State.goto (s : State Tid) (t : Tid) (pc : Pc) : State Tid :=
  ⟨s.monitor, s.buffer, Function.update s.threads t ⟨pc, (s.threads t).i, (s.threads t).value⟩⟩

/-- `while (i++ < LOOPS)`, and in the loop what a round starts with. -/
def loopTest (code : Code) (s : State Tid) (t : Tid) (rand : ℕ) : State Tid :=
  let l := s.threads t
  if l.i < code.loops then
    ⟨s.monitor, s.buffer, Function.update s.threads t ⟨.lock, l.i + 1, code.start rand l.value⟩⟩
  else
    ⟨s.monitor, s.buffer, Function.update s.threads t ⟨.done, l.i + 1, l.value⟩⟩

/-- The `if` after the wait: both branches change the buffer, the first one goes on to the signal. -/
def act (code : Code) (s : State Tid) (t : Tid) : State Tid :=
  let l := s.threads t
  let (value, buffer) := code.body l.value s.buffer
  let pc := if code.notifies s.buffer then Pc.signal else Pc.unlock
  ⟨s.monitor, buffer, Function.update s.threads t ⟨pc, l.i, value⟩⟩

/-- A step of a thread that runs. -/
def stepThread [Fintype Tid] (code : Code) (s : State Tid) (a : Action Tid) : Option (State Tid) :=
  match (s.threads a.tid).pc with
  | .loop => some (loopTest code s a.tid a.rand)
  | .lock => (s.monitor.lock a.tid).map fun m => State.goto ⟨m, s.buffer, s.threads⟩ a.tid .test
  | .test => some (s.goto a.tid (if code.blocked s.buffer then .wait else .act))
  | .wait => some (State.goto ⟨s.monitor.wait a.tid code.waits, s.buffer, s.threads⟩ a.tid .test)
  | .act => some (act code s a.tid)
  | .signal => (s.monitor.signal code.signals a.wakes).map fun m =>
      State.goto ⟨m, s.buffer, s.threads⟩ a.tid .unlock
  | .unlock => some (State.goto ⟨s.monitor.unlock, s.buffer, s.threads⟩ a.tid .loop)
  | .done => none

/-- A step: of a thread that runs, or the end of a wait. -/
def step [Fintype Tid] (P : Program Tid) (s : State Tid) (a : Action Tid) : Option (State Tid) :=
  match s.monitor.status a.tid with
  | .running => stepThread (P.code a.tid) s a
  | _ => (s.monitor.resume a.tid).map fun m => ⟨m, s.buffer, s.threads⟩

end step

section wakeups

variable {Tid : Type}

/-- Every thread has finished or sleeps, and one of them sleeps on something that is there. -/
def LostWakeup (P : Program Tid) (s : State Tid) : Prop :=
  (∀ t, (s.threads t).pc = .done ∨ ∃ c, s.monitor.status t = .asleep c) ∧
    ((∃ t, P.role t = .consumer ∧ s.monitor.status t = .asleep .empty_cond ∧
        0 < s.buffer.buffer_index) ∨
      ∃ t, P.role t = .producer ∧ s.monitor.status t = .asleep .full_cond ∧
        s.buffer.buffer_index < SIZE)

instance [Fintype Tid] (P : Program Tid) (s : State Tid) : Decidable (LostWakeup P s) :=
  inferInstanceAs (Decidable ((∀ _, _ ∨ ∃ _, _) ∧ ((∃ _, _ ∧ _ ∧ _) ∨ ∃ _, _ ∧ _ ∧ _)))

/-- No wake-up is lost, whatever the interleaving. -/
def NoLostWakeup [Fintype Tid] [DecidableEq Tid] (P : Program Tid) : Prop :=
  ∀ s, Reaches (step P) (fun _ _ => True) (init Tid) s → ¬ LostWakeup P s

end wakeups

/-! ## The program as it is started -/

/-- `NUMB_THREADS` -/
abbrev numbThreads : ℕ := 10

/-- `main`: producers and consumers by turns. -/
def main : Program (Fin numbThreads) where
  PRODUCER_LOOPS := 2
  CONSUMER_LOOPS := 2
  role t := if t.val % 2 = 0 then .producer else .consumer

end CodingForFun.ProducerConsumerCondv
