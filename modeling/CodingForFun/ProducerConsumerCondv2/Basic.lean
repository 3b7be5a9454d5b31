import CodingForFun.Lib.Monitor
import CodingForFun.ProducerConsumerBuffer

/-!
# The bounded buffer of `producerconsumer_condv2.c`

As in `producerconsumer_condv.c` any number of producers and consumers share a buffer, a mutex and two
condition variables, but a thread signals after each insertion and each removal, and it does so after
it has given the mutex back. A thread that sleeps may wake up without a signal: that is what its action
does while it sleeps.
-/

namespace CodingForFun.ProducerConsumerCondv2

open Lib ProducerConsumerBuffer

/-- The condition variables. -/
inductive Cond
  | full_cond
  | empty_cond
  deriving DecidableEq, Repr

instance : Fintype Cond :=
  ⟨{.full_cond, .empty_cond}, fun c => by cases c <;> simp⟩

/-- What a thread function is made of: the test and the condition variable of its wait, what it does
with the buffer and its variables `i` and `v` (`none` when an assertion fails), and the condition
variable that it signals. -/
structure Code where
  blocked : Buffer → Bool
  waits : Cond
  body : Int → Int → Buffer → Option (Int × Buffer)
  signals : Cond

/-- `producer` -/
def producer : Code where
  blocked := isfull
  waits := .full_cond
  body i v b := (queue i b).map fun b => (v, b)
  signals := .empty_cond

/-- `consumer` -/
def consumer : Code where
  blocked := isempty
  waits := .empty_cond
  body _ _ b := some (dequeue b)
  signals := .full_cond

/-- Where a thread is in its function. -/
inductive Pc
  /-- `while (i++ < LOOPS)` -/
  | loop
  /-- `pthread_mutex_lock` -/
  | lock
  /-- the test of the `while` around the wait -/
  | test
  /-- `pthread_cond_wait` -/
  | wait
  /-- `queue(i)` or `v = dequeue()` -/
  | act
  /-- `pthread_mutex_unlock` -/
  | unlock
  /-- `pthread_cond_signal` -/
  | signal
  /-- the end of the function -/
  | done
  /-- a failed assertion -/
  | abort
  deriving DecidableEq, Repr

/-- The local variables of a thread; `v` is written before it is used. -/
structure Local where
  pc : Pc
  i : ℕ
  v : Int
  deriving DecidableEq, Repr

inductive Role
  | producer
  | consumer
  deriving DecidableEq, Repr

/-- Which threads there are, and how often each of them loops. -/
structure Program (Tid : Type) where
  LOOPS : Tid → ℕ
  role : Tid → Role

/-- The function that a thread runs. -/
def Program.code {Tid : Type} (P : Program Tid) (t : Tid) : Code :=
  match P.role t with
  | .producer => producer
  | .consumer => consumer

structure State (Tid : Type) where
  monitor : Monitor Tid Cond
  buffer : Buffer
  threads : Tid → Local

/-- The buffer is empty, and no thread has started. -/
def init (Tid : Type) : State Tid where
  monitor := .init
  buffer := empty
  threads _ := ⟨.loop, 0, 0⟩

/-- What the scheduler decides: which thread goes on, and whom its signal wakes. -/
structure Action (Tid : Type) where
  tid : Tid
  wakes : Option Tid
  deriving DecidableEq, Repr

section step

variable {Tid : Type} [DecidableEq Tid]

/-- The thread goes to `pc`. -/
def State.goto (s : State Tid) (t : Tid) (pc : Pc) : State Tid :=
  ⟨s.monitor, s.buffer, Function.update s.threads t ⟨pc, (s.threads t).i, (s.threads t).v⟩⟩

/-- `while (i++ < LOOPS)` -/
def loopTest (LOOPS : ℕ) (s : State Tid) (t : Tid) : State Tid :=
  let l := s.threads t
  let pc := if l.i < LOOPS then Pc.lock else Pc.done
  ⟨s.monitor, s.buffer, Function.update s.threads t ⟨pc, l.i + 1, l.v⟩⟩

/-- What the thread does with the buffer. -/
def act (code : Code) (s : State Tid) (t : Tid) : State Tid :=
  let l := s.threads t
  match code.body l.i l.v s.buffer with
  | some (v, buffer) => ⟨s.monitor, buffer, Function.update s.threads t ⟨.unlock, l.i, v⟩⟩
  | none => s.goto t .abort

/-- A step of a thread that runs. -/
def stepThread [Fintype Tid] (P : Program Tid) (s : State Tid) (a : Action Tid) : Option (State Tid) :=
  let code := P.code a.tid
  match (s.threads a.tid).pc with
  | .loop => some (loopTest (P.LOOPS a.tid) s a.tid)
  | .lock => (s.monitor.lock a.tid).map fun m => State.goto ⟨m, s.buffer, s.threads⟩ a.tid .test
  | .test => some (s.goto a.tid (if code.blocked s.buffer then .wait else .act))
  | .wait => some (State.goto ⟨s.monitor.wait a.tid code.waits, s.buffer, s.threads⟩ a.tid .test)
  | .act => some (act code s a.tid)
  | .unlock => some (State.goto ⟨s.monitor.unlock, s.buffer, s.threads⟩ a.tid .signal)
  | .signal => (s.monitor.signal code.signals a.wakes).map fun m =>
      State.goto ⟨m, s.buffer, s.threads⟩ a.tid .loop
  | .done => none
  | .abort => none

/-- A step: of a thread that runs, a wake-up without a signal, or the end of a wait. -/
def step [Fintype Tid] (P : Program Tid) (s : State Tid) (a : Action Tid) : Option (State Tid) :=
  match s.monitor.status a.tid with
  | .running => stepThread P s a
  | .asleep _ => (s.monitor.spurious a.tid).map fun m => ⟨m, s.buffer, s.threads⟩
  | .woken _ => (s.monitor.resume a.tid).map fun m => ⟨m, s.buffer, s.threads⟩

end step

/-! ## Wake-ups -/

section wakeups

variable {Tid : Type}

/-- What a thread that sleeps on the condition variable waits for: room in the buffer, or values. -/
def avail : Cond → Buffer → ℕ
  | .full_cond, b => (SIZE - b.index1).toNat
  | .empty_cond, b => b.index1.toNat

/-- Somebody sleeps on `c` although what it waits for is there, nobody has been woken from `c` and has
yet to take the mutex again, and nobody is between its unlock and its signal of `c`. -/
def LostWakeup (P : Program Tid) (s : State Tid) (c : Cond) : Prop :=
  (∃ t, s.monitor.status t = .asleep c) ∧ 0 < avail c s.buffer ∧
    (∀ t, s.monitor.status t ≠ .woken c) ∧
    ∀ t, (P.code t).signals = c → (s.threads t).pc ≠ .signal

instance [Fintype Tid] (P : Program Tid) (s : State Tid) (c : Cond) : Decidable (LostWakeup P s c) :=
  inferInstanceAs (Decidable ((∃ _, _) ∧ _ ∧ (∀ _, _) ∧ ∀ _, _))

/-- A thread holds the mutex in a round that will take what `c` stands for, if it is there, or has
added to it: a waiter on `c` ahead of its wait or its change of the buffer, or a thread that will signal
`c` between its change and its unlock. -/
def Inside (P : Program Tid) (s : State Tid) (c : Cond) : Prop :=
  ∃ t, s.monitor.status t = .running ∧
    ((P.code t).waits = c ∧ ((s.threads t).pc = .test ∨ (s.threads t).pc = .act) ∨
      (P.code t).signals = c ∧ (s.threads t).pc = .unlock)

/-- Every thread that has not finished sleeps. -/
def Stuck (s : State Tid) : Prop :=
  ∀ t, (s.threads t).pc = .done ∨ ∃ c, s.monitor.status t = .asleep c

end wakeups

/-! ## The program as it is started -/

/-- `THREADS` -/
abbrev THREADS : ℕ := 10

/-- `main`: producers and consumers by turns. -/
def main : Program (Fin THREADS) where
  LOOPS _ := 10
  role t := if t.val % 2 = 0 then .producer else .consumer

end CodingForFun.ProducerConsumerCondv2
