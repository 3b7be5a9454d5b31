import CodingForFun.Lib.Threads
import Mathlib.Data.Nat.Notation

/-!
# The lock-free ring of `multiproducerconsumer_lockfree.c`

`push` and `pop` have the same text up to an exchange of `head` and `tail`, the slack of `Q_SIZE` that
producers have, and the access to the array. `operation` is this text, one shared read, write or
fetch-and-add a step. The words are 64 bits wide.

`thr_pos`, `Q_SIZE`, `Q_MASK` and the thread counts are not in the file: `thr_pos()` is the caller's own
entry of `thr_p_`, producers and consumers are numbered from `0`, and `Q_MASK` is `Q_SIZE - 1`.
-/

namespace CodingForFun.MultiProducerConsumerLockfree

open Lib

/-- The two ends of the ring. Producers take their indices from `head_` and show them in the `head`
fields of `thr_p_`, consumers use `tail`. -/
inductive Side
  | head
  | tail
  deriving DecidableEq, Repr

def Side.other : Side → Side
  | .head => .tail
  | .tail => .head

/-- A producer (`head`) or a consumer (`tail`). -/
abbrev Agent := Side × ℕ

/-- `ULONG_MAX`. -/
def ulongMax : ℕ := 2 ^ 64 - 1

/-- Where a call is, with its local variables. The comments are on `push`. -/
inductive Pc (T : Type)
  | idle
  /-- the read of `head_` for `thr_pos().head = head_` -/
  | position
  /-- the write -/
  | announce (head : ℕ)
  | fetchAdd
  /-- the write of what the fetch-and-add returned -/
  | assign (head : ℕ)
  /-- the read of `thr_pos().head` in the `while` -/
  | own
  /-- the read of `last_tail_`, and the comparison -/
  | test (head : ℕ)
  /-- `min = tail_` -/
  | minStart
  /-- the `for` at `i`, and after it `last_tail_ = min` -/
  | scan (i min : ℕ)
  /-- the read of `thr_pos().head` for the index of the slot -/
  | locate
  /-- the access to the slot -/
  | slot (head : ℕ)
  /-- `thr_pos().head = ULONG_MAX`; `ptr` is the pointer that was stored or loaded -/
  | clear (ptr : T)
  deriving DecidableEq, Repr

/-- The shared variables and the threads, then what happened so far: the index that each thread took
last, the accesses to the array and the calls that have returned, each with its index and its pointer,
and the number of indices taken. -/
structure State (T : Type) where
  /-- `head_` and `tail_` -/
  pos : Side → ℕ
  /-- `last_head_` and `last_tail_` -/
  last : Side → ℕ
  /-- the fields of `thr_p_` -/
  thr : Agent → ℕ
  ptrArray : ℕ → T
  pc : Agent → Pc T
  /-- the argument of each producer's `push` -/
  ptr : ℕ → T
  index : Agent → ℕ
  accessed : Side → List (ℕ × T)
  completed : Side → List (ℕ × T)
  operations : ℕ

/-- The counters are zero and every entry of `thr_p_` is `ULONG_MAX`. -/
def initial {T : Type} (ptrArray ptr : ℕ → T) : State T where
  pos _ := 0
  last _ := 0
  thr _ := ulongMax
  ptrArray := ptrArray
  pc _ := .idle
  ptr := ptr
  index _ := 0
  accessed _ := []
  completed _ := []
  operations := 0

variable {T : Type}

def State.goto (s : State T) (a : Agent) (pc : Pc T) : State T :=
  { s with pc := Function.update s.pc a pc }

/-- The next step of the call that agent `i` of side `d` is in. There are `n e` agents of side `e`;
`bound` is what the own index is compared with, `access` reads or writes a slot and gives the pointer
and the array after it. -/
def operation (qSize : ℕ) (n : Side → ℕ) (d : Side) (bound : ℕ → ℕ)
    (access : State T → ℕ → ℕ → T × (ℕ → T)) (s : State T) (i : ℕ) : Option (State T) :=
  let a := (d, i)
  match s.pc a with
  | .idle => none
  | .position => some (s.goto a (.announce (s.pos d)))
  | .announce head => some { s.goto a .fetchAdd with thr := Function.update s.thr a head }
  | .fetchAdd =>
    some { s.goto a (.assign (s.pos d)) with
      pos := Function.update s.pos d ((s.pos d + 1) % 2 ^ 64)
      index := Function.update s.index a (s.pos d)
      operations := s.operations + 1 }
  | .assign head => some { s.goto a .own with thr := Function.update s.thr a head }
  | .own => some (s.goto a (.test (s.thr a)))
  | .test head => some (s.goto a (if head ≥ bound (s.last d.other) then .minStart else .locate))
  | .minStart => some (s.goto a (.scan 0 (s.pos d.other)))
  | .scan j min =>
    if j < n d.other then
      let tmp := s.thr (d.other, j)
      some (s.goto a (.scan (j + 1) (if tmp < min then tmp else min)))
    else some { s.goto a .own with last := Function.update s.last d.other min }
  | .locate => some (s.goto a (.slot (s.thr a)))
  | .slot head =>
    let ptr := (access s i (head &&& (qSize - 1))).1
    some { s.goto a (.clear ptr) with
      ptrArray := (access s i (head &&& (qSize - 1))).2
      accessed := Function.update s.accessed d (s.accessed d ++ [(s.index a, ptr)]) }
  | .clear ptr =>
    some { s.goto a .idle with
      thr := Function.update s.thr a ulongMax
      completed := Function.update s.completed d (s.completed d ++ [(s.index a, ptr)]) }

/-- `ptr_array_[...] = ptr`. -/
def store (s : State T) (i slot : ℕ) : T × (ℕ → T) :=
  (s.ptr i, Function.update s.ptrArray slot (s.ptr i))

/-- `ret = ptr_array_[...]`. -/
def load (s : State T) (_ slot : ℕ) : T × (ℕ → T) := (s.ptrArray slot, s.ptrArray)

def push (qSize : ℕ) (n : Side → ℕ) : State T → ℕ → Option (State T) :=
  operation qSize n .head (fun last => (last + qSize) % 2 ^ 64) store

def pop (qSize : ℕ) (n : Side → ℕ) : State T → ℕ → Option (State T) :=
  operation qSize n .tail (fun last => last) load

/-- An idle agent enters its call. -/
def call (n : Side → ℕ) (s : State T) (a : Agent) : Option (State T) :=
  match s.pc a with
  | .idle => if a.2 < n a.1 then some (s.goto a .position) else none
  | _ => none

/-- A producer calls `push`, a consumer calls `pop`, or a thread goes on. -/
inductive Action (T : Type)
  | push (i : ℕ) (ptr : T)
  | pop (i : ℕ)
  | go (a : Agent)

def step (qSize : ℕ) (n : Side → ℕ) (s : State T) : Action T → Option (State T)
  | .push i ptr => call n { s with ptr := Function.update s.ptr i ptr } (.head, i)
  | .pop i => call n s (.tail, i)
  | .go (.head, i) => push qSize n s i
  | .go (.tail, i) => pop qSize n s i

end CodingForFun.MultiProducerConsumerLockfree
