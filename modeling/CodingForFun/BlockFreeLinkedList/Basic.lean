import CodingForFun.Lib.Chain
import CodingForFun.Lib.Threads

/-!
# The lock-free list of `blockfreelinkedlist.c`

Any number of threads call `insertfirst` and `insertorder` on one list, each call with a fresh node. A
step is one access to memory: a read of `*list` or of some `next`, a write of `new->next`, or a
compare-and-swap. The value of a node is written before the call and never again, so `value` is a
parameter, and reading it takes no step of its own.

Besides the memory a state records which nodes were handed to a call, which ones a compare-and-swap has
linked in, and which calls have returned. What is printed is left out.
-/

namespace CodingForFun.BlockFreeLinkedList

open Lib

/-- The function that a call runs. -/
inductive Kind
  | insertfirst
  | insertorder
  deriving DecidableEq, Repr

/-- Where a call that inserts `new` is, with its local variables. -/
inductive Pc (A : Type)
  | idle
  /-- `!*list` before the first loop -/
  | test (new : A)
  /-- `(*list)->value > value` -/
  | testValue (new : A)
  /-- `*list` in the loop that inserts at the first node -/
  | retest (new : A)
  /-- `(*list)->value < value` -/
  | retestValue (new : A)
  /-- the read of `new->next = *list` -/
  | load (k : Kind) (new : A)
  /-- its write -/
  | store (k : Kind) (new : A) (first : Option A)
  /-- the read of `new->next` for the compare-and-swap -/
  | expect (k : Kind) (new : A)
  /-- the compare-and-swap of `*list` -/
  | cas (k : Kind) (new : A) (old : Option A)
  /-- the read of `*list` in `ptr = (*list)->next` -/
  | head (new : A)
  /-- the read of its `next` -/
  | headNext (new first : A)
  /-- `prev = *list` -/
  | prev (new : A) (ptr : Option A)
  /-- the test of the `while`, and its body -/
  | walk (new : A) (prev ptr : Option A)
  /-- `new->next = ptr` -/
  | fill (new : A) (prev ptr : Option A)
  /-- the compare-and-swap of `prev->next` -/
  | link (new : A) (prev ptr : Option A)
  /-- after the compare-and-swap that succeeded -/
  | ret (new : A)
  /-- a null pointer was dereferenced -/
  | crash
  deriving DecidableEq, Repr

/-- The memory (`*list` and the `next` of each node), the nodes handed to calls, the nodes linked in by
a compare-and-swap, and the nodes whose calls have returned. -/
structure Shared (A : Type) where
  list : Option A
  next : A → Option A
  allocated : List A
  linked : List A
  returned : List A

structure State (Tid A : Type) where
  shared : Shared A
  pc : Tid → Pc A

/-- `list = NULL`; `calloc` leaves `next` null. -/
def initial {Tid A : Type} : State Tid A := ⟨⟨none, fun _ => none, [], [], []⟩, fun _ => .idle⟩

/-- A thread calls a function with a node, or goes on. -/
inductive Action (Tid A : Type)
  | call (t : Tid) (k : Kind) (new : A)
  | go (t : Tid)

variable {Tid A : Type} [DecidableEq Tid] [DecidableEq A]

def State.goto (s : State Tid A) (t : Tid) (pc : Pc A) : State Tid A :=
  { s with pc := Function.update s.pc t pc }

/-- The first step of a call. -/
def entry : Kind → A → Pc A
  | .insertfirst, new => .load .insertfirst new
  | .insertorder, new => .test new

/-- Where a failed compare-and-swap of `*list` leads. -/
def again : Kind → A → Pc A
  | .insertfirst, new => .load .insertfirst new
  | .insertorder, new => .retest new

/-- A step that writes nothing, in memory with the given `*list` and `next`. -/
def advance (value : A → Int) (list : Option A) (next : A → Option A) : Pc A → Pc A
  | .test new => if list.isNone then .retest new else .testValue new
  | .testValue new =>
    match list with
    | none => .crash
    | some first => if value first > value new then .retest new else .head new
  | .retest new => if list.isNone then .load .insertorder new else .retestValue new
  | .retestValue new =>
    match list with
    | none => .crash
    -- Another thread has put a smaller node in front: insert after the first node.
    | some first => if value first < value new then .head new else .load .insertorder new
  | .load k new => .store k new list
  | .expect k new => .cas k new (next new)
  | .head new =>
    match list with
    | none => .crash
    | some first => .headNext new first
  | .headNext new first => .prev new (next first)
  | .prev new ptr => .walk new list ptr
  | .walk new prev ptr =>
    match ptr with
    | some a => if value a < value new then .walk new (some a) (next a) else .fill new prev (some a)
    | none => .fill new prev none
  | pc => pc

/-- `new` is linked in. -/
def Shared.link (m : Shared A) (list : Option A) (next : A → Option A) (new : A) : Shared A :=
  { m with list := list, next := next, linked := m.linked ++ [new] }

/-- The next step of thread `t`. -/
def go (value : A → Int) (s : State Tid A) (t : Tid) : Option (State Tid A) :=
  match s.pc t with
  | .idle => none
  | .crash => none
  | .store k new first =>
    let next := Function.update s.shared.next new first
    some (State.goto { s with shared := { s.shared with next := next } } t (.expect k new))
  | .cas k new old =>
    if s.shared.list = old then
      some (State.goto { s with shared := s.shared.link (some new) s.shared.next new } t (.ret new))
    else some (s.goto t (again k new))
  | .fill new prev ptr =>
    let next := Function.update s.shared.next new ptr
    some (State.goto { s with shared := { s.shared with next := next } } t (.link new prev ptr))
  | .link new prev ptr =>
    match prev with
    | none => some (s.goto t .crash)
    | some b =>
      if s.shared.next b = ptr then
        let next := Function.update s.shared.next b (some new)
        some (State.goto { s with shared := s.shared.link s.shared.list next new } t (.ret new))
      else some (s.goto t (.head new))
  | .ret new =>
    let returned := s.shared.returned ++ [new]
    some (State.goto { s with shared := { s.shared with returned := returned } } t .idle)
  | pc => some (s.goto t (advance value s.shared.list s.shared.next pc))

/-- A call takes a node that no call has had before. -/
def call (s : State Tid A) (t : Tid) (k : Kind) (new : A) : Option (State Tid A) :=
  if s.pc t = .idle ∧ new ∉ s.shared.allocated then
    let allocated := s.shared.allocated ++ [new]
    some (State.goto { s with shared := { s.shared with allocated := allocated } } t (entry k new))
  else none

def step (value : A → Int) (s : State Tid A) : Action Tid A → Option (State Tid A)
  | .call t k new => call s t k new
  | .go t => go value s t

end CodingForFun.BlockFreeLinkedList
