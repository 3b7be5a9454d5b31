import CodingForFun.Lib.Threads
import Mathlib.Data.Nat.Notation
import Mathlib.Logic.Function.Basic

/-!
# The blocking character device of `blockingIO_polling/module.c`

A ring of `N` bytes between the positions `ir` and `iw`, one of which always stays free. The steps of
a process are the calls of `is_buffer_full` and `is_buffer_empty`, the copy loops (which run under the
semaphore), and `device_open` and `device_release` (under the spin lock). Any process may go on at any
time, and a signal may end a call that waits or has not entered its loop yet.

`is_buffer_full` stores the position before `ir` in the global `ih`, and the loop of `device_write`
stops at whatever `ih` is when the loop runs.
-/

namespace CodingForFun.PollDev

open Lib

/-- `N`. -/
abbrev N : ℕ := 23

/-- The globals that the calls share. -/
structure Dev where
  rbuf : ℕ → UInt8
  useCount : Int
  ir : ℕ
  iw : ℕ
  ih : ℕ

/-- `is_buffer_full`: the answer, and the device with the new `ih`. -/
def isBufferFull (d : Dev) : Bool × Dev :=
  let ih : Int := d.ir - 1
  let ih := if ih < 0 then ih + N else ih
  let d := { d with ih := ih.toNat }
  (decide (d.iw = d.ih), d)

/-- `is_buffer_empty`. -/
def isBufferEmpty (d : Dev) : Bool := decide (d.ir = d.iw)

/-- The loop of `device_read` with `len - i` rounds to go: the bytes copied to the user. -/
def copyToUser : ℕ → Dev → List UInt8 × Dev
  | 0, d => ([], d)
  | len + 1, d =>
    if d.ir = d.iw then ([], d)
    else
      let byte := d.rbuf d.ir
      let ir := d.ir + 1
      let d := { d with ir := if ir = N then 0 else ir }
      let (bytes, d) := copyToUser len d
      (byte :: bytes, d)

/-- The loop of `device_write` with these bytes of the user to go: the number of bytes taken. -/
def copyFromUser : List UInt8 → Dev → ℕ × Dev
  | [], d => (0, d)
  | byte :: bytes, d =>
    if d.iw = d.ih then (0, d)
    else
      let rbuf := Function.update d.rbuf d.iw byte
      let iw := d.iw + 1
      let d := { d with rbuf := rbuf, iw := if iw = N then 0 else iw }
      let (i, d) := copyFromUser bytes d
      (i + 1, d)

/-- `device_open`. -/
def deviceOpen (d : Dev) : Dev :=
  let d := if d.useCount = 0 then { d with ir := 0, iw := 0 } else d
  { d with useCount := d.useCount + 1 }

/-- `device_release`. -/
def deviceRelease (d : Dev) : Dev := { d with useCount := d.useCount - 1 }

/-- The device, with the bytes accepted by the writes and returned by the reads since the last reset,
in the order of their loops. -/
structure Stream where
  dev : Dev
  accepted : List UInt8
  returned : List UInt8

namespace Stream

def isBufferFull (s : Stream) : Bool × Stream :=
  let (full, dev) := PollDev.isBufferFull s.dev
  (full, { s with dev := dev })

def copyToUser (len : ℕ) (s : Stream) : List UInt8 × Stream :=
  let (bytes, dev) := PollDev.copyToUser len s.dev
  (bytes, { s with dev := dev, returned := s.returned ++ bytes })

def copyFromUser (bytes : List UInt8) (s : Stream) : ℕ × Stream :=
  let (i, dev) := PollDev.copyFromUser bytes s.dev
  (i, { s with dev := dev, accepted := s.accepted ++ bytes.take i })

def deviceOpen (s : Stream) : Stream :=
  if s.dev.useCount = 0 then { dev := PollDev.deviceOpen s.dev, accepted := [], returned := [] }
  else { s with dev := PollDev.deviceOpen s.dev }

def deviceRelease (s : Stream) : Stream := { s with dev := PollDev.deviceRelease s.dev }

end Stream

/-- A call of the device's operations; `nonblock` is `filp->f_flags & O_NONBLOCK`. -/
inductive Call
  | deviceRead (nonblock : Bool) (len : ℕ)
  | deviceWrite (nonblock : Bool) (bytes : List UInt8)
  | devicePoll
  | deviceOpen
  | deviceRelease
  deriving DecidableEq

/-- What a call returns; a read returns the number of the bytes copied. -/
inductive Result
  | bytes (data : List UInt8)
  | count (i : ℕ)
  | mask (pollin pollout : Bool)
  | eagain
  | erestartsys
  | zero
  deriving DecidableEq

/-- Where a process stands: before the first test of its call, before the test of
`wait_event_interruptible`, before the loop, or (in `device_poll`) between the two tests. -/
inductive Pc
  | idle
  | start (c : Call)
  | wait (c : Call)
  | copy (c : Call)
  | pollFull (pollin : Bool)
  deriving DecidableEq

structure State (Pid : Type) where
  stream : Stream
  pc : Pid → Pc
  /-- the calls that returned, with what they returned -/
  results : List (Call × Result)

inductive Action (Pid : Type)
  /-- an idle process makes a call -/
  | call (p : Pid) (c : Call)
  /-- the next step of a call -/
  | go (p : Pid)
  /-- a signal is pending where `p` tests for one -/
  | signal (p : Pid)

variable {Pid : Type} [DecidableEq Pid]

/-- The module after `my_init`. -/
def initial : State Pid where
  stream := { dev := ⟨fun _ => 0, 0, 0, 0, 0⟩, accepted := [], returned := [] }
  pc _ := .idle
  results := []

def State.setPc (s : State Pid) (p : Pid) (pc : Pc) : State Pid :=
  { s with pc := Function.update s.pc p pc }

def State.setStream (s : State Pid) (stream : Stream) : State Pid := { s with stream := stream }

/-- The call of `p` returns. -/
def State.finish (s : State Pid) (p : Pid) (c : Call) (r : Result) : State Pid :=
  { s with pc := Function.update s.pc p .idle, results := s.results ++ [(c, r)] }

/-- The next step of process `p`. -/
def go (s : State Pid) (p : Pid) : Option (State Pid) :=
  match s.pc p with
  | .idle => none
  | .start (.deviceRead nonblock len) =>
    if isBufferEmpty s.stream.dev && nonblock then
      some (s.finish p (.deviceRead nonblock len) .eagain)
    else some (s.setPc p (.wait (.deviceRead nonblock len)))
  | .start (.deviceWrite nonblock bytes) =>
    let (full, stream) := s.stream.isBufferFull
    let s := s.setStream stream
    if full && nonblock then some (s.finish p (.deviceWrite nonblock bytes) .eagain)
    else some (s.setPc p (.wait (.deviceWrite nonblock bytes)))
  | .start .devicePoll => some (s.setPc p (.pollFull (!isBufferEmpty s.stream.dev)))
  | .start .deviceOpen => some ((s.setStream s.stream.deviceOpen).finish p .deviceOpen .zero)
  | .start .deviceRelease => some ((s.setStream s.stream.deviceRelease).finish p .deviceRelease .zero)
  | .wait (.deviceRead nonblock len) =>
    -- The process sleeps on until the test succeeds.
    if isBufferEmpty s.stream.dev then some s
    else some (s.setPc p (.copy (.deviceRead nonblock len)))
  | .wait (.deviceWrite nonblock bytes) =>
    let (full, stream) := s.stream.isBufferFull
    let s := s.setStream stream
    if full then some s else some (s.setPc p (.copy (.deviceWrite nonblock bytes)))
  | .wait _ => none
  | .copy (.deviceRead nonblock len) =>
    let (data, stream) := s.stream.copyToUser len
    some ((s.setStream stream).finish p (.deviceRead nonblock len) (.bytes data))
  | .copy (.deviceWrite nonblock bytes) =>
    let (i, stream) := s.stream.copyFromUser bytes
    some ((s.setStream stream).finish p (.deviceWrite nonblock bytes) (.count i))
  | .copy _ => none
  | .pollFull pollin =>
    let (full, stream) := s.stream.isBufferFull
    some ((s.setStream stream).finish p .devicePoll (.mask pollin (!full)))

/-- A signal ends the call of `p` at `wait_event_interruptible`, at the test of `signal_pending` or
at `down_interruptible`. -/
def signal (s : State Pid) (p : Pid) : Option (State Pid) :=
  match s.pc p with
  | .wait c => some (s.finish p c .erestartsys)
  | .copy c => some (s.finish p c .erestartsys)
  | _ => none

def step (s : State Pid) : Action Pid → Option (State Pid)
  | .call p c => if s.pc p = .idle then some (s.setPc p (.start c)) else none
  | .go p => go s p
  | .signal p => signal s p

end CodingForFun.PollDev
