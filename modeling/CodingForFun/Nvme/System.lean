import CodingForFun.Lib.Threads
import CodingForFun.Nvme.Queue

/-!
# A queue pair in use

The processes that submit commands, the interrupt handler, the watchdog thread and the controller, all
on one queue pair. `alloc_cmdid` takes no lock, so the bit of a command id is set in one step and its
`info` is written in a later one. Whatever holds `q_lock` runs alone against the others that want the
lock, but the controller and `alloc_cmdid` go on beside it: `nvme_process_cq` is one step for each round
of its loop.

The controller fetches commands in order up to the tail doorbell, executes them in any order, and writes
a completion when the queue has room for it up to the head doorbell.
-/

namespace CodingForFun.Nvme

/-- Where `nvme_process_cq` is, with its locals `head` and `phase`: in the loop, or behind it. -/
inductive Irq
  | idle
  | polling (head : ℕ) (phase : Bool)
  | leaving (head : ℕ) (phase : Bool)
  deriving DecidableEq

/-- The controller's own indices, its phase, and the commands that it has fetched. -/
structure Controller where
  sqHead : ℕ
  cqTail : ℕ
  phase : Bool
  executing : List Command

/-- The queue pair, the doorbells, and what everybody is at. A process is in `claimed` after it has set
its bit, in `ready` after it has written its `info`. The rest records what has happened: `acked` is the
number of completions that the head doorbell has told the controller about. -/
structure System where
  q : Queue
  irq : Irq
  sqTailDb : ℕ
  cqHeadDb : ℕ
  ctrl : Controller
  claimed : List Command
  ready : List Command
  requests : ℕ
  submitted : List Command
  fetched : List Command
  posted : List Completion
  handled : List Completion
  acked : ℕ
  calls : List Call
  aborted : List Request
  timedOut : List Request

/-- A new queue pair. -/
def start (depth : ℕ) (sqCmds : ℕ → Command) : System where
  q := nvmeAllocQueue depth sqCmds
  irq := .idle
  sqTailDb := 0
  cqHeadDb := 0
  ctrl := ⟨0, 0, true, []⟩
  claimed := []
  ready := []
  requests := 0
  submitted := []
  fetched := []
  posted := []
  handled := []
  acked := 0
  calls := []
  aborted := []
  timedOut := []

inductive Action
  | claim (cmdid : ℕ) (fn : Handler)
  | install (cmd : Command)
  | submit (cmd : Command)
  | bioBusy (r : Request)
  | abort (cmdid : ℕ)
  | timeout (cmdid : ℕ)
  | irqEnter
  | irqRound
  | irqExit
  | fetch
  | complete (i code : ℕ)

/-- `test_and_set_bit` finds the bit of `cmdid` clear. `find_first_zero_bit` may have looked at the
bitmap long before, so it need not be the first one. -/
def claim (cmdid : ℕ) (fn : Handler) (s : System) : Option System :=
  let (taken, q) := testAndSetBit s.q cmdid
  if cmdid < s.q.qDepth - 1 ∧ taken = false ∧ fn ≠ .null then
    some { s with
      q := q, claimed := ⟨cmdid, s.requests, fn⟩ :: s.claimed, requests := s.requests + 1 }
  else none

/-- The end of `alloc_cmdid`. -/
def install (cmd : Command) (s : System) : Option System :=
  if cmd ∈ s.claimed then
    some { s with
      q := setInfo s.q cmd.commandId cmd.request.fn cmd.request.ctx
      claimed := s.claimed.erase cmd
      ready := cmd :: s.ready }
  else none

/-- A command goes to the ring, under the lock. -/
def submitCmd (cmd : Command) (s : System) : System :=
  let q := nvmeSubmitCmd s.q cmd
  { s with q := q, sqTailDb := q.sqTail, submitted := s.submitted ++ [cmd] }

/-- `nvme_submit_cmd`, `nvme_submit_flush` or `nvme_submit_bio_queue` with an id from `alloc_cmdid`. -/
def submit (cmd : Command) (s : System) : Option System :=
  if s.irq = .idle ∧ cmd ∈ s.ready then some { submitCmd cmd s with ready := s.ready.erase cmd }
  else none

/-- `nvme_submit_bio_queue` when `alloc_cmdid` has returned `-EBUSY`. -/
def bioBusy (r : Request) (s : System) : Option System :=
  if s.irq = .idle then some (submitCmd ⟨bioCmdid none, r⟩ s) else none

/-- The request whose data a context points to. -/
def Ctx.request? : Ctx → Option Request
  | .data r => some r
  | _ => none

/-- `nvme_abort_command`. -/
def abort (cmdid : ℕ) (s : System) : Option System :=
  if s.irq = .idle ∧ cmdid < s.q.qDepth - 1 then
    let (info, q) := cancelCmdid s.q cmdid
    some { s with q := q, aborted := info.ctx.request?.toList ++ s.aborted }
  else none

/-- `nvme_timeout_ios` for a command id that it finds overdue. -/
def timeout (cmdid : ℕ) (s : System) : Option System :=
  if s.irq = .idle ∧ cmdid < s.q.qDepth - 1 ∧ s.q.cmdidData cmdid then
    let (info, q) := cancelCmdid s.q cmdid
    some { s with
      q := q
      calls := s.calls ++ [⟨info.fn, info.ctx, abortCqe⟩]
      timedOut := info.ctx.request?.toList ++ s.timedOut }
  else none

/-- `nvme_irq` or `nvme_kthread` enters `nvme_process_cq`. -/
def irqEnter (s : System) : Option System :=
  if s.irq = .idle then some { s with irq := .polling s.q.cqHead s.q.cqPhase } else none

/-- A round of its loop. -/
def irqRound (s : System) : Option System :=
  match s.irq with
  | .polling head phase =>
    match processRound s.q head phase with
    | some (q, head', phase', call) =>
      some { s with
        q := q, irq := .polling head' phase'
        handled := s.handled ++ [call.cqe], calls := s.calls ++ [call] }
    | none => some { s with irq := .leaving head phase }
  | _ => none

/-- The end of `nvme_process_cq`. -/
def irqExit (s : System) : Option System :=
  match s.irq with
  | .leaving head phase =>
    let (rings, q) := processEnd s.q head phase
    some { s with
      q := q, irq := .idle
      cqHeadDb := if rings then head else s.cqHeadDb
      acked := if rings then s.handled.length else s.acked }
  | _ => none

/-- The controller fetches a command. -/
def fetch (s : System) : Option System :=
  if s.ctrl.sqHead ≠ s.sqTailDb then
    let cmd := s.q.sqCmds s.ctrl.sqHead
    some { s with
      ctrl := { s.ctrl with
        sqHead := bump s.q.qDepth s.ctrl.sqHead, executing := s.ctrl.executing ++ [cmd] }
      fetched := s.fetched ++ [cmd] }
  else none

/-- The completion that the controller writes for a command. -/
def answer (s : System) (cmd : Command) (code : ℕ) : Completion :=
  ⟨cmd.request, s.ctrl.sqHead, cmd.commandId, code * 2 + s.ctrl.phase.toNat⟩

/-- The completion queue has no room: the next tail is the head that the controller knows of. -/
def CqFull (s : System) : Prop := bump s.q.qDepth s.ctrl.cqTail = s.cqHeadDb

instance (s : System) : Decidable (CqFull s) := inferInstanceAs (Decidable (_ = _))

/-- The controller completes the command that it fetched as number `i` of those it still has. -/
def complete (i code : ℕ) (s : System) : Option System :=
  match s.ctrl.executing[i]? with
  | some cmd =>
    if CqFull s then none
    else
      let cqe := answer s cmd code
      let wrapped := decide (s.ctrl.cqTail + 1 = s.q.qDepth)
      some { s with
        q := { s.q with cqes := Function.update s.q.cqes s.ctrl.cqTail cqe }
        ctrl := { s.ctrl with
          cqTail := bump s.q.qDepth s.ctrl.cqTail
          phase := if wrapped then !s.ctrl.phase else s.ctrl.phase
          executing := s.ctrl.executing.eraseIdx i }
        posted := s.posted ++ [cqe] }
  | none => none

def step (s : System) : Action → Option System
  | .claim cmdid fn => claim cmdid fn s
  | .install cmd => install cmd s
  | .submit cmd => submit cmd s
  | .bioBusy r => bioBusy r s
  | .abort cmdid => abort cmdid s
  | .timeout cmdid => timeout cmdid s
  | .irqEnter => irqEnter s
  | .irqRound => irqRound s
  | .irqExit => irqExit s
  | .fetch => fetch s
  | .complete i code => complete i code s

/-- Every `alloc_cmdid` of a block request finds an id: the driver does not check. -/
def IdFound (_ : System) : Action → Prop
  | .bioBusy _ => False
  | _ => True

/-- Besides, nothing cancels a command id between the two parts of `alloc_cmdid`. -/
def Quiet (s : System) : Action → Prop
  | .bioBusy _ => False
  | .abort cmdid => ∀ cmd ∈ s.claimed, cmd.commandId ≠ cmdid
  | .timeout cmdid => ∀ cmd ∈ s.claimed, cmd.commandId ≠ cmdid
  | _ => True

instance (s : System) : (a : Action) → Decidable (IdFound s a)
  | .bioBusy _ => inferInstanceAs (Decidable False)
  | .claim .. | .install _ | .submit _ | .abort _ | .timeout _ | .irqEnter | .irqRound | .irqExit
  | .fetch | .complete .. => inferInstanceAs (Decidable True)

instance (s : System) : (a : Action) → Decidable (Quiet s a)
  | .bioBusy _ => inferInstanceAs (Decidable False)
  | .abort cmdid | .timeout cmdid =>
    inferInstanceAs (Decidable (∀ cmd ∈ s.claimed, cmd.commandId ≠ cmdid))
  | .claim .. | .install _ | .submit _ | .irqEnter | .irqRound | .irqExit
  | .fetch | .complete .. => inferInstanceAs (Decidable True)

end CodingForFun.Nvme
