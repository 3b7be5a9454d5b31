import Mathlib.Data.List.Basic
import Mathlib.Logic.Function.Basic

/-!
# The queue pair of `nvme.c`

The functions of the driver that touch an `nvme_queue`: the bitmap of command ids with its handlers,
the submission ring, and the completion ring with its phase bit. Indices are `u16` that never reach
`q_depth`, so they are natural numbers here.

A command stands for its command id and for the request that its other fields describe; the answer in a
completion is named by the request that it answers.
-/

namespace CodingForFun.Nvme

/-- The functions that a command is completed with; `null` is what `kzalloc` leaves. -/
inductive Handler
  | null
  | special
  | sync
  | bio
  deriving DecidableEq

/-- What a submitter asks for, with the function that it wants to be told by. -/
structure Request where
  number : ℕ
  fn : Handler
  deriving DecidableEq

/-- The argument of a completion function: a `CMD_CTX_` value or a pointer to the data of a request. -/
inductive Ctx
  | null
  | cancelled
  | completed
  | invalid
  | flush
  | data (request : Request)
  deriving DecidableEq

/-- The context that a submitter hands to `alloc_cmdid`. -/
def Request.ctx (r : Request) : Ctx := if r.fn = .special then .flush else .data r

/-- `struct nvme_command`. -/
structure Command where
  commandId : ℕ
  request : Request
  deriving DecidableEq

/-- `struct nvme_completion`; the lowest bit of `status` is the phase. -/
structure Completion where
  result : Request
  sqHead : ℕ
  commandId : ℕ
  status : ℕ
  deriving DecidableEq

/-- `le16_to_cpu(cqe.status) & 1`. -/
def Completion.phase (cqe : Completion) : Bool := decide (cqe.status % 2 = 1)

/-- The command that a completion answers. -/
def Completion.command (cqe : Completion) : Command := ⟨cqe.commandId, cqe.result⟩

/-- A call `fn(nvmeq->dev, ctx, &cqe)`. -/
structure Call where
  fn : Handler
  ctx : Ctx
  cqe : Completion
  deriving DecidableEq

/-- `struct nvme_cmd_info`. -/
structure CmdInfo where
  fn : Handler
  ctx : Ctx
  deriving DecidableEq

/-- `struct nvme_queue`. -/
structure Queue where
  qDepth : ℕ
  sqCmds : ℕ → Command
  cqes : ℕ → Completion
  sqHead : ℕ
  sqTail : ℕ
  cqHead : ℕ
  cqPhase : Bool
  cmdidData : ℕ → Bool
  info : ℕ → CmdInfo

/-- A completion whose bytes are zero. -/
def Completion.zero : Completion := ⟨⟨0, .null⟩, 0, 0, 0⟩

/-- `nvme_alloc_queue`: the completion entries are cleared, the submission entries are not. -/
def nvmeAllocQueue (depth : ℕ) (sqCmds : ℕ → Command) : Queue where
  qDepth := depth
  sqCmds := sqCmds
  cqes := fun _ => .zero
  sqHead := 0
  sqTail := 0
  cqHead := 0
  cqPhase := true
  cmdidData := fun _ => false
  info := fun _ => ⟨.null, .null⟩

/-- `if (++i == nvmeq->q_depth) i = 0`. -/
def bump (depth i : ℕ) : ℕ := if i + 1 = depth then 0 else i + 1

/-! ## Command ids -/

/-- `find_first_zero_bit`. -/
def findFirstZeroBit (bits : ℕ → Bool) (size : ℕ) : ℕ :=
  ((List.range size).find? fun id => !bits id).getD size

/-- `test_and_set_bit` on `cmdid_data`. -/
def testAndSetBit (q : Queue) (cmdid : ℕ) : Bool × Queue :=
  (q.cmdidData cmdid, { q with cmdidData := Function.update q.cmdidData cmdid true })

/-- The writes to `info[cmdid]`. -/
def setInfo (q : Queue) (cmdid : ℕ) (fn : Handler) (ctx : Ctx) : Queue :=
  { q with info := Function.update q.info cmdid ⟨fn, ctx⟩ }

/-- `alloc_cmdid` when nobody comes in between; `none` is `-EBUSY`. -/
def allocCmdid (q : Queue) (ctx : Ctx) (handler : Handler) : Option ℕ × Queue :=
  let depth := q.qDepth - 1
  let cmdid := findFirstZeroBit q.cmdidData depth
  if depth ≤ cmdid then (none, q)
  else (some cmdid, setInfo (testAndSetBit q cmdid).2 cmdid handler ctx)

/-- `free_cmdid`. -/
def freeCmdid (q : Queue) (cmdid : ℕ) : CmdInfo × Queue :=
  if q.qDepth ≤ cmdid then (⟨.special, .invalid⟩, q)
  else
    let q' := setInfo q cmdid .special .completed
    (q.info cmdid, { q' with cmdidData := Function.update q'.cmdidData cmdid false })

/-- `cancel_cmdid`. -/
def cancelCmdid (q : Queue) (cmdid : ℕ) : CmdInfo × Queue :=
  (q.info cmdid, setInfo q cmdid .special .cancelled)

/-- `special_completion` prints a warning. -/
def Call.Warns (call : Call) : Prop :=
  call.fn = .special ∧ call.ctx ≠ .cancelled ∧ call.ctx ≠ .flush

/-! ## Submission -/

/-- `nvme_submit_cmd`, and the same writes in `nvme_submit_flush` and `nvme_submit_bio_queue`: the new
tail goes to the doorbell too. -/
def nvmeSubmitCmd (q : Queue) (cmd : Command) : Queue :=
  let tail := q.sqTail
  let q := { q with sqCmds := Function.update q.sqCmds tail cmd }
  { q with sqTail := bump q.qDepth tail }

/-- The command id that `nvme_submit_bio_queue` writes without looking at it: `-EBUSY` as `u16` when
`alloc_cmdid` has failed. -/
def bioCmdid (cmdid : Option ℕ) : ℕ := cmdid.getD 65520

/-! ## Completion -/

/-- One round of the loop of `nvme_process_cq` with the locals `head` and `phase`; `none` is the
`break`. -/
def processRound (q : Queue) (head : ℕ) (phase : Bool) : Option (Queue × ℕ × Bool × Call) :=
  let cqe := q.cqes head
  if cqe.phase ≠ phase then none
  else
    let q := { q with sqHead := cqe.sqHead }
    let wrapped := decide (head + 1 = q.qDepth)
    let (info, q) := freeCmdid q cqe.commandId
    some (q, bump q.qDepth head, if wrapped then !phase else phase, ⟨info.fn, info.ctx, cqe⟩)

/-- What `nvme_process_cq` does after the loop: whether it rings the doorbell with `head`, and the
queue. -/
def processEnd (q : Queue) (head : ℕ) (phase : Bool) : Bool × Queue :=
  if head = q.cqHead ∧ phase = q.cqPhase then (false, q)
  else (true, { q with cqHead := head, cqPhase := phase })

/-- `nvme_irq_check`: the thread is woken. -/
def nvmeIrqCheck (q : Queue) : Bool := (q.cqes q.cqHead).phase == q.cqPhase

/-- The completion that `nvme_timeout_ios` makes up: `NVME_SC_ABORT_REQ << 1`. -/
def abortCqe : Completion := { Completion.zero with status := 7 * 2 }

end CodingForFun.Nvme
