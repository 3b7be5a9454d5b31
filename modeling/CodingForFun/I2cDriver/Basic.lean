import CodingForFun.Lib.Cells
import Mathlib.Data.UInt

/-!
# The I2C driver

The driver of `src/firmware/i2c_driver.cpp`: the calls of `i2c1_send` and `i2c1_receive` up to their
wait for `i2c1_busy`, and the interrupt handler, which carries a transfer on by one status code of the
peripheral. Memory is read and written through `buf`; an index of `buf` that is not below `buf_len`
faults, and so does the endless loop for a status code that the handler does not know.
-/

namespace CodingForFun.I2cDriver

open Lib

/-- The bits of the control register, `I2EN` apart. -/
inductive Flag
  | AA
  | SI
  | STO
  | STA
  deriving DecidableEq

/-- The variables of the driver, the registers and the memory, with the history of what the handler
has done: the bytes loaded into `I2DAT`, and how often it has set `STO`. -/
structure State where
  busy : Bool
  slaveAddress : UInt8
  buf : ℕ
  bufLen : ℕ
  numTransferred : ℕ
  ignoreDataNack : Bool
  i2dat : UInt8
  con : Flag → Bool
  memory : ℕ → UInt8
  loads : List UInt8
  stops : ℕ

namespace State

/-- After `i2c1_init`. -/
def initial (ignoreDataNack : Bool) (memory : ℕ → UInt8) : State where
  busy := false
  slaveAddress := 0
  buf := 0
  bufLen := 0
  numTransferred := 0
  ignoreDataNack := ignoreDataNack
  i2dat := 0
  con := fun _ => false
  memory := memory
  loads := []
  stops := 0

/-- A write to `I2CONCLR`. -/
def conClr (s : State) (flags : List Flag) : State :=
  { s with con := fun f => s.con f && !flags.contains f }

/-- A write to `I2CONSET`. -/
def conSet (s : State) (flags : List Flag) : State :=
  { s with
    con := fun f => s.con f || flags.contains f
    stops := if flags.contains .STO then s.stops + 1 else s.stops }

/-- A write to `I2DAT`. -/
def load (s : State) (byte : UInt8) : State :=
  { s with i2dat := byte, loads := s.loads ++ [byte] }

/-- `buf[i]` -/
def readBuf (s : State) (i : ℕ) : Except Fault UInt8 :=
  if i < s.bufLen then .ok (s.memory (s.buf + i)) else .error .outOfBounds

/-- `buf[i] = byte` -/
def writeBuf (s : State) (i : ℕ) (byte : UInt8) : Except Fault State :=
  if i < s.bufLen then .ok { s with memory := Function.update s.memory (s.buf + i) byte }
  else .error .outOfBounds

end State

/-- `i2c1_receive`, up to its wait. -/
def startReceive (s : State) (address : UInt8) (buffer : ℕ) (length : UInt32) : State :=
  { s with
    busy := true
    slaveAddress := (address <<< 1) ||| 0x01
    buf := buffer
    bufLen := length.toNat
    numTransferred := 0 }.conSet [.STA]

/-- `i2c1_send`, up to its wait. -/
def startSend (s : State) (address : UInt8) (buffer : ℕ) (length : UInt32) : State :=
  { s with
    busy := true
    slaveAddress := address
    buf := buffer
    bufLen := length.toNat
    numTransferred := 0 }.conSet [.STA]

/-- `I2C1_IRQHandler`, with the status code that it finds in `I2STAT`. -/
def irqHandler (s : State) (i2stat : ℕ) : Except Fault State := do
  -- ignore data nack when control is true
  let status := if i2stat = 0x30 ∧ s.ignoreDataNack then 0x28 else i2stat
  match status with
  | 0x08 => pure ((s.load s.slaveAddress).conClr [.STA, .SI])
  | 0x18 =>
    if s.numTransferred < s.bufLen then
      let byte ← s.readBuf 0
      pure ((s.load byte).conClr [.STO, .STA, .SI])
    else
      pure ((s.conClr [.STA, .SI]).conSet [.STO])
  | 0x20 =>
    pure { (s.conClr [.STA, .SI]).conSet [.STO] with numTransferred := 0xFFFFFFFF, busy := false }
  | 0x28 =>
    let s := { s with numTransferred := (s.numTransferred + 1) % 2 ^ 32 }
    if s.numTransferred < s.bufLen then
      let byte ← s.readBuf s.numTransferred
      pure ((s.load byte).conClr [.STO, .STA, .SI])
    else
      pure { (s.conClr [.STA, .SI]).conSet [.STO] with busy := false }
  | 0x30 => pure { (s.conClr [.STA, .SI]).conSet [.STO] with busy := false }
  | 0x38 => pure { s.conClr [.STO, .STA, .SI] with busy := false }
  | 0x40 =>
    if s.numTransferred < s.bufLen then
      pure ((s.conClr [.STO, .STA, .SI]).conSet [.AA])
    else
      pure (s.conClr [.AA, .STO, .STA, .SI])
  | 0x48 =>
    pure { (s.conClr [.STA, .SI]).conSet [.STO] with numTransferred := 0xFFFFFFFF, busy := false }
  | 0x50 =>
    let s ← s.writeBuf s.numTransferred s.i2dat
    let s := { s with numTransferred := (s.numTransferred + 1) % 2 ^ 32 }
    if s.numTransferred < s.bufLen then
      pure ((s.conClr [.STO, .STA, .SI]).conSet [.AA])
    else
      pure (s.conClr [.AA, .STO, .STA, .SI])
  | 0x58 => pure { (s.conClr [.STA, .SI]).conSet [.STO] with busy := false }
  -- something went wrong, trap error
  | _ => .error .unbounded

/-! ### What the handler does, by the status code -/

section handler

variable {s : State}

theorem irqHandler_start (s : State) :
    irqHandler s 0x08 = .ok ((s.load s.slaveAddress).conClr [.STA, .SI]) := by
  simp [irqHandler]

theorem irqHandler_write (h : s.numTransferred < s.bufLen) :
    irqHandler s 0x18 = .ok ((s.load (s.memory s.buf)).conClr [.STO, .STA, .SI]) := by
  have hread : s.readBuf 0 = .ok (s.memory s.buf) := if_pos (Nat.zero_lt_of_lt h)
  simp [irqHandler, h, hread]

theorem irqHandler_write_empty (h : ¬ s.numTransferred < s.bufLen) :
    irqHandler s 0x18 = .ok ((s.conClr [.STA, .SI]).conSet [.STO]) := by
  simp [irqHandler, h]

theorem irqHandler_sent {n : ℕ} (hn : (s.numTransferred + 1) % 2 ^ 32 = n) (h : n < s.bufLen) :
    irqHandler s 0x28 = .ok ((({ s with numTransferred := n } : State).load
      (s.memory (s.buf + n))).conClr [.STO, .STA, .SI]) := by
  have hread : ({ s with numTransferred := n } : State).readBuf n = .ok (s.memory (s.buf + n)) :=
    if_pos h
  simp only [Nat.reducePow] at hn
  simp [irqHandler, hn, h, hread]

theorem irqHandler_sent_last {n : ℕ} (hn : (s.numTransferred + 1) % 2 ^ 32 = n)
    (h : ¬ n < s.bufLen) :
    irqHandler s 0x28 = .ok { (({ s with numTransferred := n } : State).conClr [.STA, .SI]).conSet
      [.STO] with busy := false } := by
  simp only [Nat.reducePow] at hn
  simp [irqHandler, hn, h]

/-- The bits for the next byte: `AA` is set while there is room in the buffer. -/
def askFor (s : State) : State :=
  if s.numTransferred < s.bufLen then
    (s.conClr [.STO, .STA, .SI]).conSet [.AA]
  else
    s.conClr [.AA, .STO, .STA, .SI]

theorem askFor_eq (s : State) : askFor s = { s with con := (askFor s).con } := by
  unfold askFor
  split <;> simp [State.conClr, State.conSet]

theorem askFor_AA (s : State) : (askFor s).con .AA = decide (s.numTransferred < s.bufLen) := by
  unfold askFor
  split
  · next h => simp [State.conClr, State.conSet, h]
  · next h => simp [State.conClr, h]

theorem askFor_STO (s : State) : (askFor s).con .STO = false := by
  unfold askFor
  split <;> simp [State.conClr, State.conSet]

theorem askFor_STA (s : State) : (askFor s).con .STA = false := by
  unfold askFor
  split <;> simp [State.conClr, State.conSet]

theorem irqHandler_read (s : State) : irqHandler s 0x40 = .ok (askFor s) := by
  unfold askFor
  by_cases h : s.numTransferred < s.bufLen <;> simp [irqHandler, h]

theorem irqHandler_received {n : ℕ} (hn : (s.numTransferred + 1) % 2 ^ 32 = n)
    (h : s.numTransferred < s.bufLen) :
    irqHandler s 0x50 = .ok (askFor { s with
      memory := Function.update s.memory (s.buf + s.numTransferred) s.i2dat
      numTransferred := n }) := by
  have hwrite : s.writeBuf s.numTransferred s.i2dat =
    .ok { s with memory := Function.update s.memory (s.buf + s.numTransferred) s.i2dat } := if_pos h
  simp only [Nat.reducePow] at hn
  unfold askFor
  by_cases hmore : n < s.bufLen <;> simp [irqHandler, hwrite, hn, hmore]

theorem irqHandler_received_last (s : State) :
    irqHandler s 0x58 = .ok { (s.conClr [.STA, .SI]).conSet [.STO] with busy := false } := by
  simp [irqHandler]

/-- What the handler can do for a status code. -/
inductive Handled (s : State) : ℕ → State → Prop
  /-- the address is loaded -/
  | start : Handled s 0x08 ((s.load s.slaveAddress).conClr [.STA, .SI])
  /-- the first byte is loaded -/
  | first (h : s.numTransferred < s.bufLen) :
    Handled s 0x18 ((s.load (s.memory s.buf)).conClr [.STO, .STA, .SI])
  /-- there is no byte to send, and the transfer is stopped -/
  | empty (h : ¬ s.numTransferred < s.bufLen) :
    Handled s 0x18 ((s.conClr [.STA, .SI]).conSet [.STO])
  /-- the next byte is loaded -/
  | next (status n : ℕ) (hstatus : status = 0x28 ∨ status = 0x30) :
    Handled s status ((({ s with numTransferred := n } : State).load
      (s.memory (s.buf + n))).conClr [.STO, .STA, .SI])
  /-- the transfer is stopped, and the caller returns `n` -/
  | stop (status n : ℕ) (hstatus : status ≠ 0x18) :
    Handled s status { (s.conClr [.STA, .SI]).conSet [.STO] with
      numTransferred := n, busy := false }
  /-- the bus is lost, and the caller returns -/
  | lost : Handled s 0x38 { s.conClr [.STO, .STA, .SI] with busy := false }
  /-- the slave is to send -/
  | ask : Handled s 0x40 (askFor s)
  /-- a byte is stored -/
  | store (n : ℕ) (h : s.numTransferred < s.bufLen) :
    Handled s 0x50 (askFor { s with
      memory := Function.update s.memory (s.buf + s.numTransferred) s.i2dat
      numTransferred := n })

theorem irqHandler_ignored (h : s.ignoreDataNack = true) : irqHandler s 0x30 = irqHandler s 0x28 := by
  simp [irqHandler, h]

theorem irqHandler_28 (s : State) :
    ∃ s', irqHandler s 0x28 = .ok s' ∧ ∀ status, status = 0x28 ∨ status = 0x30 →
      Handled s status s' := by
  by_cases hmore : (s.numTransferred + 1) % 2 ^ 32 < s.bufLen
  · exact ⟨_, irqHandler_sent rfl hmore, fun status h => .next status _ h⟩
  · refine ⟨_, irqHandler_sent_last rfl hmore, ?_⟩
    intro status h
    exact .stop status _ (by omega)

/-- Every status code that the handler knows is handled, but for a byte that is received without room
for it. -/
theorem irqHandler_result (s : State) (status : ℕ) :
    (∃ s', irqHandler s status = .ok s' ∧ Handled s status s') ∨
      irqHandler s status = .error .unbounded ∨
      irqHandler s status = .error .outOfBounds ∧ status = 0x50 ∧
        ¬ s.numTransferred < s.bufLen := by
  by_cases hstatus : status ∈ [0x08, 0x18, 0x20, 0x28, 0x30, 0x38, 0x40, 0x48, 0x50, 0x58]
  · simp only [List.mem_cons, List.not_mem_nil, or_false] at hstatus
    rcases hstatus with rfl | rfl | rfl | rfl | rfl | rfl | rfl | rfl | rfl | rfl
    · exact .inl ⟨_, irqHandler_start s, .start⟩
    · by_cases hroom : s.numTransferred < s.bufLen
      · exact .inl ⟨_, irqHandler_write hroom, .first hroom⟩
      · exact .inl ⟨_, irqHandler_write_empty hroom, .empty hroom⟩
    · exact .inl ⟨_, by simp [irqHandler], .stop 0x20 0xFFFFFFFF (by decide)⟩
    · obtain ⟨s', hs', h⟩ := irqHandler_28 s
      exact .inl ⟨s', hs', h _ (.inl rfl)⟩
    · cases hignore : s.ignoreDataNack with
      | true =>
        obtain ⟨s', hs', h⟩ := irqHandler_28 s
        exact .inl ⟨s', by rw [irqHandler_ignored hignore, hs'], h _ (.inr rfl)⟩
      | false =>
        exact .inl ⟨_, by simp [irqHandler, hignore]; rfl, .stop 0x30 s.numTransferred (by decide)⟩
    · exact .inl ⟨_, by simp [irqHandler], .lost⟩
    · exact .inl ⟨_, irqHandler_read s, .ask⟩
    · exact .inl ⟨_, by simp [irqHandler], .stop 0x48 0xFFFFFFFF (by decide)⟩
    · by_cases hroom : s.numTransferred < s.bufLen
      · exact .inl ⟨_, irqHandler_received rfl hroom, .store _ hroom⟩
      · have hwrite : s.writeBuf s.numTransferred s.i2dat = .error .outOfBounds := if_neg hroom
        exact .inr (.inr ⟨by simp [irqHandler, hwrite], rfl, hroom⟩)
    · exact .inl ⟨_, irqHandler_received_last s, .stop 0x58 s.numTransferred (by decide)⟩
  · refine .inr (.inl ?_)
    simp only [List.mem_cons, List.not_mem_nil, or_false, not_or] at hstatus
    -- The inequalities leave the last case of the match.
    obtain ⟨h₀₈, h₁₈, h₂₀, h₂₈, h₃₀, h₃₈, h₄₀, h₄₈, h₅₀, h₅₈⟩ := hstatus
    simp [irqHandler, h₃₀]

theorem handled_of_ok {s' : State} {status : ℕ} (h : irqHandler s status = .ok s') :
    Handled s status s' := by
  rcases irqHandler_result s status with ⟨s'', hs'', hhandled⟩ | hend | ⟨hend, -⟩
  · obtain rfl := Except.ok.inj (hs''.symm.trans h)
    exact hhandled
  · simp [hend] at h
  · simp [hend] at h

theorem Handled.sta {s' : State} {status : ℕ} (h : Handled s status s') : s'.con .STA = false := by
  cases h with
  | ask => exact askFor_STA _
  | store => exact askFor_STA _
  | _ => simp [State.conClr, State.conSet, State.load]

end handler

end CodingForFun.I2cDriver
