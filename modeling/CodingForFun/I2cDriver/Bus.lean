import CodingForFun.I2cDriver.Basic
import CodingForFun.Lib.Threads

/-!
# The driver on the bus

Any calls of the driver and any interrupts that the bus can raise: acknowledged or not, with the bus
lost at any point, and with status codes that the handler does not know. What the bus can produce
depends on how far the transfer is (`Phase`), on whether the address that was loaded asks for a read,
and on `AA`. After `STO` the hardware ends the transfer and takes the bit back.

While a read goes on `AA` is set exactly while there is room in the buffer, so no interrupt leaves it
(`irqHandler_in_bounds`). Every interrupt that stops a transfer frees the driver, but for the one that
finds nothing to send (`stop_frees_iff`).
-/

namespace CodingForFun.I2cDriver

open Lib

inductive Phase
  /-- no transfer; a start condition may have been asked for -/
  | idle
  /-- the start condition has been sent, and the address is loaded -/
  | started
  /-- the slave has acknowledged a write -/
  | writing
  /-- the slave has acknowledged a read -/
  | reading
  deriving DecidableEq

/-- The driver, and how far the bus is with the transfer. -/
structure Bus where
  driver : State
  phase : Phase

inductive Action
  /-- a call of `i2c1_send` -/
  | send (address : UInt8) (buffer : ℕ) (length : UInt32)
  /-- a call of `i2c1_receive` -/
  | receive (address : UInt8) (buffer : ℕ) (length : UInt32)
  /-- an interrupt, with the byte that the slave has sent if there is one -/
  | irq (status : ℕ) (data : UInt8)

/-- The status codes that the handler knows. -/
def knownStatus : List ℕ := [0x08, 0x18, 0x20, 0x28, 0x30, 0x38, 0x40, 0x48, 0x50, 0x58]

/-- The status codes of a transfer as it should go on. -/
def expected (b : Bus) : List ℕ :=
  match b.phase with
  | .idle => if b.driver.con .STA then [0x08, 0x38] else []
  | .started => if b.driver.i2dat &&& 1 = 0 then [0x18, 0x20, 0x38] else [0x40, 0x48, 0x38]
  | .writing => [0x28, 0x30, 0x38]
  | .reading => if b.driver.con .AA then [0x50, 0x38] else [0x58, 0x38]

/-- The status codes that the bus can produce. -/
def canProduce (b : Bus) (status : ℕ) : Bool :=
  (expected b).contains status || !knownStatus.contains status

/-- A byte that the slave has sent is in `I2DAT`. -/
def arrive (s : State) (status : ℕ) (data : UInt8) : State :=
  if status = 0x50 ∨ status = 0x58 then { s with i2dat := data } else s

/-- The phase after a status code that has been handled without a stop. -/
def phaseAfter : ℕ → Phase
  | 0x08 => .started
  | 0x18 => .writing
  | 0x28 => .writing
  | 0x30 => .writing
  | 0x40 => .reading
  | 0x50 => .reading
  | _ => .idle

/-- The hardware after the handler. -/
def react (s : State) (status : ℕ) : Bus :=
  if s.con .STO then ⟨{ s with con := Function.update s.con .STO false }, .idle⟩
  else ⟨s, phaseAfter status⟩

def step (b : Bus) : Action → Option Bus
  | .send address buffer length =>
    if b.driver.busy then some b
    else some { b with driver := startSend b.driver address buffer length }
  | .receive address buffer length =>
    if b.driver.busy then some b
    else some { b with driver := startReceive b.driver address buffer length }
  | .irq status data =>
    if canProduce b status then
      match irqHandler (arrive b.driver status data) status with
      | .ok s => some (react s status)
      | .error _ => none
    else none

/-- After `i2c1_init`. -/
def Bus.initial (ignoreDataNack : Bool) (memory : ℕ → UInt8) : Bus :=
  ⟨State.initial ignoreDataNack memory, .idle⟩

/-- What holds between the interrupts. -/
structure Steady (b : Bus) : Prop where
  stop : b.driver.con .STO = false
  start : b.driver.con .STA = true → b.driver.busy = true ∧ b.driver.numTransferred = 0
  busy : b.phase ≠ .idle → b.driver.busy = true
  started : b.phase = .started → b.driver.numTransferred = 0
  reading : b.phase = .reading →
    b.driver.con .AA = decide (b.driver.numTransferred < b.driver.bufLen)

section steady

variable {b b' : Bus} {s s' : State} {status : ℕ} {data : UInt8}

theorem steady_initial (ignoreDataNack : Bool) (memory : ℕ → UInt8) :
    Steady (Bus.initial ignoreDataNack memory) where
  stop := rfl
  start := by simp [Bus.initial, State.initial]
  busy := by simp [Bus.initial]
  started := by simp [Bus.initial]
  reading := by simp [Bus.initial]

theorem phase_of_known (h : canProduce b status = true) (hknown : status ∈ knownStatus) :
    (b.phase = .idle ∧ b.driver.con .STA = true ∧ status ∈ [0x08, 0x38]) ∨
    (b.phase = .started ∧ status ∈ [0x18, 0x20, 0x40, 0x48, 0x38]) ∨
    (b.phase = .writing ∧ status ∈ [0x28, 0x30, 0x38]) ∨
    (b.phase = .reading ∧ (status = 0x50 → b.driver.con .AA = true) ∧
      status ∈ [0x50, 0x58, 0x38]) := by
  have hmem : status ∈ expected b := by simpa [canProduce, hknown] using h
  unfold expected at hmem
  split at hmem
  · next hphase =>
    split at hmem
    · next hstart => exact .inl ⟨hphase, hstart, hmem⟩
    · simp at hmem
  · next hphase =>
    refine .inr (.inl ⟨hphase, ?_⟩)
    split at hmem
    · simp at hmem ⊢
      omega
    · simp at hmem ⊢
      omega
  · next hphase => exact .inr (.inr (.inl ⟨hphase, hmem⟩))
  · next hphase =>
    refine .inr (.inr (.inr ⟨hphase, ?_⟩))
    split at hmem
    · next haa =>
      refine ⟨fun _ => haa, ?_⟩
      simp at hmem ⊢
      omega
    · simp at hmem ⊢
      omega

theorem idle_of_start (h : canProduce b 0x08 = true) :
    b.phase = .idle ∧ b.driver.con .STA = true := by
  rcases phase_of_known h (by decide) with ⟨hphase, hstart, -⟩ | ⟨-, hmem⟩ | ⟨-, hmem⟩ | ⟨-, -, hmem⟩
  · exact ⟨hphase, hstart⟩
  · exact absurd hmem (by decide)
  · exact absurd hmem (by decide)
  · exact absurd hmem (by decide)

theorem started_of_address (h : canProduce b status = true)
    (hstatus : status = 0x18 ∨ status = 0x40) : b.phase = .started := by
  have hknown : status ∈ knownStatus := by rcases hstatus with rfl | rfl <;> decide
  rcases phase_of_known h hknown with ⟨-, -, hmem⟩ | ⟨hphase, -⟩ | ⟨-, hmem⟩ | ⟨-, -, hmem⟩
  · simp at hmem
    omega
  · exact hphase
  · simp at hmem
    omega
  · simp at hmem
    omega

theorem writing_of_sent (h : canProduce b status = true)
    (hstatus : status = 0x28 ∨ status = 0x30) : b.phase = .writing := by
  have hknown : status ∈ knownStatus := by rcases hstatus with rfl | rfl <;> decide
  rcases phase_of_known h hknown with ⟨-, -, hmem⟩ | ⟨-, hmem⟩ | ⟨hphase, -⟩ | ⟨-, -, hmem⟩
  · simp at hmem
    omega
  · simp at hmem
    omega
  · exact hphase
  · simp at hmem
    omega

theorem reading_of_received (h : canProduce b 0x50 = true) :
    b.phase = .reading ∧ b.driver.con .AA = true := by
  rcases phase_of_known h (by decide) with ⟨-, -, hmem⟩ | ⟨-, hmem⟩ | ⟨-, hmem⟩ | ⟨hphase, haa, -⟩
  · exact absurd hmem (by decide)
  · exact absurd hmem (by decide)
  · exact absurd hmem (by decide)
  · exact ⟨hphase, haa rfl⟩

theorem step_irq (h : step b (.irq status data) = some b') :
    ∃ s', canProduce b status = true ∧ Handled (arrive b.driver status data) status s' ∧
      b' = react s' status := by
  unfold step at h
  cases hcan : canProduce b status with
  | false => simp [hcan] at h
  | true =>
    cases hirq : irqHandler (arrive b.driver status data) status with
    | error e => simp [hcan, hirq] at h
    | ok s' =>
      simp only [hcan, hirq, if_true, Option.some.injEq] at h
      exact ⟨s', rfl, handled_of_ok hirq, h.symm⟩

theorem arrive_eq (s : State) (status : ℕ) (data : UInt8) :
    arrive s status data = { s with i2dat := (arrive s status data).i2dat } := by
  unfold arrive
  split <;> rfl

theorem steady_stopped (hsto : s'.con .STO = true) (hsta : s'.con .STA = false) (status : ℕ) :
    Steady (react s' status) := by
  have hreact : react s' status = _ := if_pos hsto
  rw [hreact]
  exact ⟨by simp, by simp [hsta], by simp, by simp, by simp⟩

theorem react_going (hsto : s'.con .STO = false) (status : ℕ) :
    react s' status = ⟨s', phaseAfter status⟩ := if_neg (by simp [hsto])

theorem react_driver (s' : State) (status : ℕ) :
    (react s' status).driver.stops = s'.stops ∧ (react s' status).driver.busy = s'.busy := by
  unfold react
  split <;> exact ⟨rfl, rfl⟩

theorem steady_going (hsto : s'.con .STO = false) (hsta : s'.con .STA = false)
    (hbusy : phaseAfter status ≠ .idle → s'.busy = true)
    (hstarted : phaseAfter status = .started → s'.numTransferred = 0)
    (hreading : phaseAfter status = .reading →
      s'.con .AA = decide (s'.numTransferred < s'.bufLen)) : Steady (react s' status) := by
  rw [react_going hsto]
  exact ⟨hsto, by simp [hsta], hbusy, hstarted, hreading⟩

theorem Steady.irq (hb : Steady b) (hcan : canProduce b status = true)
    (h : Handled (arrive b.driver status data) status s') : Steady (react s' status) := by
  have hsta := h.sta
  have hsto := hb.stop
  rw [arrive_eq] at h
  cases h with
  | start =>
    obtain ⟨-, hasked⟩ := idle_of_start hcan
    obtain ⟨hbusy, hnum⟩ := hb.start hasked
    apply steady_going _ hsta (fun _ => hbusy) (fun _ => hnum)
    · simp [phaseAfter]
    · simp [State.conClr, State.load, hsto]
  | first hroom =>
    have hbusy := hb.busy (by simp [started_of_address hcan (.inl rfl)])
    apply steady_going _ hsta (fun _ => hbusy)
    · simp [phaseAfter]
    · simp [phaseAfter]
    · simp [State.conClr]
  | empty hroom => exact steady_stopped (by simp [State.conSet]) hsta _
  | next status n hstatus =>
    have hbusy := hb.busy (by simp [writing_of_sent hcan hstatus])
    have hphase : phaseAfter status = .writing := by rcases hstatus with rfl | rfl <;> rfl
    apply steady_going _ hsta (fun _ => hbusy)
    · simp [hphase]
    · simp [hphase]
    · simp [State.conClr]
  | stop status n hstatus => exact steady_stopped (by simp [State.conSet]) hsta _
  | lost =>
    apply steady_going _ hsta
    · simp [phaseAfter]
    · simp [phaseAfter]
    · simp [phaseAfter]
    · simp [State.conClr]
  | ask =>
    have hbusy := hb.busy (by simp [started_of_address hcan (.inr rfl)])
    have haa := askFor_AA ({ b.driver with i2dat := (arrive b.driver 0x40 data).i2dat } : State)
    apply steady_going (askFor_STO _) hsta
    · intro _
      rw [askFor_eq]
      exact hbusy
    · simp [phaseAfter]
    · intro _
      rw [haa, askFor_eq]
  | store n hroom =>
    have hbusy := hb.busy (by simp [(reading_of_received hcan).1])
    apply steady_going (askFor_STO _) hsta
    · intro _
      rw [askFor_eq]
      exact hbusy
    · simp [phaseAfter]
    · intro _
      rw [askFor_AA, askFor_eq]

theorem Steady.call (hb : Steady b) (hidle : b.driver.busy = false) {driver : State}
    (hcon : driver.con = fun f => b.driver.con f || [Flag.STA].contains f)
    (hbusy : driver.busy = true) (hnum : driver.numTransferred = 0) :
    Steady { b with driver := driver } := by
  have hphase : b.phase = .idle := by
    by_contra hphase
    rw [hb.busy hphase] at hidle
    exact Bool.noConfusion hidle
  refine ⟨?_, fun _ => ⟨hbusy, hnum⟩, fun _ => hbusy, fun _ => hnum, ?_⟩
  · simp [hcon, hb.stop]
  · simp [hphase]

theorem call_cases {driver : State}
    (h : (if b.driver.busy then some b else some { b with driver := driver }) = some b') :
    b' = b ∨ (b.driver.busy = false ∧ b' = { b with driver := driver }) := by
  cases hbusy : b.driver.busy with
  | true => exact .inl (by simpa [hbusy] using h.symm)
  | false => exact .inr ⟨rfl, by simpa [hbusy] using h.symm⟩

theorem Steady.next (hb : Steady b) {a : Action} (h : step b a = some b') : Steady b' := by
  cases a with
  | send address buffer length =>
    obtain rfl | ⟨hidle, rfl⟩ := call_cases h
    · exact hb
    · exact hb.call hidle rfl rfl rfl
  | receive address buffer length =>
    obtain rfl | ⟨hidle, rfl⟩ := call_cases h
    · exact hb
    · exact hb.call hidle rfl rfl rfl
  | irq status data =>
    obtain ⟨s', hcan, hhandled, rfl⟩ := step_irq h
    exact hb.irq hcan hhandled

end steady

/-! ### The buffer -/

/-- Whatever the calls and the interrupts before, no interrupt that the bus can raise makes the handler
leave the buffer. -/
theorem irqHandler_in_bounds {ignoreDataNack : Bool} {memory : ℕ → UInt8} {b : Bus}
    (hrun : Reaches step (fun _ _ => True) (Bus.initial ignoreDataNack memory) b) {status : ℕ}
    (hcan : canProduce b status = true) (data : UInt8) :
    irqHandler (arrive b.driver status data) status ≠ .error .outOfBounds := by
  have hb : Steady b := hrun.invariant (steady_initial ignoreDataNack memory)
    fun b a b' hb _ h => hb.next h
  intro hfault
  rcases irqHandler_result (arrive b.driver status data) status with
    ⟨s', hok, -⟩ | htrap | ⟨-, rfl, hfull⟩
  · simp [hok] at hfault
  · simp [htrap] at hfault
  · -- A byte is received only while there is room.
    obtain ⟨hphase, haa⟩ := reading_of_received hcan
    rw [hb.reading hphase, decide_eq_true_eq] at haa
    rw [arrive_eq] at hfull
    exact hfull haa

/-- The second byte of a read, after a read that has lost the bus. -/
theorem irqHandler_in_bounds_second_byte : ∃ b, canProduce b 0x50 = true ∧
    irqHandler (arrive b.driver 0x50 7) 0x50 ≠ .error .outOfBounds := by
  have hrun : (([.receive 0x50 100 3, .irq 0x08 0, .irq 0x40 0, .irq 0x50 1, .irq 0x38 0,
      .receive 0x50 100 2, .irq 0x08 0, .irq 0x40 0, .irq 0x50 1] : List Action).foldlM
        (fun b a => if True then step b a else none) (Bus.initial true fun _ => 0)).any
          (fun b => decide (canProduce b 0x50 = true)) = true := by decide +kernel
  obtain ⟨b, hb, hcan⟩ := (Option.any_eq_true _ _).mp hrun
  have hcan := of_decide_eq_true hcan
  exact ⟨b, hcan, irqHandler_in_bounds (Reaches.of_foldlM _ hb) hcan 7⟩

/-! ### Stops -/

/-- A step that sets `STO` leaves the driver free. -/
def StopFrees (b : Bus) (a : Action) : Prop :=
  ∀ b', step b a = some b' → b.driver.stops < b'.driver.stops → b'.driver.busy = false

/-- The slave does not acknowledge a write that has nothing to send. -/
def SomethingToSend (b : Bus) : Action → Prop
  | .irq status _ => status = 0x18 → 0 < b.driver.bufLen
  | _ => True

theorem Steady.stopFrees_iff {b b' : Bus} {a : Action} (hb : Steady b) (h : step b a = some b') :
    StopFrees b a ↔ SomethingToSend b a := by
  have hframe : b'.driver.stops = b.driver.stops → StopFrees b a := by
    intro hsame b'' h'' hstops
    obtain rfl := Option.some.inj (h.symm.trans h'')
    omega
  cases a with
  | send address buffer length =>
    refine iff_of_true (hframe ?_) trivial
    obtain rfl | ⟨-, rfl⟩ := call_cases h <;> rfl
  | receive address buffer length =>
    refine iff_of_true (hframe ?_) trivial
    obtain rfl | ⟨-, rfl⟩ := call_cases h <;> rfl
  | irq status data =>
    obtain ⟨s', hcan, hhandled, rfl⟩ := step_irq h
    obtain ⟨hstops, hbusy⟩ := react_driver s' status
    rw [hstops] at hframe
    rw [arrive_eq] at hhandled
    cases hhandled with
    | start => exact iff_of_true (hframe rfl) (by simp [SomethingToSend])
    | first hroom => exact iff_of_true (hframe rfl) fun _ => Nat.zero_lt_of_lt hroom
    | empty hroom =>
      have hphase := started_of_address hcan (.inl rfl)
      have hwaits : b.driver.busy = true := hb.busy (by simp [hphase])
      have hnum : b.driver.numTransferred = 0 := hb.started hphase
      apply iff_of_false
      · intro hfrees
        have hfree := hfrees _ h (by rw [hstops]; exact Nat.lt_succ_self _)
        rw [hbusy] at hfree
        exact absurd (hwaits.symm.trans hfree) (by simp)
      · intro hsome
        exact hroom (hnum.symm ▸ hsome rfl)
    | next status n hstatus =>
      refine iff_of_true (hframe rfl) ?_
      intro hwrite
      omega
    | stop status n hstatus =>
      refine iff_of_true ?_ fun hwrite => absurd hwrite hstatus
      intro b'' h'' _
      obtain rfl := Option.some.inj (h.symm.trans h'')
      exact hbusy
    | lost => exact iff_of_true (hframe rfl) (by simp [SomethingToSend])
    | ask =>
      refine iff_of_true (hframe ?_) (by simp [SomethingToSend])
      rw [askFor_eq]
    | store n hroom =>
      refine iff_of_true (hframe ?_) (by simp [SomethingToSend])
      rw [askFor_eq]

/-- In a run every stop frees the driver exactly when no write without a byte to send is
acknowledged. -/
theorem stop_frees_iff (ignoreDataNack : Bool) (memory : ℕ → UInt8) (as : List Action) :
    Along step StopFrees (Bus.initial ignoreDataNack memory) as ↔
      Along step SomethingToSend (Bus.initial ignoreDataNack memory) as := by
  apply @Along.iff _ _ _ _ _ Steady
  · intro b a b' hb _ h
    exact hb.next h
  · intro b a b' hb h
    exact hb.stopFrees_iff h
  · exact steady_initial ignoreDataNack memory

/-- An empty send that is acknowledged. -/
theorem empty_send_hangs : ¬ Along step StopFrees (Bus.initial true fun _ => 0)
    ([.send 0xA0 100 0, .irq 0x08 0] ++ [.irq 0x18 0]) := by
  intro hall
  have hstarted : ([.send 0xA0 100 0, .irq 0x08 0] : List Action).foldlM step
    (Bus.initial true fun _ => 0) = some _ := rfl
  have hfrees := hall.at hstarted rfl
  exact absurd (hfrees _ rfl (by decide)) (by decide)

end CodingForFun.I2cDriver
