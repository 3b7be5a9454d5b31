import CodingForFun.I2cDriver.Basic
import CodingForFun.Lib.Loop

/-!
# Whole transfers

`i2c1_send` and `i2c1_receive` with a slave that acknowledges everything: the interrupts of the
standard status sequence arrive while the caller waits for `i2c1_busy`. `Sending` and `Receiving` say
what has happened after `i` interrupts.

A send of at least one byte loads the address and the buffer, and a receive fills the buffer
(`transfers`). The handler clears `AA` only once the buffer is full, so the slave has to send one more
byte, which is dropped (`slave_sends_one_more`).
-/

namespace CodingForFun.I2cDriver

open Lib

/-- A state, and the number of interrupts since the start of the transfer. -/
abbrev Progress := State × ℕ

/-- The status codes of a write: the start condition, the address, and one for every byte. -/
def sendStatus : ℕ → ℕ
  | 0 => 0x08
  | 1 => 0x18
  | _ + 2 => 0x28

/-- The status codes of a read: the start condition, the address, and one for every byte that the
slave sends. Bytes are acknowledged while `AA` is set. -/
def receiveStatus (s : State) : ℕ → ℕ
  | 0 => 0x08
  | 1 => 0x40
  | _ + 2 => if s.con .AA then 0x50 else 0x58

/-- The byte that the slave has sent is in `I2DAT`. -/
def latch (slave : ℕ → UInt8) (s : State) : ℕ → State
  | i + 2 => { s with i2dat := slave i }
  | _ => s

def sendInterrupt (x : Progress) : Except Fault Progress := do
  let s ← irqHandler x.1 (sendStatus x.2)
  pure (s, x.2 + 1)

def receiveInterrupt (slave : ℕ → UInt8) (x : Progress) : Except Fault Progress := do
  let s ← irqHandler (latch slave x.1 x.2) (receiveStatus x.1 x.2)
  pure (s, x.2 + 1)

/-- `while (i2c1_busy);` -/
def wait (interrupt : Progress → Except Fault Progress) (fuel : ℕ) (s : State) :
    Except Fault Progress :=
  whileM .unbounded (fun x => .ok x.1.busy) interrupt fuel (s, 0)

/-- `i2c1_send`: the value it returns, and what it leaves behind. -/
def i2c1Send (s : State) (address : UInt8) (buffer : ℕ) (length : UInt32) (fuel : ℕ) :
    Except Fault (ℕ × Progress) := do
  if s.busy then
    return (0, (s, 0))
  let x ← wait sendInterrupt fuel (startSend s address buffer length)
  pure (x.1.numTransferred, x)

/-- `i2c1_receive`: the value it returns, and what it leaves behind. -/
def i2c1Receive (slave : ℕ → UInt8) (s : State) (address : UInt8) (buffer : ℕ) (length : UInt32)
    (fuel : ℕ) : Except Fault (ℕ × Progress) := do
  if s.busy then
    return (0, (s, 0))
  let x ← wait (receiveInterrupt slave) fuel (startReceive s address buffer length)
  pure (x.1.numTransferred, x)

theorem wait_ok {interrupt : Progress → Except Fault Progress} {P : State → ℕ → Prop} {n : ℕ}
    (hnext : ∀ t i, P t i → i < n → ∃ t', interrupt (t, i) = .ok (t', i + 1) ∧ P t' (i + 1))
    (hle : ∀ t i, P t i → i ≤ n) (hbusy : ∀ t i, P t i → t.busy = decide (i < n)) {s : State}
    (hstart : P s 0) : ∃ t, wait interrupt (n + 1) s = .ok (t, n) ∧ P t n := by
  have hround : ∀ x : Progress, P x.1 x.2 →
      (∃ y, Except.ok x.1.busy = (.ok true : Except Fault Bool) ∧ interrupt x = .ok y ∧ P y.1 y.2 ∧
        n - y.2 < n - x.2) ∨
      (Except.ok x.1.busy = (.ok false : Except Fault Bool) ∧ P x.1 x.2 ∧ x.2 = n) := by
    rintro ⟨t, i⟩ h
    rw [hbusy t i h]
    by_cases hi : i < n
    · obtain ⟨t', ht', h'⟩ := hnext t i h hi
      refine .inl ⟨_, by rw [decide_eq_true hi], ht', h', ?_⟩
      show n - (i + 1) < n - i
      omega
    · have hin := hle t i h
      refine .inr ⟨by rw [decide_eq_false hi], h, ?_⟩
      show i = n
      omega
  obtain ⟨⟨t, i⟩, hrun, h, hi⟩ := whileM_ok (fun x : Progress => P x.1 x.2) (fun x => n - x.2) hround
    (n + 1) (s, 0) hstart (Nat.lt_succ_self n)
  obtain rfl : i = n := hi
  exact ⟨t, hrun, h⟩

/-! ### Sending -/

section send

variable {s : State} {address : UInt8} {buffer L : ℕ} {x : Progress}

/-- The bytes of a write. -/
def sendBytes (s : State) (address : UInt8) (buffer L : ℕ) : List UInt8 :=
  address :: (List.range L).map fun i => s.memory (buffer + i)

/-- A write of `L` bytes after `i` interrupts. -/
structure Sending (s : State) (address : UInt8) (buffer L : ℕ) (t : State) (i : ℕ) : Prop where
  le : i ≤ L + 2
  slave : t.slaveAddress = address
  buf : t.buf = buffer
  bufLen : t.bufLen = L
  memory : t.memory = s.memory
  num : t.numTransferred = i - 2
  loads : t.loads = s.loads ++ (sendBytes s address buffer L).take i
  busy : t.busy = decide (i < L + 2)
  stops : t.stops = if i < L + 2 then s.stops else s.stops + 1

theorem sendBytes_take_succ {k : ℕ} (hk : k < L) :
    (sendBytes s address buffer L).take (k + 2) =
      (sendBytes s address buffer L).take (k + 1) ++ [s.memory (buffer + k)] := by
  unfold sendBytes
  rw [List.take_succ_cons, List.take_succ_cons, List.take_add_one, List.getElem?_map,
    List.getElem?_range hk]
  rfl

theorem sendBytes_take_all {k : ℕ} (hk : L < k) :
    (sendBytes s address buffer L).take k = sendBytes s address buffer L := by
  apply List.take_of_length_le
  unfold sendBytes
  rw [List.length_cons, List.length_map, List.length_range]
  exact hk

theorem sendInterrupt_eq {t t' : State} {i : ℕ} (h : irqHandler t (sendStatus i) = .ok t') :
    sendInterrupt (t, i) = .ok (t', i + 1) := by
  unfold sendInterrupt
  rw [h, ok_bind, pure_eq_ok]

theorem sending_start (s : State) (address : UInt8) (buffer : ℕ) (length : UInt32) :
    Sending s address buffer length.toNat (startSend s address buffer length) 0 :=
  ⟨Nat.zero_le _, rfl, rfl, rfl, rfl, rfl, (List.append_nil _).symm, rfl, rfl⟩

theorem Sending.interrupt {t : State} {i : ℕ} (h : Sending s address buffer L t i) (hL : 0 < L)
    (hbound : L < 2 ^ 32) (hi : i < L + 2) :
    ∃ t', sendInterrupt (t, i) = .ok (t', i + 1) ∧ Sending s address buffer L t' (i + 1) := by
  -- what an interrupt leaves that does not end the transfer
  have hbusy : ∀ j < L + 2, t.busy = decide (j < L + 2) := by
    intro j hj
    rw [h.busy, decide_eq_true hi, decide_eq_true hj]
  have hstops : ∀ j < L + 2, t.stops = if j < L + 2 then s.stops else s.stops + 1 := by
    intro j hj
    rw [h.stops, if_pos hi, if_pos hj]
  match i with
  | 0 =>
    refine ⟨_, sendInterrupt_eq (irqHandler_start t), ?_⟩
    refine ⟨by omega, h.slave, h.buf, h.bufLen, h.memory, h.num, ?_, hbusy 1 (by omega), hstops 1 (by omega)⟩
    show t.loads ++ [t.slaveAddress] = _
    rw [h.loads, h.slave]
    simp [sendBytes]
  | 1 =>
    have hroom : t.numTransferred < t.bufLen := by rw [h.num, h.bufLen]; omega
    refine ⟨_, sendInterrupt_eq (irqHandler_write hroom), ?_⟩
    refine ⟨by omega, h.slave, h.buf, h.bufLen, h.memory, h.num, ?_, hbusy 2 (by omega), hstops 2 (by omega)⟩
    show t.loads ++ [t.memory t.buf] = _
    rw [h.loads, sendBytes_take_succ hL, h.memory, h.buf, List.append_assoc]
    rfl
  | k + 2 =>
    have hnum : (t.numTransferred + 1) % 2 ^ 32 = k + 1 := by rw [h.num]; omega
    by_cases hmore : k + 1 < L
    · have hroom : k + 1 < t.bufLen := by rwa [h.bufLen]
      refine ⟨_, sendInterrupt_eq (irqHandler_sent hnum hroom), ?_⟩
      refine ⟨by omega, h.slave, h.buf, h.bufLen, h.memory, rfl, ?_, hbusy (k + 3) (by omega),
        hstops (k + 3) (by omega)⟩
      show t.loads ++ [t.memory (t.buf + (k + 1))] = _
      rw [h.loads, sendBytes_take_succ hmore, h.memory, h.buf, List.append_assoc]
    · have hfull : ¬ k + 1 < t.bufLen := by rwa [h.bufLen]
      refine ⟨_, sendInterrupt_eq (irqHandler_sent_last hnum hfull), ?_⟩
      refine ⟨by omega, h.slave, h.buf, h.bufLen, h.memory, rfl, ?_, ?_, ?_⟩
      · show t.loads = _
        rw [h.loads, sendBytes_take_all (by omega), sendBytes_take_all (by omega)]
      · exact (decide_eq_false (by omega)).symm
      · show t.stops + 1 = _
        rw [h.stops, if_pos hi, if_neg (by omega)]

theorem i2c1Send_ok (hidle : s.busy = false) (address : UInt8) (buffer : ℕ) (length : UInt32)
    (hlength : 0 < length.toNat) :
    ∃ t, i2c1Send s address buffer length (length.toNat + 3) =
        .ok (length.toNat, t, length.toNat + 2) ∧
      Sending s address buffer length.toNat t (length.toNat + 2) := by
  have hbound : length.toNat < 2 ^ 32 := length.toNat_lt
  obtain ⟨t, hrun, h⟩ := wait_ok (fun t i h hi => h.interrupt hlength hbound hi) (fun t i h => h.le)
    (fun t i h => h.busy) (sending_start s address buffer length)
  refine ⟨t, ?_, h⟩
  have hnum : t.numTransferred = length.toNat := h.num
  simp only [i2c1Send, hidle]
  rw [if_neg Bool.false_ne_true, hrun, ok_bind, hnum]
  rfl

end send

/-! ### Receiving -/

/-- The memory with the first `k` bytes of the slave at `buffer`. -/
def filled (memory : ℕ → UInt8) (buffer : ℕ) (slave : ℕ → UInt8) (k : ℕ) : ℕ → UInt8 := fun a =>
  if buffer ≤ a ∧ a < buffer + k then slave (a - buffer) else memory a

section receive

variable {s : State} {address : UInt8} {buffer L : ℕ} {slave : ℕ → UInt8}

theorem filled_zero (memory : ℕ → UInt8) : filled memory buffer slave 0 = memory := by
  funext a
  exact if_neg (by omega)

theorem filled_succ (memory : ℕ → UInt8) (k : ℕ) :
    Function.update (filled memory buffer slave k) (buffer + k) (slave k) =
      filled memory buffer slave (k + 1) := by
  funext a
  unfold filled
  by_cases ha : a = buffer + k
  · have hin : buffer ≤ a ∧ a < buffer + (k + 1) := by omega
    have hoff : a - buffer = k := by omega
    rw [if_pos hin, hoff, ha, Function.update_self]
  · have hsame : (buffer ≤ a ∧ a < buffer + k) ↔ (buffer ≤ a ∧ a < buffer + (k + 1)) := by omega
    rw [Function.update_of_ne ha, if_congr hsame rfl rfl]

/-- A read of `L` bytes after `i` interrupts. -/
structure Receiving (s : State) (buffer L : ℕ) (slave : ℕ → UInt8) (t : State) (i : ℕ) : Prop where
  le : i ≤ L + 3
  buf : t.buf = buffer
  bufLen : t.bufLen = L
  num : t.numTransferred = min (i - 2) L
  memory : t.memory = filled s.memory buffer slave (min (i - 2) L)
  acknowledge : 2 ≤ i → t.con .AA = decide (i - 2 < L) ∨ i = L + 3
  busy : t.busy = decide (i < L + 3)
  stops : t.stops = if i < L + 3 then s.stops else s.stops + 1

theorem receiveInterrupt_eq {t t' : State} {i : ℕ}
    (h : irqHandler (latch slave t i) (receiveStatus t i) = .ok t') :
    receiveInterrupt slave (t, i) = .ok (t', i + 1) := by
  unfold receiveInterrupt
  rw [h, ok_bind, pure_eq_ok]

theorem receiving_start (s : State) (address : UInt8) (buffer : ℕ) (length : UInt32)
    (slave : ℕ → UInt8) :
    Receiving s buffer length.toNat slave (startReceive s address buffer length) 0 where
  le := Nat.zero_le _
  buf := rfl
  bufLen := rfl
  num := (Nat.zero_min _).symm
  memory := by
    rw [Nat.zero_sub, Nat.zero_min, filled_zero]
    rfl
  acknowledge := by simp
  busy := rfl
  stops := rfl

namespace Receiving

variable {t : State} {i k : ℕ}

theorem busy_of_lt (h : Receiving s buffer L slave t i) (hi : i < L + 3) {j : ℕ} (hj : j < L + 3) :
    t.busy = decide (j < L + 3) := by
  rw [h.busy, decide_eq_true hi, decide_eq_true hj]

theorem stops_of_lt (h : Receiving s buffer L slave t i) (hi : i < L + 3) {j : ℕ} (hj : j < L + 3) :
    t.stops = if j < L + 3 then s.stops else s.stops + 1 := by
  rw [h.stops, if_pos hi, if_pos hj]

theorem before_byte (h : Receiving s buffer L slave t (k + 2)) (hk : k ≤ L) :
    t.con .AA = decide (k < L) ∧ t.numTransferred = k ∧ t.memory = filled s.memory buffer slave k := by
  have hmin : min (k + 2 - 2) L = k := by omega
  refine ⟨?_, by rw [h.num, hmin], by rw [h.memory, hmin]⟩
  rcases h.acknowledge (by omega) with haa | hend
  · exact haa
  · omega

theorem store (h : Receiving s buffer L slave t (k + 2)) (hbound : L < 2 ^ 32) (hmore : k < L) :
    ∃ t', receiveInterrupt slave (t, k + 2) = .ok (t', k + 3) ∧
      Receiving s buffer L slave t' (k + 3) := by
  obtain ⟨haa, hnum, hmemory⟩ := h.before_byte hmore.le
  have hstatus : receiveStatus t (k + 2) = 0x50 := by simp [receiveStatus, haa, hmore]
  have hnext : (t.numTransferred + 1) % 2 ^ 32 = k + 1 := by omega
  have hroom : t.numTransferred < t.bufLen := by rwa [hnum, h.bufLen]
  have hmin : min (k + 3 - 2) L = k + 1 := by omega
  have hhandled := irqHandler_received (s := latch slave t (k + 2)) hnext hroom
  rw [← hstatus, askFor_eq] at hhandled
  refine ⟨_, receiveInterrupt_eq hhandled, ?_⟩
  refine ⟨by omega, h.buf, h.bufLen, hmin.symm, ?_, fun _ => .inl ?_,
    h.busy_of_lt (by omega) (by omega), h.stops_of_lt (by omega) (by omega)⟩
  · show Function.update t.memory (t.buf + t.numTransferred) (slave k) = _
    rw [hmemory, h.buf, hnum, filled_succ, hmin]
  · show (askFor _).con .AA = _
    rw [askFor_AA]
    show decide (k + 1 < t.bufLen) = _
    rw [h.bufLen]
    rfl

theorem stop (h : Receiving s buffer L slave t (L + 2)) :
    ∃ t', receiveInterrupt slave (t, L + 2) = .ok (t', L + 3) ∧
      Receiving s buffer L slave t' (L + 3) := by
  obtain ⟨haa, hnum, hmemory⟩ := h.before_byte le_rfl
  have hstatus : receiveStatus t (L + 2) = 0x58 := by simp [receiveStatus, haa]
  have hmin : min (L + 3 - 2) L = L := by omega
  refine ⟨_, receiveInterrupt_eq (hstatus ▸ irqHandler_received_last _), ?_⟩
  refine ⟨le_rfl, h.buf, h.bufLen, hnum.trans hmin.symm, ?_, fun _ => .inr rfl, ?_, ?_⟩
  · show t.memory = _
    rw [hmemory, hmin]
  · exact (decide_eq_false (lt_irrefl _)).symm
  · show t.stops + 1 = _
    rw [h.stops, if_pos (by omega), if_neg (lt_irrefl _)]

/-- Every interrupt for a byte stores it while there is room, and the one without room stops the
transfer. -/
theorem interrupt (h : Receiving s buffer L slave t i) (hbound : L < 2 ^ 32) (hi : i < L + 3) :
    ∃ t', receiveInterrupt slave (t, i) = .ok (t', i + 1) ∧
      Receiving s buffer L slave t' (i + 1) := by
  match i with
  | 0 =>
    refine ⟨_, receiveInterrupt_eq (irqHandler_start t), ?_⟩
    exact ⟨by omega, h.buf, h.bufLen, h.num, h.memory, by simp, h.busy_of_lt hi (by omega),
      h.stops_of_lt hi (by omega)⟩
  | 1 =>
    refine ⟨_, receiveInterrupt_eq (irqHandler_read t), ?_⟩
    have haa := askFor_AA t
    have hnum : t.numTransferred = 0 := by
      rw [h.num]
      exact Nat.zero_min _
    rw [hnum, h.bufLen] at haa
    rw [askFor_eq]
    exact ⟨by omega, h.buf, h.bufLen, h.num, h.memory, fun _ => .inl haa, h.busy_of_lt hi (by omega),
      h.stops_of_lt hi (by omega)⟩
  | k + 2 =>
    by_cases hmore : k < L
    · exact h.store hbound hmore
    · obtain rfl : k = L := by omega
      exact h.stop

end Receiving

theorem receive_wait (s : State) (slave : ℕ → UInt8) (address : UInt8) (buffer : ℕ)
    (length : UInt32) :
    ∃ t, wait (receiveInterrupt slave) (length.toNat + 4) (startReceive s address buffer length) =
        .ok (t, length.toNat + 3) ∧
      Receiving s buffer length.toNat slave t (length.toNat + 3) := by
  have hbound : length.toNat < 2 ^ 32 := length.toNat_lt
  exact wait_ok (fun t i h hi => h.interrupt hbound hi) (fun t i h => h.le) (fun t i h => h.busy)
    (receiving_start s address buffer length slave)

theorem i2c1Receive_eq (hidle : s.busy = false) (length : UInt32) (fuel : ℕ) :
    i2c1Receive slave s address buffer length fuel =
      wait (receiveInterrupt slave) fuel (startReceive s address buffer length) >>=
        fun x => pure (x.1.numTransferred, x) := by
  simp only [i2c1Receive, hidle]
  rw [if_neg Bool.false_ne_true]

theorem i2c1Receive_ok (hidle : s.busy = false) (slave : ℕ → UInt8) (address : UInt8) (buffer : ℕ)
    (length : UInt32) :
    ∃ t, i2c1Receive slave s address buffer length (length.toNat + 4) =
        .ok (length.toNat, t, length.toNat + 3) ∧
      Receiving s buffer length.toNat slave t (length.toNat + 3) := by
  obtain ⟨t, hrun, h⟩ := receive_wait s slave address buffer length
  have hnum : t.numTransferred = length.toNat := by
    rw [h.num]
    omega
  refine ⟨t, ?_, h⟩
  rw [i2c1Receive_eq hidle, hrun, ok_bind, hnum]
  rfl

end receive

/-- A send of at least one byte loads the address and the buffer into `I2DAT`, and a receive stores
the first bytes of the slave in the buffer and nothing else. Either way the transfer is stopped once,
the bus is free again, and the length is returned. -/
theorem transfers {s : State} (hidle : s.busy = false) (address : UInt8) (buffer : ℕ)
    (length : UInt32) (slave : ℕ → UInt8) :
    (0 < length.toNat → ∃ fuel t, i2c1Send s address buffer length fuel =
        .ok (length.toNat, t, length.toNat + 2) ∧
      t.loads = s.loads ++ address :: (List.range length.toNat).map (fun i => s.memory (buffer + i)) ∧
      t.stops = s.stops + 1 ∧ t.busy = false) ∧
    ∃ fuel t n, i2c1Receive slave s address buffer length fuel = .ok (length.toNat, t, n) ∧
      (∀ a, t.memory a =
        if buffer ≤ a ∧ a < buffer + length.toNat then slave (a - buffer) else s.memory a) ∧
      t.stops = s.stops + 1 ∧ t.busy = false := by
  constructor
  · intro hlength
    obtain ⟨t, hrun, h⟩ := i2c1Send_ok hidle address buffer length hlength
    refine ⟨_, t, hrun, ?_, ?_, ?_⟩
    · rw [h.loads, sendBytes_take_all (by omega)]
      rfl
    · rw [h.stops, if_neg (lt_irrefl _)]
    · rw [h.busy, decide_eq_false (lt_irrefl _)]
  · obtain ⟨t, hrun, h⟩ := i2c1Receive_ok hidle slave address buffer length
    refine ⟨_, t, _, hrun, ?_, ?_, ?_⟩
    · intro a
      have hnum : min (length.toNat + 3 - 2) length.toNat = length.toNat := by omega
      rw [h.memory, hnum]
      rfl
    · rw [h.stops, if_neg (lt_irrefl _)]
    · rw [h.busy, decide_eq_false (lt_irrefl _)]

/-- Two bytes to the slave `0xA0`. -/
theorem transfers_two_bytes : ∃ fuel t,
    i2c1Send (State.initial true fun _ => 7) 0xA0 0 2 fuel = .ok (2, t, 4) ∧
      t.loads = [0xA0, 7, 7] ∧ t.stops = 1 ∧ t.busy = false := by
  have htransfers := transfers (s := State.initial true fun _ => 7) rfl 0xA0 0 2 fun _ => 0
  exact htransfers.1 (by decide)

/-! ### The byte too many -/

/-- The slave sends exactly as many bytes as the caller has asked for: one interrupt for each of them
comes after the ones for the start condition and the address. -/
def DropsNothing (slave : ℕ → UInt8) (s : State) (address : UInt8) (buffer : ℕ) (length : UInt32) :
    Prop :=
  ∃ fuel v t, i2c1Receive slave s address buffer length fuel = .ok (v, t, length.toNat + 2)

theorem receive_count {s t : State} (hidle : s.busy = false) {slave : ℕ → UInt8} {address : UInt8}
    {buffer fuel v n : ℕ} {length : UInt32}
    (h : i2c1Receive slave s address buffer length fuel = .ok (v, t, n)) :
    n = length.toNat + 3 := by
  obtain ⟨t', hrun', -⟩ := receive_wait s slave address buffer length
  rw [i2c1Receive_eq hidle] at h
  cases hrun : wait (receiveInterrupt slave) fuel (startReceive s address buffer length) with
  | error e => simp [hrun] at h
  | ok x =>
    rw [hrun, ok_bind, pure_eq_ok] at h
    have hx : x = (t, n) := (Prod.mk.inj (Except.ok.inj h)).2
    have hsame : x = (t', length.toNat + 3) := whileM_unique hrun hrun'
    exact (Prod.mk.inj (hx.symm.trans hsame)).2

/-- Whatever is received, the slave has to send one byte more, which is dropped. -/
theorem not_dropsNothing {s : State} (hidle : s.busy = false) (slave : ℕ → UInt8) (address : UInt8)
    (buffer : ℕ) (length : UInt32) : ¬ DropsNothing slave s address buffer length := by
  rintro ⟨fuel, v, t, h⟩
  have hcount := receive_count hidle h
  omega

theorem not_dropsNothing_two_bytes :
    ¬ DropsNothing (fun _ => 7) (State.initial true fun _ => 0) 0x50 0 2 :=
  not_dropsNothing rfl _ _ _ _

/-- For one byte the slave sends two. -/
theorem one_byte_too_many :
    ¬ DropsNothing (fun i => UInt8.ofNat i) (State.initial true fun _ => 0) 0x50 0 1 := by
  rintro ⟨fuel, v, t, h⟩
  exact absurd (receive_count rfl h) (by decide)

end CodingForFun.I2cDriver
