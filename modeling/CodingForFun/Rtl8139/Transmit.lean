import CodingForFun.Lib.Cells
import CodingForFun.Lib.Threads
import Mathlib.Data.Nat.Bitwise

/-!
# The transmit ring of the RTL8139 driver

`netdev_start_xmit` and the transmit part of `interrupt_method` in
`src/kernel/rtl8139_pciethernet.c`, as steps that interleave with what the device does: the handler
takes one step for each test of its `while` loop. What `rtl8139.h` defines is left open (`Header`),
but for the four descriptors that the comments count.

Packets are numbered in the order in which they are handed over. `cur_tx` counts them modulo `2 ^ 32`
while `dirty_tx` stays below 4, so the test that stops the queue fails on a full ring, and a packet is
copied over one in flight as soon as the network layer is faster than the device
(`no_overwrite_iff`).
-/

namespace CodingForFun.Rtl8139

open Lib

/-- The number of transmit descriptors. -/
def numTxDesc : ℕ := 4

/-- What the driver takes from `rtl8139.h`. A length that is written to a descriptor sets none of the
status bits. -/
structure Header where
  txBufSize : ℕ
  ethMinLen : ℕ
  txStatOK : ℕ
  txAborted : ℕ
  txUnderrun : ℕ
  txOK : ℕ
  txErr : ℕ
  intMask : ℕ
  length_clear : ∀ len ≤ txBufSize,
    max len ethMinLen &&& (txStatOK ||| txAborted ||| txUnderrun) = 0

theorem length_clear_dataSheet : ∀ len ≤ 1536,
    max len 60 &&& (0x8000 ||| 0x40000000 ||| 0x4000) = 0 := by decide +kernel

/-- The values of the chip's data sheet, and buffers for one frame each. -/
def Header.dataSheet : Header where
  txBufSize := 1536
  ethMinLen := 60
  txStatOK := 0x8000
  txAborted := 0x40000000
  txUnderrun := 0x4000
  txOK := 0x4
  txErr := 0x8
  intMask := 0xe07f
  length_clear := length_clear_dataSheet

/-- The driver's variables and the device, with the history of the packets. -/
structure State where
  curTx : ℕ
  dirtyTx : ℕ
  /-- the network queue is stopped -/
  stopped : Bool
  txPackets : ℕ
  txErrors : ℕ
  txBytes : ℕ
  txDropped : ℕ
  /-- the status registers of the descriptors -/
  tsd : ℕ → ℕ
  /-- the packet in each transmit buffer -/
  txBuf : ℕ → Option ℕ
  /-- the handler is in its transmit loop -/
  serving : Bool
  /-- history: the packets handed over, the ones completed by the device, how many these are, and the
  packets that the handler has counted -/
  sent : ℕ
  completed : ℕ → Bool
  finished : ℕ
  acked : List (Option ℕ)

/-- After `netdev_open`. -/
def opened (tsd : ℕ → ℕ) : State where
  curTx := 0
  dirtyTx := 0
  stopped := false
  txPackets := 0
  txErrors := 0
  txBytes := 0
  txDropped := 0
  tsd := tsd
  txBuf := fun _ => none
  serving := false
  sent := 0
  completed := fun _ => false
  finished := 0
  acked := []

variable (h : Header)

/-- The bits that say that a packet is done with, successfully or not. -/
def Header.done : ℕ := h.txStatOK ||| h.txAborted ||| h.txUnderrun

/-- `netdev_start_xmit` of a packet of length `len`. -/
def netdevStartXmit (s : State) (len : ℕ) : State :=
  let entry := s.curTx % numTxDesc
  -- discard oversized packet
  if len > h.txBufSize then
    { s with txDropped := s.txDropped + 1 }
  else
    let curTx := (s.curTx + 1) % 2 ^ 32
    { s with
      txBuf := Function.update s.txBuf entry (some s.sent)
      tsd := Function.update s.tsd entry (max len h.ethMinLen)
      curTx := curTx
      -- stop network layer if out of free descriptors
      stopped := decide (curTx = s.dirtyTx) || s.stopped
      sent := s.sent + 1 }

/-- `dirty_tx != cur_tx || netif_queue_stopped(net_dev)`, unless the loop has been left. -/
def txGoesOn (s : State) : Bool := s.serving && (decide (s.dirtyTx ≠ s.curTx) || s.stopped)

/-- The body of the transmit loop. -/
def txRound (s : State) : State :=
  let txstatus := s.tsd s.dirtyTx
  if txstatus &&& h.done = 0 then
    -- packet hasn't been transmitted yet
    { s with serving := false }
  else
    let dirtyTx := (s.dirtyTx + 1) % 2 ^ 32 % numTxDesc
    { s with
      txBytes := if txstatus &&& h.txStatOK ≠ 0 then s.txBytes + (txstatus &&& 0x1fff) else s.txBytes
      txPackets := if txstatus &&& h.txStatOK ≠ 0 then s.txPackets + 1 else s.txPackets
      txErrors := if txstatus &&& h.txStatOK ≠ 0 then s.txErrors else s.txErrors + 1
      dirtyTx := dirtyTx
      -- restart network layer if all descriptors serviced
      stopped := s.stopped && !(decide (dirtyTx = s.curTx) && s.stopped)
      acked := s.acked ++ [s.txBuf s.dirtyTx] }

/-- An interrupt with the status `isr` reaches the transmit loop. -/
def Header.servesTx (isr : ℕ) : Bool :=
  decide (isr &&& h.intMask ≠ 0) && decide (isr ≠ 0xffff) &&
    (decide (isr &&& h.txOK ≠ 0) || decide (isr &&& h.txErr ≠ 0))

inductive Action
  /-- the network layer hands over a packet -/
  | xmit (len : ℕ)
  /-- the device is done with the packet of a descriptor and writes its status -/
  | complete (desc : ℕ) (status : ℕ)
  /-- `interrupt_method` is entered -/
  | interrupt (isr : ℕ)
  /-- one test of the condition of the transmit loop, and the round it allows -/
  | round

/-- One step. The network layer hands over packets only while the queue is not stopped, and the
device completes packets that are in a buffer and have not been completed. -/
def step (s : State) : Action → Option State
  | .xmit len => if s.stopped then none else some (netdevStartXmit h s len)
  | .complete desc status =>
    match s.txBuf desc with
    | none => none
    | some n =>
      if s.completed n || decide (status &&& h.done = 0) || decide (numTxDesc ≤ desc) then none
      else
        some { s with
          tsd := Function.update s.tsd desc status
          completed := Function.update s.completed n true
          finished := s.finished + 1 }
  | .interrupt isr => if s.serving then none else some { s with serving := h.servesTx isr }
  | .round =>
    if s.serving then
      if txGoesOn s then some (txRound h s) else some { s with serving := false }
    else none

/-- A device that completes the packets in the order in which they were handed over. -/
def inOrder (s : State) : Action → Bool
  | .complete desc _ =>
    match s.txBuf desc with
    | none => true
    | some n => (List.range n).all s.completed
  | _ => true

/-- The steps with a device that completes the packets in order. -/
def stepInOrder (s : State) (a : Action) : Option State :=
  if inOrder s a then step h s a else none

/-- The step copies a packet over one that the device has not completed. -/
def Overwrites (s : State) : Action → Prop
  | .xmit len => len ≤ h.txBufSize ∧
      ∃ n, s.txBuf (s.curTx % numTxDesc) = some n ∧ s.completed n = false
  | _ => False

/-- A packet is handed over only while fewer than four are neither dropped nor completed. -/
def Room (s : State) : Action → Prop
  | .xmit len => len ≤ h.txBufSize → s.sent < s.finished + numTxDesc
  | _ => True

/-- The transmit buffers hold the last packets handed over. -/
structure Placed (s : State) : Prop where
  cur : s.curTx = s.sent % 2 ^ 32
  txBuf : ∀ d < numTxDesc, ∀ n, s.txBuf d = some n ↔
    n < s.sent ∧ s.sent ≤ n + numTxDesc ∧ n % numTxDesc = d

section placed

variable {h} {s s' : State} {tsd : ℕ → ℕ}

theorem placed_opened (tsd : ℕ → ℕ) : Placed (opened tsd) where
  cur := rfl
  txBuf := by
    intro d _ n
    simp [opened]

theorem Placed.entry (hs : Placed s) : s.curTx % numTxDesc = s.sent % numTxDesc := by
  rw [hs.cur]
  unfold numTxDesc
  omega

theorem xmit_eq {len : ℕ} (hlen : len ≤ h.txBufSize) :
    netdevStartXmit h s len = { s with
      txBuf := Function.update s.txBuf (s.curTx % numTxDesc) (some s.sent)
      tsd := Function.update s.tsd (s.curTx % numTxDesc) (max len h.ethMinLen)
      curTx := (s.curTx + 1) % 2 ^ 32
      stopped := decide ((s.curTx + 1) % 2 ^ 32 = s.dirtyTx) || s.stopped
      sent := s.sent + 1 } := if_neg (not_lt.mpr hlen)

theorem xmit_oversized {len : ℕ} (hlen : len > h.txBufSize) :
    netdevStartXmit h s len = { s with txDropped := s.txDropped + 1 } := if_pos hlen

theorem Placed.xmit (hs : Placed s) (len : ℕ) : Placed (netdevStartXmit h s len) := by
  by_cases hlen : len ≤ h.txBufSize
  · rw [xmit_eq hlen]
    constructor
    · show (s.curTx + 1) % 2 ^ 32 = (s.sent + 1) % 2 ^ 32
      rw [hs.cur]
      omega
    · intro d hd n
      show Function.update s.txBuf (s.curTx % numTxDesc) (some s.sent) d = some n ↔
        n < s.sent + 1 ∧ s.sent + 1 ≤ n + numTxDesc ∧ n % numTxDesc = d
      rw [hs.entry]
      have hold := hs.txBuf d hd n
      unfold numTxDesc at *
      by_cases hentry : d = s.sent % 4
      · rw [hentry, Function.update_self, Option.some.injEq]
        omega
      · rw [Function.update_of_ne hentry, hold]
        omega
  · rw [xmit_oversized (not_le.mp hlen)]
    exact ⟨hs.cur, hs.txBuf⟩

theorem step_complete {d status : ℕ} (h' : step h s (.complete d status) = some s') :
    ∃ n, s.txBuf d = some n ∧ d < numTxDesc ∧ s.completed n = false ∧ status &&& h.done ≠ 0 ∧
      s' = { s with
        tsd := Function.update s.tsd d status
        completed := Function.update s.completed n true
        finished := s.finished + 1 } := by
  simp only [step] at h'
  cases hbuf : s.txBuf d with
  | none => simp [hbuf] at h'
  | some n =>
    rw [hbuf] at h'
    simp only [Option.ite_none_left_eq_some, Bool.or_eq_true, not_or, Bool.not_eq_true,
      decide_eq_true_eq, not_le, Option.some.injEq] at h'
    obtain ⟨⟨⟨hcompleted, hstatus⟩, hd⟩, rfl⟩ := h'
    exact ⟨n, rfl, hd, hcompleted, hstatus, rfl⟩

theorem step_round (h' : step h s .round = some s') :
    s.serving = true ∧ ((txGoesOn s = true ∧ s' = txRound h s) ∨
      (txGoesOn s = false ∧ s' = { s with serving := false })) := by
  simp only [step] at h'
  cases hserving : s.serving with
  | false => simp [hserving] at h'
  | true =>
    rw [hserving, if_pos rfl] at h'
    refine ⟨rfl, ?_⟩
    cases hgoes : txGoesOn s with
    | true => exact .inl ⟨rfl, by simpa [hgoes] using h'.symm⟩
    | false => exact .inr ⟨rfl, by simpa [hgoes] using h'.symm⟩

theorem step_interrupt {isr : ℕ} (h' : step h s (.interrupt isr) = some s') :
    s.serving = false ∧ s' = { s with serving := h.servesTx isr } := by
  simp only [step] at h'
  cases hserving : s.serving with
  | true => simp [hserving] at h'
  | false => simpa [hserving] using h'.symm

theorem step_xmit {len : ℕ} (h' : step h s (.xmit len) = some s') :
    s.stopped = false ∧ s' = netdevStartXmit h s len := by
  simp only [step] at h'
  cases hstopped : s.stopped with
  | true => simp [hstopped] at h'
  | false => simpa [hstopped] using h'.symm

theorem txRound_pending (hstatus : s.tsd s.dirtyTx &&& h.done = 0) :
    txRound h s = { s with serving := false } := if_pos hstatus

theorem txRound_done (hstatus : s.tsd s.dirtyTx &&& h.done ≠ 0) :
    (txRound h s).dirtyTx = (s.dirtyTx + 1) % 2 ^ 32 % numTxDesc ∧
    (txRound h s).stopped = (s.stopped && !decide ((txRound h s).dirtyTx = s.curTx)) ∧
    (txRound h s).txPackets + (txRound h s).txErrors = s.txPackets + s.txErrors + 1 ∧
    (txRound h s).serving = s.serving ∧ (txRound h s).acked = s.acked ++ [s.txBuf s.dirtyTx] := by
  have hround : txRound h s = _ := if_neg hstatus
  rw [hround]
  refine ⟨rfl, ?_, ?_, rfl, rfl⟩
  · cases s.stopped <;> simp
  · show (if s.tsd s.dirtyTx &&& h.txStatOK ≠ 0 then s.txPackets + 1 else s.txPackets) +
      (if s.tsd s.dirtyTx &&& h.txStatOK ≠ 0 then s.txErrors else s.txErrors + 1) = _
    split <;> omega

theorem txRound_frame : (txRound h s).curTx = s.curTx ∧ (txRound h s).txBuf = s.txBuf ∧
    (txRound h s).sent = s.sent ∧ (txRound h s).completed = s.completed ∧
    (txRound h s).finished = s.finished ∧ (txRound h s).tsd = s.tsd := by
  by_cases hstatus : s.tsd s.dirtyTx &&& h.done = 0
  · rw [txRound_pending hstatus]
    exact ⟨rfl, rfl, rfl, rfl, rfl, rfl⟩
  · have hround : txRound h s = _ := if_neg hstatus
    rw [hround]
    exact ⟨rfl, rfl, rfl, rfl, rfl, rfl⟩

theorem Placed.txRound (hs : Placed s) : Placed (txRound h s) := by
  obtain ⟨hcur, hbuf, hsent, -⟩ := txRound_frame (h := h) (s := s)
  constructor
  · rw [hcur, hsent, hs.cur]
  · rw [hbuf, hsent]
    exact hs.txBuf

theorem Placed.step (hs : Placed s) {a : Action} (h' : step h s a = some s') : Placed s' := by
  cases a with
  | xmit len =>
    obtain ⟨-, rfl⟩ := step_xmit h'
    exact hs.xmit len
  | complete d status =>
    obtain ⟨n, -, -, -, -, rfl⟩ := step_complete h'
    exact ⟨hs.cur, hs.txBuf⟩
  | interrupt isr =>
    obtain ⟨-, rfl⟩ := step_interrupt h'
    exact ⟨hs.cur, hs.txBuf⟩
  | round =>
    obtain ⟨-, ⟨-, rfl⟩ | ⟨-, rfl⟩⟩ := step_round h'
    · exact hs.txRound
    · exact ⟨hs.cur, hs.txBuf⟩

end placed

/-! ### Packets in flight -/

/-- The completed packets are the first ones. -/
structure Ordered (s : State) : Prop extends Placed s where
  finished_le : s.finished ≤ s.sent
  completed : ∀ n, s.completed n = true ↔ n < s.finished

section ordered

variable {h} {s s' : State}

theorem ordered_opened (tsd : ℕ → ℕ) : Ordered (opened tsd) where
  toPlaced := placed_opened tsd
  finished_le := le_rfl
  completed := by simp [opened]

theorem Ordered.step (hs : Ordered s) {a : Action} (ha : inOrder s a = true)
    (h' : step h s a = some s') : Ordered s' := by
  have hplaced := hs.toPlaced.step h'
  cases a with
  | xmit len =>
    obtain ⟨-, rfl⟩ := step_xmit h'
    by_cases hlen : len ≤ h.txBufSize
    · rw [xmit_eq hlen] at hplaced ⊢
      exact ⟨hplaced, Nat.le_succ_of_le hs.finished_le, hs.completed⟩
    · rw [xmit_oversized (not_le.mp hlen)] at hplaced ⊢
      exact ⟨hplaced, hs.finished_le, hs.completed⟩
  | complete d status =>
    obtain ⟨n, hbuf, hd, hnew, -, rfl⟩ := step_complete h'
    have hsent := ((hs.txBuf d hd n).mp hbuf).1
    have hearlier : ∀ m < n, s.completed m = true := by simpa [inOrder, hbuf] using ha
    -- The packet is the first one that has not been completed.
    have hn : n = s.finished := by
      have hge : ¬ n < s.finished := by
        intro hlt
        rw [(hs.completed n).mpr hlt] at hnew
        exact Bool.noConfusion hnew
      have hle : ¬ s.finished < n := by
        intro hlt
        exact absurd ((hs.completed _).mp (hearlier _ hlt)) (lt_irrefl _)
      omega
    refine ⟨hplaced, ?_, ?_⟩
    · show s.finished + 1 ≤ s.sent
      omega
    · intro m
      show Function.update s.completed n true m = true ↔ m < s.finished + 1
      by_cases hm : m = n
      · rw [hm, Function.update_self, hn]
        simp
      · rw [Function.update_of_ne hm, hs.completed]
        omega
  | interrupt isr =>
    obtain ⟨-, rfl⟩ := step_interrupt h'
    exact ⟨hplaced, hs.finished_le, hs.completed⟩
  | round =>
    obtain ⟨-, ⟨-, rfl⟩ | ⟨-, rfl⟩⟩ := step_round h'
    · obtain ⟨-, -, hsent, hcompleted, hfinished, -⟩ := txRound_frame (h := h) (s := s)
      refine ⟨hplaced, ?_, ?_⟩
      · rw [hsent, hfinished]
        exact hs.finished_le
      · rw [hcompleted, hfinished]
        exact hs.completed
    · exact ⟨hplaced, hs.finished_le, hs.completed⟩

/-- The buffer of the next packet holds one in flight exactly when four packets are. -/
theorem Ordered.overwrites_iff (hs : Ordered s) (a : Action) : ¬ Overwrites h s a ↔ Room h s a := by
  cases a with
  | xmit len =>
    have hentry : s.curTx % numTxDesc < numTxDesc := Nat.mod_lt _ (by decide)
    have hbuf := hs.txBuf _ hentry
    have hdone := hs.completed
    rw [hs.entry] at hbuf
    unfold Overwrites Room
    rw [hs.entry, not_and]
    apply imp_congr_right
    intro _
    constructor
    · intro hnone
      by_contra hfull
      have hold : s.txBuf (s.sent % numTxDesc) = some (s.sent - numTxDesc) := by
        rw [hbuf]
        unfold numTxDesc at *
        omega
      refine hnone ⟨_, hold, ?_⟩
      rw [← Bool.not_eq_true, hdone]
      unfold numTxDesc at *
      omega
    · rintro hroom ⟨n, hn, hnew⟩
      rw [hbuf] at hn
      rw [← Bool.not_eq_true, hdone] at hnew
      unfold numTxDesc at *
      omega
  | complete d status => simp [Overwrites, Room]
  | interrupt isr => simp [Overwrites, Room]
  | round => simp [Overwrites, Room]

end ordered

/-- A run copies no packet over one in flight exactly when every packet that is not oversized is
handed over with room for it. -/
theorem no_overwrite_iff (tsd : ℕ → ℕ) (as : List Action) :
    Along (stepInOrder h) (fun s a => ¬ Overwrites h s a) (opened tsd) as ↔
      Along (stepInOrder h) (Room h) (opened tsd) as := by
  refine @Along.iff _ _ _ _ _ Ordered ?_ ?_ as _ (ordered_opened tsd)
  · intro s a s' hs _ h'
    unfold stepInOrder at h'
    split at h'
    · next ha => exact hs.step ha h'
    · exact absurd h' (by simp)
  · intro s a s' hs _
    exact hs.overwrites_iff a

/-- Five packets before the device is done with the first one. -/
theorem fifth_packet_overwrites :
    ¬ Along (stepInOrder .dataSheet) (fun s a => ¬ Overwrites .dataSheet s a)
      (opened fun _ => 0x2000) (List.replicate 4 (.xmit 60) ++ [.xmit 60]) := by
  intro hall
  have hfour : (List.replicate 4 (Action.xmit 60)).foldlM (stepInOrder .dataSheet)
    (opened fun _ => 0x2000) = some _ := rfl
  exact hall.at hfour rfl ⟨by decide, 0, rfl, rfl⟩

end CodingForFun.Rtl8139
