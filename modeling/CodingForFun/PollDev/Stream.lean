import CodingForFun.Lib.Ring
import CodingForFun.PollDev.Basic

/-!
# The device is a stream of bytes

Count the bytes accepted and returned since the last reset. `iw` and `ir` are these counts modulo `N`,
and `ih` is some earlier `returned + N - 1` modulo `N`: as reads only move `ir` forward, a stale `ih`
stops the writers too early, never too late (`Represents`). After a reset any `ih` is between the
empty stream's position and the full one's.
-/

namespace CodingForFun.PollDev

open Lib

/-- The ring holds the bytes accepted and not yet returned, `ih` is the slot of a position that the
writers have not passed and that the readers allow, and the returned bytes are the first ones
accepted. -/
structure Represents (s : Stream) : Prop where
  ring : RingHolds s.dev.rbuf N s.accepted s.returned.length
  ir : s.dev.ir = s.returned.length % N
  iw : s.dev.iw = s.accepted.length % N
  ih : ∃ h, s.accepted.length ≤ h ∧ h ≤ s.returned.length + (N - 1) ∧ s.dev.ih = h % N
  fifo : s.returned = s.accepted.take s.returned.length

variable {s : Stream}

theorem Represents.unread_lt (hr : Represents s) : s.accepted.length < s.returned.length + N := by
  obtain ⟨h, hle, hroom, -⟩ := hr.ih
  have hN : 0 < N := by decide
  omega

theorem Represents.isBufferEmpty_iff (hr : Represents s) :
    isBufferEmpty s.dev = true ↔ s.returned.length = s.accepted.length := by
  have hle := hr.ring.le
  have hlt := hr.unread_lt
  rw [isBufferEmpty, decide_eq_true_iff, hr.ir, hr.iw]
  constructor
  · intro hslot
    by_contra hne
    exact slot_ne (by omega) hlt hslot
  · intro heq
    rw [heq]

theorem isBufferFull_ih {d : Dev} {i : ℕ} (hir : d.ir = i % N) :
    (isBufferFull d).2 = { d with ih := (i + (N - 1)) % N } := by
  have hslot : (if (d.ir : Int) - 1 < 0 then (d.ir : Int) - 1 + N else (d.ir : Int) - 1).toNat =
      (i + (N - 1)) % N := by
    rw [hir]
    simp only [N]
    split <;> omega
  rw [isBufferFull, hslot]

theorem Represents.isBufferFull (hr : Represents s) : Represents s.isBufferFull.2 := by
  have hlt := hr.unread_lt
  obtain ⟨hring, hir, hiw, -, hfifo⟩ := hr
  show Represents { s with dev := (PollDev.isBufferFull s.dev).2 }
  rw [isBufferFull_ih hir]
  exact ⟨hring, hir, hiw, ⟨_, Nat.le_pred_of_lt hlt, le_rfl, rfl⟩, hfifo⟩

/-! ## The loops -/

/-- One round of the loop of `device_read`. -/
def Stream.takeByte (s : Stream) : Stream where
  dev := { s.dev with ir := if s.dev.ir + 1 = N then 0 else s.dev.ir + 1 }
  accepted := s.accepted
  returned := s.returned ++ [s.dev.rbuf s.dev.ir]

/-- One round of the loop of `device_write`. -/
def Stream.putByte (s : Stream) (byte : UInt8) : Stream where
  dev := { s.dev with
    rbuf := Function.update s.dev.rbuf s.dev.iw byte
    iw := if s.dev.iw + 1 = N then 0 else s.dev.iw + 1 }
  accepted := s.accepted ++ [byte]
  returned := s.returned

theorem Stream.copyToUser_zero : (s.copyToUser 0).2 = s := by
  simp [Stream.copyToUser, PollDev.copyToUser]

theorem Stream.copyToUser_succ (len : ℕ) :
    (s.copyToUser (len + 1)).2 =
      if s.dev.ir = s.dev.iw then s else (s.takeByte.copyToUser len).2 := by
  by_cases hempty : s.dev.ir = s.dev.iw
  · simp [Stream.copyToUser, PollDev.copyToUser, hempty]
  · simp [Stream.copyToUser, PollDev.copyToUser, Stream.takeByte, hempty]

theorem Stream.copyFromUser_nil : (s.copyFromUser []).2 = s := by
  simp [Stream.copyFromUser, PollDev.copyFromUser]

theorem Stream.copyFromUser_cons (byte : UInt8) (bytes : List UInt8) :
    (s.copyFromUser (byte :: bytes)).2 =
      if s.dev.iw = s.dev.ih then s else ((s.putByte byte).copyFromUser bytes).2 := by
  by_cases hfull : s.dev.iw = s.dev.ih
  · simp [Stream.copyFromUser, PollDev.copyFromUser, hfull]
  · simp [Stream.copyFromUser, PollDev.copyFromUser, Stream.putByte, hfull]

theorem Represents.takeByte (hr : Represents s) (hne : s.dev.ir ≠ s.dev.iw) :
    Represents s.takeByte := by
  have hle := hr.ring.le
  obtain ⟨hring, hir, hiw, ⟨h, hh, hroom, hih⟩, hfifo⟩ := hr
  have hlt : s.returned.length < s.accepted.length := by
    by_contra hge
    rw [hir, hiw] at hne
    exact hne (by rw [show s.returned.length = s.accepted.length by omega])
  obtain ⟨hbyte, hring'⟩ := hring.pop hlt
  have hlen : s.takeByte.returned.length = s.returned.length + 1 := by simp [Stream.takeByte]
  constructor
  · rw [hlen]
    exact hring'
  · rw [hlen, slot_succ _ _ (by decide), ← hir]
    rfl
  · exact hiw
  · rw [hlen]
    exact ⟨h, hh, by omega, hih⟩
  · rw [hlen]
    show s.returned ++ [s.dev.rbuf s.dev.ir] = s.accepted.take _
    rw [List.take_succ_eq_append_getElem hlt, ← hfifo, hir, hbyte]

theorem Represents.putByte (hr : Represents s) (hne : s.dev.iw ≠ s.dev.ih) (byte : UInt8) :
    Represents (s.putByte byte) := by
  have hN : N = 23 := rfl
  obtain ⟨hring, hir, hiw, ⟨h, hh, hroom, hih⟩, hfifo⟩ := hr
  have hlt : s.accepted.length < h := by
    by_contra hge
    rw [hiw, hih] at hne
    exact hne (by rw [show s.accepted.length = h by omega])
  have hlen : (s.putByte byte).accepted.length = s.accepted.length + 1 := by simp [Stream.putByte]
  constructor
  · show RingHolds (Function.update _ s.dev.iw byte) N (s.accepted ++ [byte]) s.returned.length
    rw [hiw]
    exact hring.push (by omega) byte
  · exact hir
  · rw [hlen, slot_succ _ _ (by decide), ← hiw]
    rfl
  · rw [hlen]
    exact ⟨h, hlt, hroom, hih⟩
  · show s.returned = (s.accepted ++ [byte]).take s.returned.length
    rw [List.take_append_of_le_length hring.le]
    exact hfifo

theorem Represents.copyToUser (len : ℕ) : ∀ {s}, Represents s → Represents (s.copyToUser len).2 := by
  induction len with
  | zero =>
    intro s hr
    rw [Stream.copyToUser_zero]
    exact hr
  | succ len ih =>
    intro s hr
    rw [Stream.copyToUser_succ]
    by_cases hempty : s.dev.ir = s.dev.iw
    · rw [if_pos hempty]
      exact hr
    · rw [if_neg hempty]
      exact ih (hr.takeByte hempty)

theorem Represents.copyFromUser (bytes : List UInt8) :
    ∀ {s}, Represents s → Represents (s.copyFromUser bytes).2 := by
  induction bytes with
  | nil =>
    intro s hr
    rw [Stream.copyFromUser_nil]
    exact hr
  | cons byte bytes ih =>
    intro s hr
    rw [Stream.copyFromUser_cons]
    by_cases hfull : s.dev.iw = s.dev.ih
    · rw [if_pos hfull]
      exact hr
    · rw [if_neg hfull]
      exact ih (hr.putByte hfull byte)

/-! ## The other operations -/

theorem Represents.deviceRelease (hr : Represents s) : Represents s.deviceRelease :=
  ⟨hr.ring, hr.ir, hr.iw, hr.ih, hr.fifo⟩

theorem Represents.deviceOpen (hr : Represents s) : Represents s.deviceOpen := by
  by_cases hreset : s.dev.useCount = 0
  · obtain ⟨h, -, -, hih⟩ := hr.ih
    have hlt : h % N < N := Nat.mod_lt _ (by decide)
    rw [Stream.deviceOpen, if_pos hreset, PollDev.deviceOpen, if_pos hreset]
    refine ⟨.nil _ _, rfl, rfl, ⟨h % N, Nat.zero_le _, ?_, ?_⟩, rfl⟩
    · show h % N ≤ 0 + (N - 1)
      omega
    · rw [Nat.mod_mod]
      exact hih
  · rw [Stream.deviceOpen, if_neg hreset, PollDev.deviceOpen, if_neg hreset]
    exact ⟨hr.ring, hr.ir, hr.iw, hr.ih, hr.fifo⟩

/-! ## Runs -/

variable {Pid : Type} [DecidableEq Pid]

/-- What a step does to the stream. -/
inductive StreamMove (s : Stream) : Stream → Prop
  | same : StreamMove s s
  | test : StreamMove s s.isBufferFull.2
  | read (len : ℕ) : StreamMove s (s.copyToUser len).2
  | write (bytes : List UInt8) : StreamMove s (s.copyFromUser bytes).2
  | opened : StreamMove s s.deviceOpen
  | released : StreamMove s s.deviceRelease

theorem Represents.move {s' : Stream} (hr : Represents s) (h : StreamMove s s') : Represents s' := by
  cases h with
  | same => exact hr
  | test => exact hr.isBufferFull
  | read len => exact hr.copyToUser len
  | write bytes => exact hr.copyFromUser bytes
  | opened => exact hr.deviceOpen
  | released => exact hr.deviceRelease

/-- The step is not the loop of a read. -/
def NoReadLoop (s : State Pid) (a : Action Pid) : Prop :=
  ∀ p nonblock len, a = .go p → s.pc p ≠ .copy (.deviceRead nonblock len)

omit [DecidableEq Pid] in
theorem NoReadLoop.of_pc {s : State Pid} {p : Pid} {pc : Pc} (hpc : s.pc p = pc)
    (h : ∀ nonblock len, pc ≠ .copy (.deviceRead nonblock len)) : NoReadLoop s (.go p) := by
  rintro q nonblock len ⟨⟩
  rw [hpc]
  exact h nonblock len

/-- What a step does: the loop of a read, a step without a result, or another call's return, which for
a read without `O_NONBLOCK` is that of a signal. -/
inductive Effect (s : State Pid) (a : Action Pid) (s' : State Pid) : Prop
  | readLoop (p : Pid) (nonblock : Bool) (len : ℕ) (ha : a = .go p)
      (hpc : s.pc p = .copy (.deviceRead nonblock len))
      (hs' : s' = (s.setStream (s.stream.copyToUser len).2).finish p (.deviceRead nonblock len)
        (.bytes (s.stream.copyToUser len).1))
  | quiet (hno : NoReadLoop s a) (hstream : StreamMove s.stream s'.stream)
      (hresults : s'.results = s.results)
  | returns (c : Call) (r : Result) (hno : NoReadLoop s a)
      (hstream : StreamMove s.stream s'.stream) (hresults : s'.results = s.results ++ [(c, r)])
      (hsignal : ∀ len, c = .deviceRead false len → r = .erestartsys)

theorem go_start_effect {s s' : State Pid} {p : Pid} {c : Call} (hpc : s.pc p = .start c)
    (h : go s p = some s') : Effect s (.go p) s' := by
  have hno : NoReadLoop s (.go p) := .of_pc hpc (fun _ _ => Pc.noConfusion)
  cases c with
  | deviceRead nonblock len =>
    simp only [go, hpc] at h
    split at h
    · rename_i hagain
      obtain rfl := Option.some.inj h
      refine .returns _ _ hno .same rfl ?_
      rintro len ⟨⟩
      simp at hagain
    · obtain rfl := Option.some.inj h
      exact .quiet hno .same rfl
  | deviceWrite nonblock bytes =>
    simp only [go, hpc] at h
    split at h
    · obtain rfl := Option.some.inj h
      exact .returns _ _ hno .test rfl (fun _ hc => Call.noConfusion hc)
    · obtain rfl := Option.some.inj h
      exact .quiet hno .test rfl
  | devicePoll =>
    simp only [go, hpc] at h
    obtain rfl := Option.some.inj h
    exact .quiet hno .same rfl
  | deviceOpen =>
    simp only [go, hpc] at h
    obtain rfl := Option.some.inj h
    exact .returns _ _ hno .opened rfl (fun _ hc => Call.noConfusion hc)
  | deviceRelease =>
    simp only [go, hpc] at h
    obtain rfl := Option.some.inj h
    exact .returns _ _ hno .released rfl (fun _ hc => Call.noConfusion hc)

theorem go_wait_effect {s s' : State Pid} {p : Pid} {c : Call} (hpc : s.pc p = .wait c)
    (h : go s p = some s') : Effect s (.go p) s' := by
  have hno : NoReadLoop s (.go p) := .of_pc hpc (fun _ _ => Pc.noConfusion)
  cases c with
  | deviceRead nonblock len =>
    simp only [go, hpc] at h
    split at h
    · obtain rfl := Option.some.inj h
      exact .quiet hno .same rfl
    · obtain rfl := Option.some.inj h
      exact .quiet hno .same rfl
  | deviceWrite nonblock bytes =>
    simp only [go, hpc] at h
    split at h
    · obtain rfl := Option.some.inj h
      exact .quiet hno .test rfl
    · obtain rfl := Option.some.inj h
      exact .quiet hno .test rfl
  | devicePoll | deviceOpen | deviceRelease => simp [go, hpc] at h

theorem go_copy_effect {s s' : State Pid} {p : Pid} {c : Call} (hpc : s.pc p = .copy c)
    (h : go s p = some s') : Effect s (.go p) s' := by
  cases c with
  | deviceRead nonblock len =>
    simp only [go, hpc] at h
    obtain rfl := Option.some.inj h
    exact .readLoop p nonblock len rfl hpc rfl
  | deviceWrite nonblock bytes =>
    simp only [go, hpc] at h
    obtain rfl := Option.some.inj h
    have hno : NoReadLoop s (.go p) := .of_pc hpc (fun _ _ => by simp)
    exact .returns _ _ hno (.write bytes) rfl (fun _ hc => Call.noConfusion hc)
  | devicePoll | deviceOpen | deviceRelease => simp [go, hpc] at h

theorem signal_effect {s s' : State Pid} {p : Pid} (h : signal s p = some s') :
    Effect s (.signal p) s' := by
  have hno : NoReadLoop s (.signal p) := by
    rintro q nonblock len ⟨⟩
  cases hpc : s.pc p with
  | wait c | copy c =>
    simp only [signal, hpc] at h
    obtain rfl := Option.some.inj h
    exact .returns _ _ hno .same rfl (fun _ _ => rfl)
  | idle | start c | pollFull pollin => simp [signal, hpc] at h

theorem step_effect {s s' : State Pid} {a : Action Pid} (h : step s a = some s') : Effect s a s' := by
  cases a with
  | call p c =>
    by_cases hidle : s.pc p = .idle
    · rw [step, if_pos hidle] at h
      obtain rfl := Option.some.inj h
      refine .quiet ?_ .same rfl
      rintro q nonblock len ⟨⟩
    · rw [step, if_neg hidle] at h
      exact absurd h (Option.some_ne_none s').symm
  | go p =>
    replace h : go s p = some s' := h
    cases hpc : s.pc p with
    | idle => simp [go, hpc] at h
    | start c => exact go_start_effect hpc h
    | wait c => exact go_wait_effect hpc h
    | copy c => exact go_copy_effect hpc h
    | pollFull pollin =>
      simp only [go, hpc] at h
      obtain rfl := Option.some.inj h
      have hno : NoReadLoop s (.go p) := .of_pc hpc (fun _ _ => Pc.noConfusion)
      exact .returns _ _ hno .test rfl (fun _ hc => Call.noConfusion hc)
  | signal p => exact signal_effect h

theorem Effect.streamMove {s s' : State Pid} {a : Action Pid} (h : Effect s a s') :
    StreamMove s.stream s'.stream := by
  cases h with
  | readLoop p nonblock len _ _ hs' =>
    subst hs'
    exact .read len
  | quiet _ hstream _ => exact hstream
  | returns _ _ _ hstream _ _ => exact hstream

omit [DecidableEq Pid] in
theorem initial_represents : Represents (initial : State Pid).stream :=
  ⟨.nil _ _, rfl, rfl, ⟨0, le_rfl, Nat.zero_le _, rfl⟩, rfl⟩

/-- **The device is a FIFO byte stream.** In every run of any processes, the bytes returned by the
reads since the last reset are the first ones accepted by the writes since then, in their order, and
at most `N - 1 = 22` accepted bytes are unread. -/
theorem reaches_isStream {s : State Pid} (hrun : Reaches step (fun _ _ => True) initial s) :
    s.stream.returned <+: s.stream.accepted ∧
      s.stream.accepted.length - s.stream.returned.length ≤ 22 := by
  have hr : Represents s.stream := by
    refine @Reaches.invariant _ _ _ _ (fun s : State Pid => Represents s.stream) _ _ hrun
      initial_represents ?_
    intro s a s' hr _ hstep
    exact hr.move (step_effect hstep).streamMove
  constructor
  · rw [hr.fifo]
    exact List.take_prefix _ _
  · have hlt := hr.unread_lt
    simp only [N] at hlt
    omega

/-- Two bytes are written and one of them is read. -/
theorem reaches_isStream_oneByte :
    ∃ s : State (Fin 1), Reaches step (fun _ _ => True) initial s ∧
      s.stream.accepted = [7, 8] ∧ s.stream.returned = [7] ∧
      s.stream.returned <+: s.stream.accepted ∧
      s.stream.accepted.length - s.stream.returned.length ≤ 22 := by
  have hrun : ([Action.call 0 .deviceOpen, .go 0, .call 0 (.deviceWrite false [7, 8]), .go 0, .go 0,
      .go 0, .call 0 (.deviceRead false 1), .go 0, .go 0, .go 0].foldlM
      (fun s a => if True then step s a else none) (initial : State (Fin 1))).any
        (fun s : State (Fin 1) => decide (s.stream.accepted = [7, 8] ∧ s.stream.returned = [7])) =
          true := by
    decide +kernel
  obtain ⟨s, hs, hbytes⟩ := (Option.any_eq_true _ _).mp hrun
  have hreach := Reaches.of_foldlM _ hs
  obtain ⟨haccepted, hreturned⟩ := of_decide_eq_true hbytes
  exact ⟨s, hreach, haccepted, hreturned, reaches_isStream hreach⟩

end CodingForFun.PollDev
