import CodingForFun.ProducerConsumerCondv2.Basic

/-!
# What the threads of `producerconsumer_condv2.c` can do

`Move` says once what a step can do, and every step keeps `Safe`: `index1` stays in the array, threads
between lock and unlock hold the mutex, and what a thread has found by its test is still so when it acts
on it, so no assertion fails.
-/

namespace CodingForFun.ProducerConsumerCondv2

open Lib ProducerConsumerBuffer

/-! ## The two thread functions -/

/-- `index1` is a position of the array or its end. -/
def InRange (b : Buffer) : Prop := 0 ≤ b.index1 ∧ b.index1 ≤ SIZE

/-- A thread function takes one of what it waits for and makes one of what the other one waits for. -/
structure Code.Exchanges (code : Code) : Prop where
  blocked_iff : ∀ b, InRange b → (code.blocked b = true ↔ avail code.waits b = 0)
  waits_ne : code.waits ≠ code.signals
  body : ∀ i v b, InRange b → 0 < avail code.waits b →
    ∃ v' b', code.body i v b = some (v', b') ∧ InRange b' ∧
      avail code.waits b' + 1 = avail code.waits b ∧ avail code.signals b' = avail code.signals b + 1

theorem producer_exchanges : producer.Exchanges where
  blocked_iff b hb := by
    obtain ⟨hpos, hle⟩ := hb
    simp only [producer, isfull, avail, decide_eq_true_eq]
    omega
  waits_ne := by simp [producer]
  body i v b hb h := by
    obtain ⟨hpos, hle⟩ := hb
    simp only [producer, avail] at h
    refine ⟨v, _, by simp only [producer, queue_of_le hle]; rfl, ⟨?_, ?_⟩, ?_, ?_⟩
    · show 0 ≤ b.index1 + 1
      omega
    · show b.index1 + 1 ≤ SIZE
      omega
    · show (SIZE - (b.index1 + 1)).toNat + 1 = (SIZE - b.index1).toNat
      omega
    · show (b.index1 + 1).toNat = b.index1.toNat + 1
      omega

theorem consumer_exchanges : consumer.Exchanges where
  blocked_iff b hb := by
    obtain ⟨hpos, hle⟩ := hb
    simp only [consumer, isempty, avail, decide_eq_true_eq]
    omega
  waits_ne := by simp [consumer]
  body i v b hb h := by
    obtain ⟨hpos, hle⟩ := hb
    simp only [consumer, avail] at h
    refine ⟨_, _, rfl, ⟨?_, ?_⟩, ?_, ?_⟩
    · show 0 ≤ b.index1 - 1
      omega
    · show b.index1 - 1 ≤ SIZE
      omega
    · show (b.index1 - 1).toNat + 1 = b.index1.toNat
      omega
    · show (SIZE - (b.index1 - 1)).toNat = (SIZE - b.index1).toNat + 1
      omega

variable {Tid : Type}

theorem Program.exchanges (P : Program Tid) (t : Tid) : (P.code t).Exchanges := by
  unfold code
  cases P.role t with
  | producer => exact producer_exchanges
  | consumer => exact consumer_exchanges

/-! ## What a step can do -/

section move

variable [DecidableEq Tid]

/-- What a step of thread `t` makes of the monitor and the buffer, and where it leaves the thread. -/
inductive Move (P : Program Tid) (s : State Tid) (t : Tid) : Monitor Tid Cond → Buffer → Pc → Prop
  | round (hrun : s.monitor.status t = .running) (hpc : (s.threads t).pc = .loop) (p : Pc)
      (hp : p = .lock ∨ p = .done) : Move P s t s.monitor s.buffer p
  | lock (hrun : s.monitor.status t = .running) (hpc : (s.threads t).pc = .lock)
      (hfree : s.monitor.owner = none) : Move P s t ⟨some t, s.monitor.status⟩ s.buffer .test
  | block (hrun : s.monitor.status t = .running) (hpc : (s.threads t).pc = .test)
      (h : (P.code t).blocked s.buffer = true) : Move P s t s.monitor s.buffer .wait
  | pass (hrun : s.monitor.status t = .running) (hpc : (s.threads t).pc = .test)
      (h : (P.code t).blocked s.buffer = false) : Move P s t s.monitor s.buffer .act
  | sleep (hrun : s.monitor.status t = .running) (hpc : (s.threads t).pc = .wait) :
      Move P s t (s.monitor.wait t (P.code t).waits) s.buffer .test
  | act (hrun : s.monitor.status t = .running) (hpc : (s.threads t).pc = .act) (i v v' : Int)
      (b : Buffer) (h : (P.code t).body i v s.buffer = some (v', b)) :
      Move P s t s.monitor b .unlock
  | fail (hrun : s.monitor.status t = .running) (hpc : (s.threads t).pc = .act) (i v : Int)
      (h : (P.code t).body i v s.buffer = none) : Move P s t s.monitor s.buffer .abort
  | unlock (hrun : s.monitor.status t = .running) (hpc : (s.threads t).pc = .unlock) :
      Move P s t s.monitor.unlock s.buffer .signal
  | wake (hrun : s.monitor.status t = .running) (hpc : (s.threads t).pc = .signal) (u : Tid)
      (hu : s.monitor.status u = .asleep (P.code t).signals) :
      Move P s t ⟨s.monitor.owner, Function.update s.monitor.status u (.woken (P.code t).signals)⟩
        s.buffer .loop
  | wakeNobody (hrun : s.monitor.status t = .running) (hpc : (s.threads t).pc = .signal)
      (h : ∀ u, s.monitor.status u ≠ .asleep (P.code t).signals) :
      Move P s t s.monitor s.buffer .loop
  | spurious (c : Cond) (hasleep : s.monitor.status t = .asleep c) :
      Move P s t ⟨s.monitor.owner, Function.update s.monitor.status t (.woken c)⟩ s.buffer
        (s.threads t).pc
  | resume (c : Cond) (hwoken : s.monitor.status t = .woken c) (hfree : s.monitor.owner = none) :
      Move P s t ⟨some t, Function.update s.monitor.status t .running⟩ s.buffer (s.threads t).pc

theorem stepThread_cases [Fintype Tid] {P : Program Tid} {s s' : State Tid} {a : Action Tid}
    (hrun : s.monitor.status a.tid = .running) (h : stepThread P s a = some s') :
    ∃ m b l, s' = ⟨m, b, Function.update s.threads a.tid l⟩ ∧ Move P s a.tid m b l.pc := by
  unfold stepThread at h
  cases hpc : (s.threads a.tid).pc with
  | loop =>
    simp only [hpc, loopTest, Option.some.injEq] at h
    subst h
    refine ⟨_, _, _, rfl, .round hrun hpc _ ?_⟩
    by_cases hi : (s.threads a.tid).i < P.LOOPS a.tid
    · rw [if_pos hi]
      exact .inl rfl
    · rw [if_neg hi]
      exact .inr rfl
  | lock =>
    simp only [hpc, Option.map_eq_some_iff] at h
    obtain ⟨m, hlock, rfl⟩ := h
    obtain ⟨hfree, rfl⟩ := Monitor.lock_eq_some hlock
    exact ⟨_, _, _, rfl, .lock hrun hpc hfree⟩
  | test =>
    simp only [hpc] at h
    obtain rfl := Option.some.inj h
    cases hblocked : (P.code a.tid).blocked s.buffer with
    | true => exact ⟨_, _, _, rfl, .block hrun hpc hblocked⟩
    | false => exact ⟨_, _, _, rfl, .pass hrun hpc hblocked⟩
  | wait =>
    simp only [hpc] at h
    obtain rfl := Option.some.inj h
    exact ⟨_, _, _, rfl, .sleep hrun hpc⟩
  | act =>
    simp only [hpc, act] at h
    cases hbody : (P.code a.tid).body (s.threads a.tid).i (s.threads a.tid).v s.buffer with
    | some r =>
      rw [hbody] at h
      obtain rfl := Option.some.inj h
      exact ⟨_, _, _, rfl, .act hrun hpc _ _ _ _ hbody⟩
    | none =>
      rw [hbody] at h
      obtain rfl := Option.some.inj h
      exact ⟨_, _, _, rfl, .fail hrun hpc _ _ hbody⟩
  | unlock =>
    simp only [hpc] at h
    obtain rfl := Option.some.inj h
    exact ⟨_, _, _, rfl, .unlock hrun hpc⟩
  | signal =>
    simp only [hpc, Option.map_eq_some_iff] at h
    obtain ⟨m, hsignal, rfl⟩ := h
    obtain ⟨u, hu, rfl⟩ | ⟨hnobody, rfl⟩ := Monitor.signal_eq_some hsignal
    · exact ⟨_, _, _, rfl, .wake hrun hpc u hu⟩
    · exact ⟨_, _, _, rfl, .wakeNobody hrun hpc hnobody⟩
  | done | abort =>
    simp only [hpc] at h
    exact absurd h (Option.some_ne_none _).symm

theorem step_cases [Fintype Tid] {P : Program Tid} {s s' : State Tid} {a : Action Tid}
    (h : step P s a = some s') : ∃ m b l, s' = ⟨m, b, Function.update s.threads a.tid l⟩ ∧
      Move P s a.tid m b l.pc := by
  unfold step at h
  cases hstatus : s.monitor.status a.tid with
  | running =>
    simp only [hstatus] at h
    exact stepThread_cases hstatus h
  | asleep c =>
    simp only [hstatus, Monitor.spurious, Option.map_some, Option.some.injEq] at h
    subst h
    refine ⟨_, _, s.threads a.tid, ?_, .spurious c hstatus⟩
    rw [Function.update_eq_self]
  | woken c =>
    cases hfree : s.monitor.owner with
    | some u => simp [hstatus, Monitor.resume, hfree] at h
    | none =>
      simp only [hstatus, Monitor.resume, hfree, Option.map_some, Option.some.injEq] at h
      subst h
      refine ⟨_, _, s.threads a.tid, ?_, .resume c hstatus hfree⟩
      rw [Function.update_eq_self]

/-! ## What every step keeps -/

/-- The places between lock and unlock -/
def Pc.inside : Pc → Bool
  | .test | .wait | .act | .unlock | .abort => true
  | _ => false

/-- What a thread has found by its test; it never comes to a failed assertion. -/
def Found (code : Code) (b : Buffer) : Pc → Prop
  | .wait => avail code.waits b = 0
  | .act => 0 < avail code.waits b
  | .abort => False
  | _ => True

/-- `index1` in the array, mutual exclusion, and what the threads know. -/
structure Safe (P : Program Tid) (s : State Tid) : Prop where
  range : InRange s.buffer
  thread : ∀ t, ThreadOk Pc.inside (Found (P.code t) s.buffer) (P.code t).waits .test
    (s.monitor.owner = some t) (s.monitor.status t) (s.threads t).pc

omit [DecidableEq Tid] in
theorem safe_init (P : Program Tid) : Safe P (init Tid) :=
  ⟨⟨le_rfl, show (0 : Int) ≤ SIZE by decide⟩, fun _ => nofun⟩

section safe

variable {P : Program Tid} {s : State Tid} {t : Tid} {m : Monitor Tid Cond} {b : Buffer} {p : Pc}

omit [DecidableEq Tid] in
theorem Safe.inside (hsafe : Safe P s) (hrun : s.monitor.status t = .running) (hpc : (s.threads t).pc = p)
    (hin : p.inside = true) : s.monitor.owner = some t ∧ Found (P.code t) s.buffer p := by
  have ht := hsafe.thread t
  rw [hrun, hpc] at ht
  exact ht hin

omit [DecidableEq Tid] in
theorem Safe.body (hsafe : Safe P s) (hrun : s.monitor.status t = .running)
    (hpc : (s.threads t).pc = .act) (i v : Int) :
    ∃ v' b', (P.code t).body i v s.buffer = some (v', b') ∧ InRange b' ∧
      avail (P.code t).waits b' + 1 = avail (P.code t).waits s.buffer ∧
      avail (P.code t).signals b' = avail (P.code t).signals s.buffer + 1 :=
  (P.exchanges t).body i v s.buffer hsafe.range (hsafe.inside hrun hpc rfl).2

theorem Move.self (hmove : Move P s t m b p) (hsafe : Safe P s) :
    ThreadOk Pc.inside (Found (P.code t) b) (P.code t).waits .test (m.owner = some t) (m.status t) p := by
  have hex := P.exchanges t
  have ht := hsafe.thread t
  cases hmove with
  | round hrun hpc p hp =>
    rw [hrun]
    rcases hp with rfl | rfl
    · exact nofun
    · exact nofun
  | lock hrun hpc hfree =>
    rw [hrun]
    exact fun _ => ⟨rfl, trivial⟩
  | block hrun hpc h =>
    rw [hrun]
    exact fun _ => ⟨(hsafe.inside hrun hpc rfl).1, (hex.blocked_iff _ hsafe.range).mp h⟩
  | pass hrun hpc h =>
    rw [hrun]
    refine fun _ => ⟨(hsafe.inside hrun hpc rfl).1, Nat.pos_of_ne_zero fun hzero => ?_⟩
    rw [(hex.blocked_iff _ hsafe.range).mpr hzero] at h
    exact Bool.noConfusion h
  | sleep hrun hpc =>
    simp only [Monitor.wait, Function.update_self]
    exact ⟨rfl, rfl⟩
  | act hrun hpc i v v' b h =>
    rw [hrun]
    exact fun _ => ⟨(hsafe.inside hrun hpc rfl).1, trivial⟩
  | fail hrun hpc i v h =>
    obtain ⟨v', b', hbody, -⟩ := hsafe.body hrun hpc i v
    rw [h] at hbody
    exact absurd hbody (Option.some_ne_none _).symm
  | unlock hrun hpc =>
    rw [Monitor.unlock, hrun]
    exact nofun
  | wake hrun hpc w hw =>
    have hne : t ≠ w := by
      rintro rfl
      simp [hrun] at hw
    simp only [Function.update_of_ne hne, hrun]
    exact nofun
  | wakeNobody hrun hpc h =>
    rw [hrun]
    exact nofun
  | spurious c hasleep =>
    rw [hasleep] at ht
    simp only [Function.update_self]
    exact ht
  | resume c hwoken hfree =>
    rw [hwoken] at ht
    simp only [Function.update_self, ht.2]
    exact fun _ => ⟨trivial, trivial⟩

theorem Move.turn (hmove : Move P s t m b p) (hsafe : Safe P s) :
    Monitor.Turn s.monitor t m ∧ (b = s.buffer ∨ s.monitor.owner = some t) := by
  cases hmove with
  | round => exact ⟨.stay, .inl rfl⟩
  | lock hrun hpc hfree => exact ⟨.lock hfree, .inl rfl⟩
  | block => exact ⟨.stay, .inl rfl⟩
  | pass => exact ⟨.stay, .inl rfl⟩
  | sleep hrun hpc => exact ⟨.wait (hsafe.inside hrun hpc rfl).1 _, .inl rfl⟩
  | act hrun hpc => exact ⟨.stay, .inr (hsafe.inside hrun hpc rfl).1⟩
  | fail => exact ⟨.stay, .inl rfl⟩
  | unlock hrun hpc => exact ⟨.unlock (hsafe.inside hrun hpc rfl).1, .inl rfl⟩
  | wake hrun hpc w hw => exact ⟨.wake hw, .inl rfl⟩
  | wakeNobody => exact ⟨.stay, .inl rfl⟩
  | spurious c hasleep => exact ⟨.wake hasleep, .inl rfl⟩
  | resume c hwoken hfree => exact ⟨.resume hfree, .inl rfl⟩

theorem Move.range (hmove : Move P s t m b p) (hsafe : Safe P s) : InRange b := by
  cases hmove with
  | act hrun hpc i v v' b h =>
    obtain ⟨v'', b', hbody, hrange, -⟩ := hsafe.body hrun hpc i v
    rw [h] at hbody
    obtain ⟨-, rfl⟩ := Prod.mk.inj (Option.some.inj hbody)
    exact hrange
  | round | lock | block | pass | sleep | fail | unlock | wake | wakeNobody | spurious | resume =>
    exact hsafe.range

theorem Safe.step (hsafe : Safe P s) {l : Local} (hmove : Move P s t m b l.pc) :
    Safe P ⟨m, b, Function.update s.threads t l⟩ := by
  obtain ⟨hturn, hbuffer⟩ := hmove.turn hsafe
  have hknows : (fun u => Found (P.code u) b) = (fun u => Found (P.code u) s.buffer) ∨ s.monitor.owner = some t :=
    hbuffer.imp_left fun hb => by rw [hb]
  exact ⟨hmove.range hsafe, ThreadOk.step Local.pc hsafe.thread hturn hknows (hmove.self hsafe)⟩

end safe

end move

end CodingForFun.ProducerConsumerCondv2
