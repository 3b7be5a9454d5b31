import CodingForFun.ProducerConsumerCondv.Basic

/-!
# What the threads of `producerconsumer_condv.c` can do

`Move` says once what a step can do, and every step keeps `Safe`: threads between lock and unlock hold
the mutex, and what a thread has found by its test is still so when it acts on it (`Safe.step`). Of the
two thread functions only `Code.Exchanges` is used: each takes one of what it waits for and makes one
of what the other one waits for.
-/

namespace CodingForFun.ProducerConsumerCondv

open Lib

/-! ## The two thread functions -/

/-- What a thread that sleeps on the condition variable waits for. -/
def avail : Cond → Buffer → ℕ
  | .full_cond, b => SIZE - b.buffer_index
  | .empty_cond, b => b.buffer_index

/-- A thread function takes one of what it waits for and makes one of what the other one waits for. -/
structure Code.Exchanges (code : Code) : Prop where
  blocked_iff : ∀ b, code.blocked b = true ↔ avail code.waits b = 0
  notifies_iff : ∀ b, code.notifies b = true ↔ avail code.signals b = 0
  waits_ne : code.waits ≠ code.signals
  takes : ∀ v b, 0 < avail code.waits b → avail code.waits (code.body v b).2 + 1 = avail code.waits b
  puts : ∀ v b, 0 < avail code.waits b →
    avail code.signals (code.body v b).2 = avail code.signals b + 1

theorem producer_exchanges (n : ℕ) : (producer n).Exchanges where
  blocked_iff b := by
    have := b.le_size
    simp only [producer, isfull, avail, decide_eq_true_eq]
    omega
  notifies_iff b := by simp only [producer, isempty, avail, decide_eq_true_eq]
  waits_ne := by simp [producer]
  takes v b h := by
    simp only [producer, avail] at h ⊢
    rw [insertbuffer, dif_pos (by omega)]
    simp only
    omega
  puts v b h := by
    simp only [producer, avail] at h ⊢
    rw [insertbuffer, dif_pos (by omega)]

theorem consumer_exchanges (n : ℕ) : (consumer n).Exchanges where
  blocked_iff b := by simp only [consumer, isempty, avail, decide_eq_true_eq]
  notifies_iff b := by
    have := b.le_size
    simp only [consumer, isfull, avail, decide_eq_true_eq]
    omega
  waits_ne := by simp [consumer]
  takes v b h := by
    simp only [consumer, avail] at h ⊢
    simp only [dequeuebuffer, dif_pos h]
    omega
  puts v b h := by
    have := b.le_size
    simp only [consumer, avail] at h ⊢
    simp only [dequeuebuffer, dif_pos h]
    omega

variable {Tid : Type}

theorem Program.exchanges (P : Program Tid) (t : Tid) : (P.code t).Exchanges := by
  unfold code
  cases P.role t with
  | producer => exact producer_exchanges _
  | consumer => exact consumer_exchanges _

/-! ## What a step can do -/

section move

variable [DecidableEq Tid]

/-- What a step of thread `t` makes of the monitor and the buffer, and where it leaves the thread. -/
inductive Move (P : Program Tid) (s : State Tid) (t : Tid) : Monitor Tid Cond → Buffer → Pc → Prop
  | round (hrun : s.monitor.status t = .running) (hpc : (s.threads t).pc = .loop) (p : Pc)
      (hp : p = .lock ∨ p = .done) : Move P s t s.monitor s.buffer p
  | lock (hrun : s.monitor.status t = .running) (hpc : (s.threads t).pc = .lock)
      (hfree : s.monitor.owner = none) : Move P s t ⟨some t, s.monitor.status⟩ s.buffer .test
  | block (hrun : s.monitor.status t = .running) (hpc : (s.threads t).pc = .test)
      (h : (P.code t).blocked s.buffer = true) : Move P s t s.monitor s.buffer .wait
  | pass (hrun : s.monitor.status t = .running) (hpc : (s.threads t).pc = .test)
      (h : (P.code t).blocked s.buffer = false) : Move P s t s.monitor s.buffer .act
  | sleep (hrun : s.monitor.status t = .running) (hpc : (s.threads t).pc = .wait) :
      Move P s t (s.monitor.wait t (P.code t).waits) s.buffer .test
  | act (hrun : s.monitor.status t = .running) (hpc : (s.threads t).pc = .act) (v : Int) :
      Move P s t s.monitor ((P.code t).body v s.buffer).2
        (if (P.code t).notifies s.buffer then .signal else .unlock)
  | wake (hrun : s.monitor.status t = .running) (hpc : (s.threads t).pc = .signal) (u : Tid)
      (hu : s.monitor.status u = .asleep (P.code t).signals) :
      Move P s t ⟨s.monitor.owner, Function.update s.monitor.status u (.woken (P.code t).signals)⟩
        s.buffer .unlock
  | wakeNobody (hrun : s.monitor.status t = .running) (hpc : (s.threads t).pc = .signal)
      (h : ∀ u, s.monitor.status u ≠ .asleep (P.code t).signals) :
      Move P s t s.monitor s.buffer .unlock
  | unlock (hrun : s.monitor.status t = .running) (hpc : (s.threads t).pc = .unlock) :
      Move P s t s.monitor.unlock s.buffer .loop
  | resume (c : Cond) (hwoken : s.monitor.status t = .woken c) (hfree : s.monitor.owner = none) :
      Move P s t ⟨some t, Function.update s.monitor.status t .running⟩ s.buffer (s.threads t).pc

theorem step_cases [Fintype Tid] {P : Program Tid} {s s' : State Tid} {a : Action Tid}
    (h : step P s a = some s') : ∃ m b l, s' = ⟨m, b, Function.update s.threads a.tid l⟩ ∧
      Move P s a.tid m b l.pc := by
  unfold step at h
  cases hrun : s.monitor.status a.tid with
  | asleep c => simp [hrun, Monitor.resume] at h
  | woken c =>
    cases hfree : s.monitor.owner with
    | some u => simp [hrun, Monitor.resume, hfree] at h
    | none =>
      simp only [hrun, Monitor.resume, hfree, Option.map_some, Option.some.injEq] at h
      subst h
      refine ⟨_, _, s.threads a.tid, ?_, .resume c hrun hfree⟩
      rw [Function.update_eq_self]
  | running =>
    simp only [hrun] at h
    unfold stepThread at h
    cases hpc : (s.threads a.tid).pc with
    | loop =>
      simp only [hpc, loopTest, Option.some.injEq] at h
      subst h
      by_cases hi : (s.threads a.tid).i < (P.code a.tid).loops
      · rw [if_pos hi]
        exact ⟨_, _, _, rfl, .round hrun hpc _ (.inl rfl)⟩
      · rw [if_neg hi]
        exact ⟨_, _, _, rfl, .round hrun hpc _ (.inr rfl)⟩
    | lock =>
      simp only [hpc, Option.map_eq_some_iff] at h
      obtain ⟨m, hlock, rfl⟩ := h
      obtain ⟨hfree, rfl⟩ := Monitor.lock_eq_some hlock
      exact ⟨_, _, _, rfl, .lock hrun hpc hfree⟩
    | test =>
      simp only [hpc] at h
      obtain rfl := Option.some.inj h
      cases hblocked : (P.code a.tid).blocked s.buffer with
      | true => exact ⟨_, _, _, rfl, .block hrun hpc hblocked⟩
      | false => exact ⟨_, _, _, rfl, .pass hrun hpc hblocked⟩
    | wait =>
      simp only [hpc] at h
      obtain rfl := Option.some.inj h
      exact ⟨_, _, _, rfl, .sleep hrun hpc⟩
    | act =>
      simp only [hpc] at h
      obtain rfl := Option.some.inj h
      exact ⟨_, _, _, rfl, .act hrun hpc _⟩
    | signal =>
      simp only [hpc, Option.map_eq_some_iff] at h
      obtain ⟨m, hsignal, rfl⟩ := h
      obtain ⟨u, hu, rfl⟩ | ⟨hnobody, rfl⟩ := Monitor.signal_eq_some hsignal
      · exact ⟨_, _, _, rfl, .wake hrun hpc u hu⟩
      · exact ⟨_, _, _, rfl, .wakeNobody hrun hpc hnobody⟩
    | unlock =>
      simp only [hpc] at h
      obtain rfl := Option.some.inj h
      exact ⟨_, _, _, rfl, .unlock hrun hpc⟩
    | done =>
      simp only [hpc] at h
      exact absurd h (Option.some_ne_none _).symm

/-! ## What every step keeps -/

/-- The places between lock and unlock -/
def Pc.inside : Pc → Bool
  | .test | .wait | .act | .signal | .unlock => true
  | _ => false

/-- What a thread has found by its test. -/
def Found (code : Code) (b : Buffer) : Pc → Prop
  | .wait => avail code.waits b = 0
  | .act => 0 < avail code.waits b
  | _ => True

/-- Mutual exclusion, and what the threads know. -/
def Safe (P : Program Tid) (s : State Tid) : Prop :=
  ∀ t, ThreadOk Pc.inside (Found (P.code t) s.buffer) (P.code t).waits .test (s.monitor.owner = some t)
    (s.monitor.status t) (s.threads t).pc

omit [DecidableEq Tid] in
theorem safe_init (P : Program Tid) : Safe P (init Tid) := fun _ => nofun

section safe

variable {P : Program Tid} {s : State Tid} {t : Tid} {m : Monitor Tid Cond} {b : Buffer} {p : Pc}

omit [DecidableEq Tid] in
theorem Safe.inside (hsafe : Safe P s) (hrun : s.monitor.status t = .running) (hpc : (s.threads t).pc = p)
    (hin : p.inside = true) : s.monitor.owner = some t ∧ Found (P.code t) s.buffer p := by
  have ht := hsafe t
  rw [hrun, hpc] at ht
  exact ht hin

theorem Move.self (hmove : Move P s t m b p) (hsafe : Safe P s) :
    ThreadOk Pc.inside (Found (P.code t) b) (P.code t).waits .test (m.owner = some t) (m.status t) p := by
  have hex := P.exchanges t
  cases hmove with
  | round hrun hpc p hp =>
    rw [hrun]
    rcases hp with rfl | rfl
    · exact nofun
    · exact nofun
  | lock hrun hpc hfree =>
    rw [hrun]
    exact fun _ => ⟨rfl, trivial⟩
  | block hrun hpc h =>
    rw [hrun]
    exact fun _ => ⟨(hsafe.inside hrun hpc rfl).1, (hex.blocked_iff _).mp h⟩
  | pass hrun hpc h =>
    rw [hrun]
    refine fun _ => ⟨(hsafe.inside hrun hpc rfl).1, Nat.pos_of_ne_zero fun hzero => ?_⟩
    rw [(hex.blocked_iff _).mpr hzero] at h
    exact Bool.noConfusion h
  | sleep hrun hpc =>
    simp only [Monitor.wait, Function.update_self]
    exact ⟨rfl, rfl⟩
  | act hrun hpc v =>
    rw [hrun]
    have hown := (hsafe.inside hrun hpc rfl).1
    cases (P.code t).notifies s.buffer with
    | true => exact fun _ => ⟨hown, trivial⟩
    | false => exact fun _ => ⟨hown, trivial⟩
  | wake hrun hpc w hw =>
    have hne : t ≠ w := by
      rintro rfl
      simp [hrun] at hw
    simp only [Function.update_of_ne hne, hrun]
    exact fun _ => ⟨(hsafe.inside hrun hpc rfl).1, trivial⟩
  | wakeNobody hrun hpc h =>
    rw [hrun]
    exact fun _ => ⟨(hsafe.inside hrun hpc rfl).1, trivial⟩
  | unlock hrun hpc =>
    rw [Monitor.unlock, hrun]
    exact nofun
  | resume c hwoken hfree =>
    have ht := hsafe t
    rw [hwoken] at ht
    simp only [Function.update_self, ht.2]
    exact fun _ => ⟨trivial, trivial⟩

theorem Move.turn (hmove : Move P s t m b p) (hsafe : Safe P s) :
    Monitor.Turn s.monitor t m ∧ (b = s.buffer ∨ s.monitor.owner = some t) := by
  cases hmove with
  | round => exact ⟨.stay, .inl rfl⟩
  | lock hrun hpc hfree => exact ⟨.lock hfree, .inl rfl⟩
  | block => exact ⟨.stay, .inl rfl⟩
  | pass => exact ⟨.stay, .inl rfl⟩
  | sleep hrun hpc => exact ⟨.wait (hsafe.inside hrun hpc rfl).1 _, .inl rfl⟩
  | act hrun hpc v => exact ⟨.stay, .inr (hsafe.inside hrun hpc rfl).1⟩
  | wake hrun hpc w hw => exact ⟨.wake hw, .inl rfl⟩
  | wakeNobody => exact ⟨.stay, .inl rfl⟩
  | unlock hrun hpc => exact ⟨.unlock (hsafe.inside hrun hpc rfl).1, .inl rfl⟩
  | resume c hwoken hfree => exact ⟨.resume hfree, .inl rfl⟩

theorem Safe.step (hsafe : Safe P s) {l : Local} (hmove : Move P s t m b l.pc) :
    Safe P ⟨m, b, Function.update s.threads t l⟩ := by
  obtain ⟨hturn, hbuffer⟩ := hmove.turn hsafe
  have hknows : (fun u => Found (P.code u) b) = (fun u => Found (P.code u) s.buffer) ∨ s.monitor.owner = some t :=
    hbuffer.imp_left fun hb => by rw [hb]
  exact ThreadOk.step Local.pc hsafe hturn hknows (hmove.self hsafe)

end safe

end move

end CodingForFun.ProducerConsumerCondv
