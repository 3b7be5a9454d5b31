import CodingForFun.ProducerConsumerCondv.Steps
import Mathlib.Data.Fintype.Fin

/-!
# Wake-ups in `producerconsumer_condv.c`

Every step of the program is a step of the books of each condition variable (`Move.books`), unless it is
the one that spoils them: a value inserted into a buffer that is not empty, without a signal, while a
consumer sleeps and those that have been woken do not suffice, or the same with the roles swapped. In a
run without such a step no wake-up is lost (`not_lostWakeup_of_allowed`); the threads of `main` can lose
them (`not_noLostWakeup_main`).
-/

namespace CodingForFun.ProducerConsumerCondv

open Lib

variable {Tid : Type}

/-! ## The books of the condition variables -/

section books

variable [Fintype Tid]

/-- The thread will still test the condition that `c` stands for, or is about to signal `c`. -/
def isDue (P : Program Tid) (c : Cond) (t : Tid) : Status Cond → Pc → Bool
  | .woken c', _ => decide (c' = c)
  | .running, .test => decide ((P.code t).waits = c)
  | .running, .act => decide ((P.code t).waits = c)
  | .running, .signal => decide ((P.code t).signals = c)
  | _, _ => false

abbrev account (P : Program Tid) (c : Cond) (s : State Tid) : Account :=
  Account.count (isDue P c) c s.monitor.status (fun t => (s.threads t).pc) (avail c s.buffer)

/-- What holds throughout an allowed run. -/
def Inv (P : Program Tid) (s : State Tid) : Prop := Safe P s ∧ ∀ c, (account P c s).Backed

theorem inv_init (P : Program Tid) : Inv P (init Tid) :=
  ⟨safe_init P, fun c => Account.backed_of_awake _ c _ fun _ => nofun⟩

theorem Safe.due_eq_zero {P : Program Tid} {s : State Tid} (h : Safe P s)
    (hstopped : ∀ t, (s.threads t).pc = .done ∨ ∃ c, s.monitor.status t = .asleep c) (c : Cond) :
    (account P c s).due = 0 := by
  apply tally_eq_zero
  intro t hdue
  have ht := h t
  simp only at hdue
  rcases hstopped t with hdone | ⟨c', hasleep⟩
  · rw [hdone] at hdue ht
    cases hstatus : s.monitor.status t with
    | running => simp [hstatus, isDue] at hdue
    | asleep c' => simp [hstatus, isDue] at hdue
    | woken c' =>
      rw [hstatus] at ht
      exact Pc.noConfusion ht.2
  · simp [hasleep, isDue] at hdue

theorem Inv.not_lostWakeup {P : Program Tid} {s : State Tid} (h : Inv P s) : ¬ LostWakeup P s := by
  have hnothing : ∀ c t, (∀ t, (s.threads t).pc = .done ∨ ∃ c, s.monitor.status t = .asleep c) →
      s.monitor.status t = .asleep c → avail c s.buffer = 0 := by
    intro c t hstopped ht
    have hle : avail c s.buffer ≤ (account P c s).due := h.2 c (tally_pos.mpr ⟨t, ht⟩)
    rw [h.1.due_eq_zero hstopped c] at hle
    exact Nat.le_zero.mp hle
  rintro ⟨hstopped, ⟨t, -, ht, hpos⟩ | ⟨t, -, ht, hlt⟩⟩
  · have hzero := hnothing _ t hstopped ht
    simp only [avail] at hzero
    omega
  · have hzero := hnothing _ t hstopped ht
    simp only [avail] at hzero
    omega

variable [DecidableEq Tid]

/-- The step does not add to the buffer, or take from it, without a signal while somebody sleeps and
those that have been woken do not suffice. -/
def Allowed (P : Program Tid) (s : State Tid) (a : Action Tid) : Prop :=
  s.monitor.status a.tid = .running → (s.threads a.tid).pc = .act →
    (P.code a.tid).notifies s.buffer = false →
      (tally fun u => s.monitor.status u = .asleep (P.code a.tid).signals) = 0 ∨
        avail (P.code a.tid).signals s.buffer <
          tally fun u => s.monitor.status u = .woken (P.code a.tid).signals

instance (P : Program Tid) (s : State Tid) (a : Action Tid) : Decidable (Allowed P s a) :=
  inferInstanceAs (Decidable (_ → _ → _ → _ ∨ _ < _))

theorem books_act {P : Program Tid} {s : State Tid} (hsafe : Safe P s) {a : Action Tid}
    (hallowed : Allowed P s a) (hrun : s.monitor.status a.tid = .running)
    (hpc : (s.threads a.tid).pc = .act) (v : Int) {l : Local}
    (hp : l.pc = if (P.code a.tid).notifies s.buffer then .signal else .unlock) (c : Cond) :
    Account.Step (account P c s) (account P c
      ⟨s.monitor, ((P.code a.tid).body v s.buffer).2, Function.update s.threads a.tid l⟩) := by
  have hex := P.exchanges a.tid
  have hpos : 0 < avail (P.code a.tid).waits s.buffer := (hsafe.inside hrun hpc rfl).2
  obtain ⟨ha, hd⟩ := Account.count_move (isDue P c) c (avail c s.buffer)
    (avail c ((P.code a.tid).body v s.buffer).2) Local.pc l s.monitor (fun _ _ => rfl) hrun hpc hrun hp
  by_cases hc : (P.code a.tid).waits = c
  · subst hc
    have hv := hex.takes v s.buffer hpos
    cases hn : (P.code a.tid).notifies s.buffer with
    | true =>
      simp [isDue, hn, hex.waits_ne.symm] at ha hd
      exact .take ha hd hv
    | false =>
      simp [isDue, hn] at ha hd
      exact .take ha hd hv
  · obtain rfl := eq_of_ne_of_two (by decide) hex.waits_ne hc
    have hv := hex.puts v s.buffer hpos
    cases hn : (P.code a.tid).notifies s.buffer with
    | true =>
      simp [isDue, hn, hc] at ha hd
      exact .put ha hd hv
    | false =>
      have hwoken : (tally fun u => s.monitor.status u = .woken (P.code a.tid).signals) ≤
          (account P (P.code a.tid).signals s).due :=
        tally_le fun u hu => by simp [hu, isDue]
      simp [isDue, hn, hc] at ha hd
      apply Account.Step.putQuietly ha hd hv
      rcases hallowed hrun hpc hn with hnobody | henough
      · exact .inl hnobody
      · exact .inr (lt_of_lt_of_le henough hwoken)

theorem Move.books {P : Program Tid} {s : State Tid} (hsafe : Safe P s) {a : Action Tid}
    (hallowed : Allowed P s a) {m : Monitor Tid Cond} {b : Buffer} {l : Local}
    (hmove : Move P s a.tid m b l.pc) (c : Cond) :
    Account.Step (account P c s) (account P c ⟨m, b, Function.update s.threads a.tid l⟩) := by
  have hex := P.exchanges a.tid
  have ht := hsafe a.tid
  generalize hp : l.pc = p at hmove
  cases hmove with
  | round hrun hpc p hp' =>
    obtain ⟨ha, hd⟩ := Account.count_move (isDue P c) c (avail c s.buffer) (avail c s.buffer) Local.pc l
      s.monitor (fun _ _ => rfl) hrun hpc hrun hp
    rcases hp' with rfl | rfl
    · simp [isDue] at ha hd
      exact .stay ha hd rfl
    · simp [isDue] at ha hd
      exact .stay ha hd rfl
  | lock hrun hpc hfree =>
    obtain ⟨ha, hd⟩ := Account.count_move (isDue P c) c (avail c s.buffer) (avail c s.buffer) Local.pc l
      ⟨some a.tid, s.monitor.status⟩ (fun _ _ => rfl) hrun hpc hrun hp
    by_cases hc : (P.code a.tid).waits = c
    · simp [isDue, hc] at ha hd
      exact .arrive ha hd rfl
    · simp [isDue, hc] at ha hd
      exact .stay ha hd rfl
  | block hrun hpc h =>
    obtain ⟨ha, hd⟩ := Account.count_move (isDue P c) c (avail c s.buffer) (avail c s.buffer) Local.pc l
      s.monitor (fun _ _ => rfl) hrun hpc hrun hp
    by_cases hc : (P.code a.tid).waits = c
    · have hnone : avail c s.buffer = 0 := hc ▸ (hex.blocked_iff _).mp h
      simp [isDue, hc] at ha hd
      exact .giveUp ha hd hnone hnone
    · simp [isDue, hc] at ha hd
      exact .stay ha hd rfl
  | pass hrun hpc h =>
    obtain ⟨ha, hd⟩ := Account.count_move (isDue P c) c (avail c s.buffer) (avail c s.buffer) Local.pc l
      s.monitor (fun _ _ => rfl) hrun hpc hrun hp
    simp [isDue] at ha hd
    exact .stay ha hd rfl
  | sleep hrun hpc =>
    obtain ⟨ha, hd⟩ := Account.count_move (isDue P c) c (avail c s.buffer) (avail c s.buffer) Local.pc l
      (s.monitor.wait a.tid (P.code a.tid).waits) (fun u hu => Function.update_of_ne hu _ _)
      hrun hpc (Function.update_self _ _ _) hp
    by_cases hc : (P.code a.tid).waits = c
    · subst hc
      have hnone : avail (P.code a.tid).waits s.buffer = 0 := (hsafe.inside hrun hpc rfl).2
      simp [isDue] at ha hd
      exact .sleep ha hd hnone hnone
    · simp [isDue, hc] at ha hd
      exact .stay ha hd rfl
  | act hrun hpc v => exact books_act hsafe hallowed hrun hpc v hp c
  | wake hrun hpc w hw =>
    refine Account.step_wake (isDue P c) c _ Local.pc l hrun hw rfl rfl ?_ ?_
    · rw [hpc]
      rfl
    · rw [hp]
      rfl
  | wakeNobody hrun hpc h =>
    obtain ⟨ha, hd⟩ := Account.count_move (isDue P c) c (avail c s.buffer) (avail c s.buffer) Local.pc l
      s.monitor (fun _ _ => rfl) hrun hpc hrun hp
    by_cases hc : (P.code a.tid).signals = c
    · have hzero : (account P c s).asleep = 0 := tally_eq_zero fun u hu => h u (by rw [hu, hc])
      simp [isDue, hc] at ha hd
      exact .signalNobody (ha.trans hzero) hd rfl
    · simp [isDue, hc] at ha hd
      exact .stay ha hd rfl
  | unlock hrun hpc =>
    obtain ⟨ha, hd⟩ := Account.count_move (isDue P c) c (avail c s.buffer) (avail c s.buffer) Local.pc l
      s.monitor.unlock (fun _ _ => rfl) hrun hpc hrun hp
    simp [isDue] at ha hd
    exact .stay ha hd rfl
  | resume c' hwoken hfree =>
    rw [hwoken] at ht
    obtain ⟨ha, hd⟩ := Account.count_move (isDue P c) c (avail c s.buffer) (avail c s.buffer) Local.pc l
      ⟨some a.tid, Function.update s.monitor.status a.tid .running⟩ (fun u hu => Function.update_of_ne hu _ _)
      hwoken ht.2 (Function.update_self _ _ _) (hp.trans ht.2)
    simp [isDue, ht.1] at ha hd
    exact .stay ha hd rfl

theorem Inv.step {P : Program Tid} {s s' : State Tid} {a : Action Tid} (h : Inv P s)
    (hallowed : Allowed P s a) (hstep : ProducerConsumerCondv.step P s a = some s') : Inv P s' := by
  obtain ⟨m, b, l, rfl, hmove⟩ := step_cases hstep
  exact ⟨h.1.step hmove, fun c => (hmove.books h.1 hallowed c).backed (h.2 c)⟩

/-- **No wake-up is lost in a run in which nobody adds to the buffer, or takes from it, without a
signal while somebody sleeps and those that have been woken do not suffice.** -/
theorem not_lostWakeup_of_allowed (P : Program Tid) {s : State Tid}
    (h : Reaches (ProducerConsumerCondv.step P) (Allowed P) (init Tid) s) : ¬ LostWakeup P s := by
  have hinv : Inv P s := h.invariant (inv_init P) fun _ _ _ hs hok hstep => hs.step hok hstep
  exact hinv.not_lostWakeup

end books

/-! ## The threads of `main` -/

/-- Steps of one thread. -/
def steps (t : Fin numbThreads) (n : ℕ) : List (Action (Fin numbThreads)) :=
  List.replicate n ⟨t, 0, none⟩

/-- The first producer inserts its values and wakes the first consumer, then the other producers insert
theirs. -/
def produceAll : List (Action (Fin numbThreads)) :=
  steps 0 4 ++ [⟨0, 0, some 1⟩] ++ steps 0 7 ++ steps 2 11 ++ steps 4 11 ++ steps 6 11 ++ steps 8 11

/-- When one consumer sleeps at first, all threads can finish. -/
theorem not_lostWakeup_of_allowed_main :
    ∃ s, Reaches (step main) (Allowed main) (init _) s ∧ (∀ t, (s.threads t).pc = .done) ∧
      ¬ LostWakeup main s := by
  have hrun : ((steps 1 4 ++ produceAll ++ steps 1 11 ++ steps 3 11 ++ steps 5 11 ++ steps 7 11 ++
      steps 9 11).foldlM (fun s a => if Allowed main s a then step main s a else none)
        (init _)).any (fun s => decide (∀ t, (s.threads t).pc = .done)) = true := by
    decide +kernel
  obtain ⟨s, hs, hdone⟩ := (Option.any_eq_true _ _).mp hrun
  have hreach := Reaches.of_foldlM _ hs
  exact ⟨s, hreach, of_decide_eq_true hdone, not_lostWakeup_of_allowed main hreach⟩

/-- When all consumers sleep at first, the one that is woken can be the only one that finishes. -/
theorem not_noLostWakeup_main : ¬ NoLostWakeup main := by
  have hrun : ((steps 1 4 ++ steps 3 4 ++ steps 5 4 ++ steps 7 4 ++ steps 9 4 ++ produceAll ++
      steps 1 11).foldlM (fun s a => if True then step main s a else none) (init _)).any
        (fun s => decide (LostWakeup main s)) = true := by
    decide +kernel
  obtain ⟨s, hs, hlost⟩ := (Option.any_eq_true _ _).mp hrun
  have hreach : Reaches (step main) (fun _ _ => True) (init _) s := Reaches.of_foldlM _ hs
  intro h
  exact h s hreach (of_decide_eq_true hlost)

end CodingForFun.ProducerConsumerCondv
