import CodingForFun.ProducerConsumerCondv2.Steps
import Mathlib.Data.Fintype.Fin

/-!
# Wake-ups in `producerconsumer_condv2.c`

Every step of the program keeps the books of both condition variables: as a thread signals after every
change, whatever is added while somebody sleeps is still owed a signal, or somebody is awake who will
take it (`Move.backed`). So no wake-up is lost (`reaches_noLostWakeup`), except that while a thread is
inside its critical section the one who will take or signal may be that thread
(`lostWakeup_inside_main`).
-/

namespace CodingForFun.ProducerConsumerCondv2

open Lib ProducerConsumerBuffer

variable {Tid : Type}

/-! ## The books of the condition variables -/

section books

variable [Fintype Tid]

/-- The thread will still test the condition that `c` stands for, or is about to signal `c`. -/
def isDue (P : Program Tid) (c : Cond) (t : Tid) : Status Cond → Pc → Bool
  | .woken c', _ => decide (c' = c)
  | .running, .test => decide ((P.code t).waits = c)
  | .running, .act => decide ((P.code t).waits = c)
  | .running, .unlock => decide ((P.code t).signals = c)
  | .running, .signal => decide ((P.code t).signals = c)
  | _, _ => false

abbrev account (P : Program Tid) (c : Cond) (s : State Tid) : Account :=
  Account.count (isDue P c) c s.monitor.status (fun t => (s.threads t).pc) (avail c s.buffer)

variable [DecidableEq Tid]

section moves

variable {P : Program Tid} {s : State Tid} {t : Tid} {l : Local}

theorem books_act (hsafe : Safe P s) (hrun : s.monitor.status t = .running)
    (hpc : (s.threads t).pc = .act) {i v v' : Int} {b : Buffer}
    (hbody : (P.code t).body i v s.buffer = some (v', b)) (hp : l.pc = .unlock) (c : Cond) :
    Account.Step (account P c s) (account P c ⟨s.monitor, b, Function.update s.threads t l⟩) := by
  have hex := P.exchanges t
  obtain ⟨ha, hd⟩ := Account.count_move (isDue P c) c (avail c s.buffer) (avail c b) Local.pc l
      s.monitor (fun _ _ => rfl) hrun hpc hrun hp
  obtain ⟨v'', b', hbody', -, htakes, hputs⟩ := hsafe.body hrun hpc i v
  rw [hbody] at hbody'
  obtain ⟨-, rfl⟩ := Prod.mk.inj (Option.some.inj hbody')
  by_cases hc : (P.code t).waits = c
  · subst hc
    simp [isDue, hex.waits_ne.symm] at ha hd
    exact .take ha hd htakes
  · obtain rfl := eq_of_ne_of_two (by decide) hex.waits_ne hc
    simp [isDue, hc] at ha hd
    exact .put ha hd hputs

theorem Move.backed (hsafe : Safe P s) {m : Monitor Tid Cond} {b : Buffer}
    (hmove : Move P s t m b l.pc) (c : Cond) (hx : (account P c s).Backed) :
    (account P c ⟨m, b, Function.update s.threads t l⟩).Backed := by
  have hex := P.exchanges t
  have ht := hsafe.thread t
  generalize hp : l.pc = p at hmove
  cases hmove with
  | round hrun hpc p hp' =>
    obtain ⟨ha, hd⟩ := Account.count_move (isDue P c) c (avail c s.buffer) (avail c s.buffer) Local.pc l
      s.monitor (fun _ _ => rfl) hrun hpc hrun hp
    rcases hp' with rfl | rfl
    · simp [isDue] at ha hd
      exact (Account.Step.stay ha hd rfl).backed hx
    · simp [isDue] at ha hd
      exact (Account.Step.stay ha hd rfl).backed hx
  | lock hrun hpc hfree =>
    obtain ⟨ha, hd⟩ := Account.count_move (isDue P c) c (avail c s.buffer) (avail c s.buffer) Local.pc l
      ⟨some t, s.monitor.status⟩ (fun _ _ => rfl) hrun hpc hrun hp
    by_cases hc : (P.code t).waits = c
    · simp [isDue, hc] at ha hd
      exact (Account.Step.arrive ha hd rfl).backed hx
    · simp [isDue, hc] at ha hd
      exact (Account.Step.stay ha hd rfl).backed hx
  | block hrun hpc h =>
    obtain ⟨ha, hd⟩ := Account.count_move (isDue P c) c (avail c s.buffer) (avail c s.buffer) Local.pc l
      s.monitor (fun _ _ => rfl) hrun hpc hrun hp
    by_cases hc : (P.code t).waits = c
    · have hnone : avail c s.buffer = 0 := hc ▸ (hex.blocked_iff _ hsafe.range).mp h
      simp [isDue, hc] at ha hd
      exact (Account.Step.giveUp ha hd hnone hnone).backed hx
    · simp [isDue, hc] at ha hd
      exact (Account.Step.stay ha hd rfl).backed hx
  | pass hrun hpc h =>
    obtain ⟨ha, hd⟩ := Account.count_move (isDue P c) c (avail c s.buffer) (avail c s.buffer) Local.pc l
      s.monitor (fun _ _ => rfl) hrun hpc hrun hp
    simp [isDue] at ha hd
    exact (Account.Step.stay ha hd rfl).backed hx
  | sleep hrun hpc =>
    obtain ⟨ha, hd⟩ := Account.count_move (isDue P c) c (avail c s.buffer) (avail c s.buffer) Local.pc l
      (s.monitor.wait t (P.code t).waits) (fun u hu => Function.update_of_ne hu _ _)
      hrun hpc (Function.update_self _ _ _) hp
    by_cases hc : (P.code t).waits = c
    · subst hc
      have hnone : avail (P.code t).waits s.buffer = 0 := (hsafe.inside hrun hpc rfl).2
      simp [isDue] at ha hd
      exact (Account.Step.sleep ha hd hnone hnone).backed hx
    · simp [isDue, hc] at ha hd
      exact (Account.Step.stay ha hd rfl).backed hx
  | act hrun hpc i v v' b h => exact (books_act hsafe hrun hpc h hp c).backed hx
  | fail hrun hpc i v h =>
    obtain ⟨v', b', hbody, -⟩ := hsafe.body hrun hpc i v
    rw [h] at hbody
    exact absurd hbody (Option.some_ne_none _).symm
  | unlock hrun hpc =>
    obtain ⟨ha, hd⟩ := Account.count_move (isDue P c) c (avail c s.buffer) (avail c s.buffer) Local.pc l
      s.monitor.unlock (fun _ _ => rfl) hrun
      hpc hrun hp
    simp [isDue] at ha hd
    exact (Account.Step.stay ha hd rfl).backed hx
  | wake hrun hpc w hw =>
    refine (Account.step_wake (isDue P c) c _ Local.pc l hrun hw rfl rfl ?_ ?_).backed hx
    · rw [hpc]
      rfl
    · rw [hp]
      rfl
  | wakeNobody hrun hpc h =>
    obtain ⟨ha, hd⟩ := Account.count_move (isDue P c) c (avail c s.buffer) (avail c s.buffer) Local.pc l
      s.monitor (fun _ _ => rfl) hrun hpc hrun hp
    by_cases hc : (P.code t).signals = c
    · have hzero : (account P c s).asleep = 0 := tally_eq_zero fun u hu => h u (by rw [hu, hc])
      simp [isDue, hc] at ha hd
      exact (Account.Step.signalNobody (ha.trans hzero) hd rfl).backed hx
    · simp [isDue, hc] at ha hd
      exact (Account.Step.stay ha hd rfl).backed hx
  | spurious c' hasleep =>
    rw [hasleep] at ht
    obtain ⟨ha, hd⟩ := Account.count_move (isDue P c) c (avail c s.buffer) (avail c s.buffer) Local.pc l
      ⟨s.monitor.owner, Function.update s.monitor.status t (.woken c')⟩ (fun u hu => Function.update_of_ne hu _ _)
      hasleep ht.2 (Function.update_self _ _ _) (hp.trans ht.2)
    by_cases hc : c' = c
    · subst hc
      simp [isDue] at ha hd
      exact hx.spurious ha hd rfl
    · simp [isDue, hc] at ha hd
      exact (Account.Step.stay ha hd rfl).backed hx
  | resume c' hwoken hfree =>
    rw [hwoken] at ht
    obtain ⟨ha, hd⟩ := Account.count_move (isDue P c) c (avail c s.buffer) (avail c s.buffer) Local.pc l
      ⟨some t, Function.update s.monitor.status t .running⟩ (fun u hu => Function.update_of_ne hu _ _)
      hwoken ht.2 (Function.update_self _ _ _) (hp.trans ht.2)
    simp [isDue, ht.1] at ha hd
    exact (Account.Step.stay ha hd rfl).backed hx

end moves

/-! ## Runs -/

/-- What holds throughout every run. -/
def Inv (P : Program Tid) (s : State Tid) : Prop := Safe P s ∧ ∀ c, (account P c s).Backed

omit [DecidableEq Tid] in
theorem inv_init (P : Program Tid) : Inv P (init Tid) :=
  ⟨safe_init P, fun c => Account.backed_of_awake _ c _ fun _ => nofun⟩

theorem Inv.step {P : Program Tid} {s s' : State Tid} {a : Action Tid} (h : Inv P s)
    (hstep : ProducerConsumerCondv2.step P s a = some s') : Inv P s' := by
  obtain ⟨m, b, l, rfl, hmove⟩ := step_cases hstep
  exact ⟨h.1.step hmove, fun c => hmove.backed h.1 c (h.2 c)⟩

section inv

variable {P : Program Tid} {s : State Tid}

omit [DecidableEq Tid] in
/-- When something is there that somebody sleeps for, somebody has been woken for it, is about to signal
it, or is inside its critical section. -/
theorem Inv.due {c : Cond} (h : Inv P s) (hasleep : ∃ t, s.monitor.status t = .asleep c)
    (hpos : 0 < avail c s.buffer) :
    (∃ t, s.monitor.status t = .woken c) ∨
      (∃ t, (P.code t).signals = c ∧ (s.threads t).pc = .signal) ∨ Inside P s c := by
  have hle : avail c s.buffer ≤ (account P c s).due := h.2 c (tally_pos.mpr hasleep)
  obtain ⟨t, hdue⟩ := tally_pos.mp (lt_of_lt_of_le hpos hle)
  cases hstatus : s.monitor.status t with
  | woken c' =>
    simp only [hstatus, isDue, decide_eq_true_eq] at hdue
    exact .inl ⟨t, by rw [hstatus, hdue]⟩
  | asleep c' => simp [hstatus, isDue] at hdue
  | running =>
    rw [hstatus] at hdue
    cases hpc : (s.threads t).pc with
    | test =>
      simp only [hpc, isDue, decide_eq_true_eq] at hdue
      exact .inr (.inr ⟨t, hstatus, .inl ⟨hdue, .inl hpc⟩⟩)
    | act =>
      simp only [hpc, isDue, decide_eq_true_eq] at hdue
      exact .inr (.inr ⟨t, hstatus, .inl ⟨hdue, .inr hpc⟩⟩)
    | unlock =>
      simp only [hpc, isDue, decide_eq_true_eq] at hdue
      exact .inr (.inr ⟨t, hstatus, .inr ⟨hdue, hpc⟩⟩)
    | signal =>
      simp only [hpc, isDue, decide_eq_true_eq] at hdue
      exact .inr (.inl ⟨t, hdue, hpc⟩)
    | loop | lock | wait | done | abort => simp [hpc, isDue] at hdue

omit [DecidableEq Tid] in
theorem Inv.inside_of_lostWakeup {c : Cond} (h : Inv P s) (hlost : LostWakeup P s c) :
    Inside P s c := by
  obtain ⟨hasleep, hpos, hwoken, hsignal⟩ := hlost
  obtain ⟨t, ht⟩ | ⟨t, hsignals, hpc⟩ | hinside := h.due hasleep hpos
  · exact absurd ht (hwoken t)
  · exact absurd hpc (hsignal t hsignals)
  · exact hinside

omit [DecidableEq Tid] [Fintype Tid] in
theorem Safe.owner_of_inside {c : Cond} (h : Safe P s) (hinside : Inside P s c) :
    s.monitor.owner ≠ none := by
  obtain ⟨t, hrun, ⟨-, hpc | hpc⟩ | ⟨-, hpc⟩⟩ := hinside
  · exact ne_of_eq_of_ne (h.inside hrun hpc rfl).1 (Option.some_ne_none t)
  · exact ne_of_eq_of_ne (h.inside hrun hpc rfl).1 (Option.some_ne_none t)
  · exact ne_of_eq_of_ne (h.inside hrun hpc rfl).1 (Option.some_ne_none t)

omit [DecidableEq Tid] in
theorem Inv.avail_of_stuck (h : Inv P s) (hstuck : Stuck s) {t : Tid} (ht : (s.threads t).pc ≠ .done) :
    avail (P.code t).waits s.buffer = 0 := by
  have hnotdone : ∀ {u}, (s.threads u).pc ≠ .done → ∃ c, s.monitor.status u = .asleep c :=
    fun {u} hu => (hstuck u).resolve_left hu
  obtain ⟨c, hasleep⟩ := hnotdone ht
  have hthread := h.1.thread t
  rw [hasleep] at hthread
  obtain ⟨rfl, -⟩ := hthread
  by_contra hne
  obtain ⟨u, hu⟩ | ⟨u, -, hpc⟩ | ⟨u, hrun, hpc⟩ := h.due ⟨t, hasleep⟩ (Nat.pos_of_ne_zero hne)
  · have hwoken := h.1.thread u
    rw [hu] at hwoken
    obtain ⟨c, hasleep'⟩ := hnotdone (u := u) (by rw [hwoken.2]; exact Pc.noConfusion)
    simp [hu] at hasleep'
  · obtain ⟨c, hasleep'⟩ := hnotdone (u := u) (by rw [hpc]; exact Pc.noConfusion)
    have hthread' := h.1.thread u
    rw [hasleep', hpc] at hthread'
    exact Pc.noConfusion hthread'.2
  · obtain ⟨c, hasleep'⟩ := hnotdone (u := u) (by
      rcases hpc with ⟨-, hpc | hpc⟩ | ⟨-, hpc⟩ <;> rw [hpc] <;> exact Pc.noConfusion)
    simp [hrun] at hasleep'

end inv

/-- **No wake-up is lost.** In every run `index1` stays between 0 and `SIZE`; nobody sleeps through
something that is there unless somebody has been woken for it, is about to signal it, or is inside the
critical section, and not at all in that way while the mutex is free; and when every thread has finished
or sleeps, those that sleep are consumers with an empty buffer, or producers with a full one. -/
theorem reaches_noLostWakeup (P : Program Tid) {s : State Tid}
    (hrun : Reaches (step P) (fun _ _ => True) (init Tid) s) :
    (0 ≤ s.buffer.index1 ∧ s.buffer.index1 ≤ SIZE) ∧
      (∀ c, LostWakeup P s c → Inside P s c) ∧
      (s.monitor.owner = none → ∀ c, ¬ LostWakeup P s c) ∧
      (Stuck s → (∀ t, (s.threads t).pc ≠ .done → P.role t = .consumer ∧ s.buffer.index1 = 0) ∨
        ∀ t, (s.threads t).pc ≠ .done → P.role t = .producer ∧ s.buffer.index1 = SIZE) := by
  have h : Inv P s := hrun.invariant (inv_init P) fun _ _ _ hs _ hstep => hs.step hstep
  obtain ⟨hpos, hle⟩ := h.1.range
  refine ⟨⟨hpos, hle⟩, fun c => h.inside_of_lostWakeup, ?_, ?_⟩
  · intro hfree c hlost
    exact h.1.owner_of_inside (h.inside_of_lostWakeup hlost) hfree
  · intro hstuck
    have hsleeper : ∀ t, (s.threads t).pc ≠ .done →
        P.role t = .consumer ∧ s.buffer.index1 = 0 ∨
          P.role t = .producer ∧ s.buffer.index1 = SIZE := by
      intro t ht
      have hnone := h.avail_of_stuck hstuck ht
      cases hrole : P.role t with
      | producer =>
        simp only [Program.code, hrole, producer, avail] at hnone
        exact .inr ⟨rfl, by omega⟩
      | consumer =>
        simp only [Program.code, hrole, consumer, avail] at hnone
        exact .inl ⟨rfl, by omega⟩
    by_cases hempty : s.buffer.index1 = 0
    · refine .inl fun t ht => (hsleeper t ht).resolve_right ?_
      rintro ⟨-, hfull⟩
      rw [hempty] at hfull
      exact absurd hfull (by decide)
    · refine .inr fun t ht => (hsleeper t ht).resolve_left ?_
      rintro ⟨-, hempty'⟩
      exact hempty hempty'

end books

/-! ## The threads of `main` -/

/-- Steps of one thread. -/
def steps (t : Fin THREADS) (n : ℕ) : List (Action (Fin THREADS)) :=
  List.replicate n ⟨t, none⟩

/-- A consumer sleeps, a producer fills in a value and wakes it. -/
theorem reaches_noLostWakeup_main :
    ∃ s, Reaches (step main) (fun _ _ => True) (init _) s ∧ s.buffer.index1 = 1 ∧
      s.monitor.status 1 = .woken .empty_cond ∧
      (s.monitor.owner = none → ∀ c, ¬ LostWakeup main s c) := by
  have hrun : ((steps 1 4 ++ steps 0 5 ++ [(⟨0, some 1⟩ : Action (Fin THREADS))]).foldlM
      (fun s a => if True then step main s a else none) (init _)).any
        (fun s => decide (s.buffer.index1 = 1 ∧ s.monitor.status 1 = .woken .empty_cond)) = true := by
    decide +kernel
  obtain ⟨s, hs, hstate⟩ := (Option.any_eq_true _ _).mp hrun
  have hreach := Reaches.of_foldlM _ hs
  obtain ⟨hindex, hwoken⟩ := of_decide_eq_true hstate
  exact ⟨s, hreach, hindex, hwoken, (reaches_noLostWakeup main hreach).2.2.1⟩

/-- A consumer sleeps, and a producer has queued a value and still holds the mutex: nobody has been
woken, and nobody is past its unlock. -/
theorem lostWakeup_inside_main :
    ∃ s, Reaches (step main) (fun _ _ => True) (init _) s ∧ LostWakeup main s .empty_cond := by
  have hrun : ((steps 1 4 ++ steps 0 4).foldlM
      (fun s a => if True then step main s a else none) (init _)).any
        (fun s => decide (LostWakeup main s .empty_cond)) = true := by
    decide +kernel
  obtain ⟨s, hs, hlost⟩ := (Option.any_eq_true _ _).mp hrun
  exact ⟨s, Reaches.of_foldlM _ hs, of_decide_eq_true hlost⟩

end CodingForFun.ProducerConsumerCondv2
