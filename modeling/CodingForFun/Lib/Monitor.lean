import CodingForFun.Lib.Threads
import Mathlib.Data.Fintype.Pi

/-!
# A mutex and its condition variables

`Monitor` is what the threads share of one mutex and the condition variables that are waited on with
it: who holds the mutex, and who sleeps or has been woken and has yet to take the mutex again. A call
that has to wait has no result. What a thread relies on (`ThreadOk`) it finds again after a step of another one,
which has woken it at most and has not taken the mutex away (`ThreadOk.step`).

An `Account` keeps the books of one condition variable: how many threads sleep on it, how many others
will still test what the sleepers wait for or are about to signal, and how much of that there is.
When the books are `Backed`, nobody sleeps through something that is there for good, and every step
but one keeps them so (`Account.Step.backed`): adding something without a signal, while somebody sleeps
and the others do not suffice to take it. `Account.count` takes the books from the threads' statuses and
places, and `count_move` and `count_wake` are how they move with a thread; so a signal that wakes a sleeper
is a step of the books (`step_wake`).
-/

namespace CodingForFun.Lib

/-- What a thread is doing in the calls of the monitor. -/
inductive Status (C : Type)
  | running
  | asleep (c : C)
  | woken (c : C)
  deriving DecidableEq, Repr

structure Monitor (ι C : Type) where
  owner : Option ι
  status : ι → Status C

namespace Monitor

variable {ι C : Type} [DecidableEq ι] [DecidableEq C]

/-- Nobody holds the mutex. -/
def init : Monitor ι C := ⟨none, fun _ => .running⟩

/-- `pthread_mutex_lock` -/
def lock (m : Monitor ι C) (t : ι) : Option (Monitor ι C) :=
  if m.owner = none then some ⟨some t, m.status⟩ else none

/-- `pthread_mutex_unlock` -/
def unlock (m : Monitor ι C) : Monitor ι C := ⟨none, m.status⟩

/-- `pthread_cond_wait`, up to the sleep. -/
def wait (m : Monitor ι C) (t : ι) (c : C) : Monitor ι C :=
  ⟨none, Function.update m.status t (.asleep c)⟩

/-- `pthread_cond_wait`, from the wake-up on. -/
def resume (m : Monitor ι C) (t : ι) : Option (Monitor ι C) :=
  match m.status t, m.owner with
  | .woken _, none => some ⟨some t, Function.update m.status t .running⟩
  | _, _ => none

/-- A wake-up without a signal. -/
def spurious (m : Monitor ι C) (t : ι) : Option (Monitor ι C) :=
  match m.status t with
  | .asleep c => some ⟨m.owner, Function.update m.status t (.woken c)⟩
  | _ => none

/-- `pthread_cond_signal`, which wakes the given sleeper, or nobody when nobody sleeps. -/
def signal [Fintype ι] (m : Monitor ι C) (c : C) : Option ι → Option (Monitor ι C)
  | some u => if m.status u = .asleep c then some ⟨m.owner, Function.update m.status u (.woken c)⟩ else none
  | none => if ∀ u, m.status u ≠ .asleep c then some m else none

variable {m m' : Monitor ι C} {t : ι} {c : C}

omit [DecidableEq ι] [DecidableEq C] in
theorem lock_eq_some (h : m.lock t = some m') : m.owner = none ∧ m' = ⟨some t, m.status⟩ := by
  unfold lock at h
  by_cases hfree : m.owner = none
  · rw [if_pos hfree] at h
    exact ⟨hfree, (Option.some.inj h).symm⟩
  · rw [if_neg hfree] at h
    exact absurd h (Option.some_ne_none _).symm

theorem signal_eq_some [Fintype ι] {wakes : Option ι} (h : m.signal c wakes = some m') :
    (∃ u, m.status u = .asleep c ∧ m' = ⟨m.owner, Function.update m.status u (.woken c)⟩) ∨
      ((∀ u, m.status u ≠ .asleep c) ∧ m' = m) := by
  unfold signal at h
  cases wakes with
  | none =>
    by_cases hnobody : ∀ u, m.status u ≠ .asleep c
    · simp only [if_pos hnobody] at h
      exact .inr ⟨hnobody, (Option.some.inj h).symm⟩
    · simp only [if_neg hnobody] at h
      exact absurd h (Option.some_ne_none _).symm
  | some u =>
    by_cases hu : m.status u = .asleep c
    · simp only [if_pos hu] at h
      exact .inl ⟨u, hu, (Option.some.inj h).symm⟩
    · simp only [if_neg hu] at h
      exact absurd h (Option.some_ne_none _).symm

/-- What a step of thread `t` may do to the monitor. -/
inductive Turn (m : Monitor ι C) (t : ι) : Monitor ι C → Prop
  | stay : Turn m t m
  | lock (hfree : m.owner = none) : Turn m t ⟨some t, m.status⟩
  | wait (hown : m.owner = some t) (c : C) : Turn m t (m.wait t c)
  | wake {u : ι} {c : C} (hu : m.status u = .asleep c) :
      Turn m t ⟨m.owner, Function.update m.status u (.woken c)⟩
  | unlock (hown : m.owner = some t) : Turn m t m.unlock
  | resume (hfree : m.owner = none) : Turn m t ⟨some t, Function.update m.status t .running⟩

omit [DecidableEq C] in
theorem Turn.other (h : Turn m t m') {u : ι} (hu : u ≠ t) :
    (m'.status u = m.status u ∨ ∃ c, m.status u = .asleep c ∧ m'.status u = .woken c) ∧
      (m.owner = some u → m'.owner = some u) := by
  have hnot : m.owner = some t → m.owner ≠ some u := fun hown heq =>
    hu (Option.some.inj (heq.symm.trans hown))
  cases h with
  | stay => exact ⟨.inl rfl, id⟩
  | lock hfree => exact ⟨.inl rfl, fun hown => absurd (hfree.symm.trans hown) nofun⟩
  | wait hown c => exact ⟨.inl (Function.update_of_ne hu _ _), fun hown' => absurd hown' (hnot hown)⟩
  | @wake w c hw =>
    refine ⟨?_, id⟩
    by_cases huw : u = w
    · subst huw
      exact .inr ⟨c, hw, Function.update_self ..⟩
    · exact .inl (Function.update_of_ne huw _ _)
  | unlock hown => exact ⟨.inl rfl, fun hown' => absurd hown' (hnot hown)⟩
  | resume hfree => exact ⟨.inl (Function.update_of_ne hu _ _), fun hown => absurd (hfree.symm.trans hown) nofun⟩

end Monitor

theorem eq_of_ne_of_two {C : Type} [Fintype C] [DecidableEq C] (htwo : Fintype.card C = 2) {x y z : C}
    (hy : x ≠ y) (hz : x ≠ z) : y = z := by
  by_contra hne
  have hthree : ({x, y, z} : Finset C).card = 3 := Finset.card_eq_three.mpr ⟨x, y, z, hy, hz, hne, rfl⟩
  have hle := Finset.card_le_univ ({x, y, z} : Finset C)
  omega

/-! ### What a thread relies on -/

section threadOk

variable {C P : Type} {inside : P → Bool} {knows knows' : P → Prop} {c : C} {test : P} {holds holds' : Prop}
  {st st' : Status C} {p : P}

/-- A thread that runs inside its critical section holds the mutex and knows what it has found there; one that
waits does so on `c`, on its way back to the test. -/
def ThreadOk (inside : P → Bool) (knows : P → Prop) (c : C) (test : P) (holds : Prop) : Status C → P → Prop
  | .running, p => inside p = true → holds ∧ knows p
  | .asleep c', p => c' = c ∧ p = test
  | .woken c', p => c' = c ∧ p = test

theorem ThreadOk.other (h : ThreadOk inside knows c test holds st p)
    (hst : st' = st ∨ ∃ c, st = .asleep c ∧ st' = .woken c) (hkeep : holds → holds' ∧ (knows p → knows' p)) :
    ThreadOk inside knows' c test holds' st' p := by
  rcases hst with rfl | ⟨c', rfl, rfl⟩
  · cases st' with
    | asleep c' => exact h
    | woken c' => exact h
    | running =>
      intro hin
      obtain ⟨hholds, hknows⟩ := h hin
      exact ⟨(hkeep hholds).1, (hkeep hholds).2 hknows⟩
  · exact h

/-- A step of thread `t`, which may change what the others know only while it has the mutex. -/
theorem ThreadOk.step {ι L : Type} [DecidableEq ι] [DecidableEq C] {m m' : Monitor ι C} {t : ι} (place : L → P)
    {threads : ι → L} {l : L} {knows knows' : ι → P → Prop} {c : ι → C}
    (h : ∀ u, ThreadOk inside (knows u) (c u) test (m.owner = some u) (m.status u) (place (threads u)))
    (hturn : m.Turn t m') (hknows : knows' = knows ∨ m.owner = some t)
    (hself : ThreadOk inside (knows' t) (c t) test (m'.owner = some t) (m'.status t) (place l)) (u : ι) :
    ThreadOk inside (knows' u) (c u) test (m'.owner = some u) (m'.status u)
      (place (Function.update threads t l u)) := by
  by_cases hu : u = t
  · subst hu
    rw [Function.update_self]
    exact hself
  · rw [Function.update_of_ne hu]
    obtain ⟨hstatus, howner⟩ := hturn.other hu
    refine (h u).other hstatus fun hown => ⟨howner hown, ?_⟩
    rcases hknows with rfl | hown'
    · exact id
    · exact absurd (Option.some.inj (hown.symm.trans hown')) hu

end threadOk

/-- The books of a condition variable. -/
structure Account where
  asleep : ℕ
  due : ℕ
  avail : ℕ

namespace Account

/-- Something is there for good only when nobody sleeps. -/
def Backed (x : Account) : Prop := 0 < x.asleep → x.avail ≤ x.due

/-- What a step of a thread may do to the books. -/
inductive Step (x y : Account) : Prop
  /-- nothing -/
  | stay (ha : y.asleep = x.asleep) (hd : y.due = x.due) (hv : y.avail = x.avail)
  /-- a thread comes to the test -/
  | arrive (ha : y.asleep = x.asleep) (hd : y.due = x.due + 1) (hv : y.avail = x.avail)
  /-- a thread finds nothing -/
  | giveUp (ha : y.asleep = x.asleep) (hd : y.due + 1 = x.due) (hx : x.avail = 0) (hv : y.avail = 0)
  | sleep (ha : y.asleep = x.asleep + 1) (hd : y.due = x.due) (hx : x.avail = 0) (hv : y.avail = 0)
  | take (ha : y.asleep = x.asleep) (hd : y.due + 1 = x.due) (hv : y.avail + 1 = x.avail)
  /-- a thread adds something and goes on to signal it -/
  | put (ha : y.asleep = x.asleep) (hd : y.due = x.due + 1) (hv : y.avail = x.avail + 1)
  | putQuietly (ha : y.asleep = x.asleep) (hd : y.due = x.due) (hv : y.avail = x.avail + 1)
      (h : x.asleep = 0 ∨ x.avail < x.due)
  /-- the one that was to signal wakes another -/
  | signal (ha : y.asleep + 1 = x.asleep) (hd : y.due = x.due) (hv : y.avail = x.avail)
  | signalNobody (ha : y.asleep = 0) (hd : y.due + 1 = x.due) (hv : y.avail = x.avail)

theorem Step.backed {x y : Account} (h : Step x y) (hx : x.Backed) : y.Backed := by
  intro hpos
  unfold Backed at hx
  cases h with
  | stay => omega
  | arrive => omega
  | giveUp => omega
  | sleep => omega
  | take => omega
  | put => omega
  | putQuietly => omega
  | signal => omega
  | signalNobody => omega

theorem Backed.spurious {x y : Account} (hx : x.Backed) (ha : y.asleep + 1 = x.asleep)
    (hd : y.due = x.due + 1) (hv : y.avail = x.avail) : y.Backed := by
  intro hpos
  unfold Backed at hx
  omega

/-! ### Counting -/

section count

variable {ι C P : Type} [Fintype ι] [DecidableEq C]

/-- The books of `c`, counted over the threads: those that sleep on it, and those that are due by their
status and their place. -/
def count (isDue : ι → Status C → P → Bool) (c : C) (status : ι → Status C) (pc : ι → P) (avail : ℕ) :
    Account where
  asleep := tally fun t => status t = .asleep c
  due := tally fun t => isDue t (status t) (pc t) = true
  avail := avail

/-- How the books `x` become `y` when a thread moves, from the status `st` and the place `p` to `st'` and `p'`. -/
def Moved (isDue : Status C → P → Bool) (c : C) (x y : Account) (st st' : Status C) (p p' : P) : Prop :=
  y.asleep + (if st = .asleep c then 1 else 0) = x.asleep + (if st' = .asleep c then 1 else 0) ∧
    y.due + (if isDue st p = true then 1 else 0) = x.due + (if isDue st' p' = true then 1 else 0)

variable (isDue : ι → Status C → P → Bool) (c : C) (v v' : ℕ) {status status' : ι → Status C}
  {pc pc' : ι → P} {t : ι}

theorem count_change (hstatus : ∀ u, u ≠ t → status' u = status u) (hpc : ∀ u, u ≠ t → pc' u = pc u) :
    (count isDue c status' pc' v').asleep + (if status t = .asleep c then 1 else 0) =
        (count isDue c status pc v).asleep + (if status' t = .asleep c then 1 else 0) ∧
      (count isDue c status' pc' v').due + (if isDue t (status t) (pc t) = true then 1 else 0) =
        (count isDue c status pc v).due + (if isDue t (status' t) (pc' t) = true then 1 else 0) := by
  constructor
  · exact tally_change (p := fun t => status t = .asleep c) (q := fun t => status' t = .asleep c)
      fun u hu => by rw [hstatus u hu]
  · exact tally_change (p := fun t => isDue t (status t) (pc t) = true)
      (q := fun t => isDue t (status' t) (pc' t) = true) fun u hu => by rw [hstatus u hu, hpc u hu]

variable [DecidableEq ι] {L : Type} (place : L → P) {threads : ι → L} (l : L)

theorem count_move {k : Monitor ι C} (m : Monitor ι C) {st st' : Status C} {p p' : P}
    (hstatus : ∀ u, u ≠ t → m.status u = k.status u) (hst : k.status t = st) (hp : place (threads t) = p)
    (hst' : m.status t = st') (hp' : place l = p') :
    Moved (isDue t) c (count isDue c k.status (fun u => place (threads u)) v)
      (count isDue c m.status (fun u => place (Function.update threads t l u)) v') st st' p p' := by
  subst hst hp hst' hp'
  have hpc : ∀ u, u ≠ t → place (Function.update threads t l u) = place (threads u) :=
    fun u hu => by rw [Function.update_of_ne hu]
  have hbooks := count_change isDue c v v' hstatus hpc
  rw [Function.update_self] at hbooks
  exact hbooks

omit [DecidableEq ι] in
theorem backed_of_awake (hawake : ∀ u, status u ≠ .asleep c) : (count isDue c status pc v).Backed := by
  intro hpos
  obtain ⟨u, hu⟩ := tally_pos.mp hpos
  exact absurd hu (hawake u)

theorem count_wake {w : ι} {c' : C} (hne : t ≠ w) (hw : status w = .asleep c')
    (hpc : ∀ u, u ≠ t → pc' u = pc u) :
    (count isDue c (Function.update status w (.woken c')) pc' v').asleep + (if c' = c then 1 else 0) =
        (count isDue c status pc v).asleep ∧
      (count isDue c (Function.update status w (.woken c')) pc' v').due +
          (if isDue w (.asleep c') (pc w) = true then 1 else 0) +
          (if isDue t (status t) (pc t) = true then 1 else 0) =
        (count isDue c status pc v).due + (if isDue w (.woken c') (pc w) = true then 1 else 0) +
          (if isDue t (status t) (pc' t) = true then 1 else 0) := by
  have hself : Function.update status w (.woken c') w = .woken c' := Function.update_self _ _ _
  have hoff : ∀ u, u ≠ w → Function.update status w (.woken c') u = status u :=
    fun u hu => Function.update_of_ne hu _ _
  -- first the sleeper wakes up, then the thread goes on
  obtain ⟨ha, hd⟩ := count_change isDue c v v hoff (fun u _ => rfl : ∀ u, u ≠ w → pc u = pc u)
  obtain ⟨ha', hd'⟩ := count_change isDue c v v' (fun u _ => rfl :
    ∀ u, u ≠ t → Function.update status w (.woken c') u = Function.update status w (.woken c') u) hpc
  rw [hself, hw] at ha hd
  rw [hoff t hne] at ha' hd'
  simp only [Status.asleep.injEq, reduceCtorEq, if_false] at ha
  constructor
  · omega
  · omega

/-- A thread that is about to signal and will then do something else wakes a sleeper. -/
theorem step_wake {w : ι} {c' : C} (hrun : status t = .running) (hw : status w = .asleep c')
    (hasleep : isDue w (.asleep c') (place (threads w)) = false)
    (hwoken : isDue w (.woken c') (place (threads w)) = decide (c' = c))
    (hbefore : isDue t .running (place (threads t)) = decide (c' = c)) (hafter : isDue t .running (place l) = false) :
    Step (count isDue c status (fun u => place (threads u)) v)
      (count isDue c (Function.update status w (.woken c')) (fun u => place (Function.update threads t l u)) v) := by
  have hne : t ≠ w := by
    rintro rfl
    exact absurd (hrun.symm.trans hw) nofun
  have hpc : ∀ u, u ≠ t → place (Function.update threads t l u) = place (threads u) :=
    fun u hu => by rw [Function.update_of_ne hu]
  obtain ⟨ha, hd⟩ := count_wake isDue c v v hne hw hpc
  rw [hrun, Function.update_self, hasleep, hwoken, hbefore, hafter, if_neg Bool.false_ne_true, Nat.add_zero] at hd
  have hdue := Nat.add_right_cancel hd
  by_cases hc : c' = c
  · rw [if_pos hc] at ha
    exact .signal ha hdue rfl
  · rw [if_neg hc] at ha
    exact .stay ha hdue rfl

end count

end Account

end CodingForFun.Lib
