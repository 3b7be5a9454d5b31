import CodingForFun.Lib.Threads

/-!
# `printoddseven.c`

Two threads count by twos, one through the even numbers and one through the odd ones, and each posts the
semaphore that the other waits for. At any time one of them has the turn (`Turn`): its semaphore is 1, or it
has passed `sem_wait` and not posted yet. So the numbers are printed in order whoever runs when, nobody waits
for ever, and every run takes the same number of steps (`prints_in_order`). The loops end at `limit`, which is
10 in the source.
-/

namespace CodingForFun.Printoddseven

open Lib

/-- `even` and `odd` -/
inductive Thread
  | even
  | odd
  deriving DecidableEq, Repr

/-- The one whose semaphore is posted. -/
def Thread.other : Thread → Thread
  | .even => .odd
  | .odd => .even

/-- The first value of `i` -/
def Thread.start : Thread → ℕ
  | .even => 2
  | .odd => 1

/-- Where a thread is in its loop. -/
inductive Pc
  | test
  | semWait
  | print
  | add
  | semPost
  | done
  deriving DecidableEq, Repr

/-- The semaphores `even_sem` and `odd_sem`, by the thread that waits for them, the variables `i`, the places of
the threads and what has been printed. -/
structure State where
  sem : Thread → ℕ
  i : Thread → ℕ
  pc : Thread → Pc
  output : List ℕ

/-- The program after `sem_init` and `pthread_create`. -/
def initial : State where
  sem
    | .even => 0
    | .odd => 1
  i := Thread.start
  pc _ := .test
  output := []

def State.goto (s : State) (t : Thread) (pc : Pc) : State := { s with pc := Function.update s.pc t pc }

/-- The next statement of a thread. -/
def step (limit : ℕ) (s : State) (t : Thread) : Option State :=
  match s.pc t with
  | .test => some (s.goto t (if s.i t < limit then .semWait else .done))
  | .semWait =>
    if 0 < s.sem t then
      some ({ s with sem := Function.update s.sem t (s.sem t - 1) }.goto t .print)
    else none
  | .print => some ({ s with output := s.output ++ [s.i t] }.goto t .add)
  | .add => some ({ s with i := Function.update s.i t (s.i t + 2) }.goto t .semPost)
  | .semPost =>
    some ({ s with sem := Function.update s.sem t.other (s.sem t.other + 1) }.goto t .test)
  | .done => none

variable {limit : ℕ} {s s' : State} {t : Thread}

theorem Thread.other_ne (t : Thread) : t.other ≠ t := by
  cases t <;> decide

@[simp] theorem Thread.other_other (t : Thread) : t.other.other = t := by
  cases t <;> rfl

theorem Thread.eq_or (t u : Thread) : u = t ∨ u = t.other := by
  cases t <;> cases u <;> decide

/-! ### The turn -/

/-- Outside of the part between the semaphores. -/
def Pc.Idle : Pc → Prop
  | .test => True
  | .semWait => True
  | .done => True
  | _ => False

/-- What a place says about the value of `i` that it was reached with. -/
def Pc.Bounds (limit i : ℕ) : Pc → Prop
  | .test => True
  | .semPost => i < limit + 2
  | .done => limit ≤ i
  | _ => i < limit

/-- The thread with the turn, which prints the next number: before the semaphore, and at each place behind it. -/
def Stage (count sem i other : ℕ) : Pc → Prop
  | .print => sem = 0 ∧ i = count + 1 ∧ other = count + 2
  | .add => sem = 0 ∧ i = count ∧ other = count + 1
  | .semPost => sem = 0 ∧ i = count + 2 ∧ other = count + 1
  | _ => sem = 1 ∧ i = count + 1 ∧ other = count + 2

/-- The thread has the turn. -/
structure Turn (limit : ℕ) (s : State) (t : Thread) : Prop where
  stage : Stage s.output.length (s.sem t) (s.i t) (s.i t.other) (s.pc t)
  idle : (s.pc t.other).Idle
  sem : s.sem t.other = 0
  bounds : ∀ u, (s.pc u).Bounds limit (s.i u)
  output : s.output = List.range' 1 s.output.length
  length : s.output.length ≤ limit - 1

theorem Turn.initial : Turn limit initial .odd :=
  ⟨⟨rfl, rfl, rfl⟩, trivial, rfl, fun _ => trivial, rfl, Nat.zero_le _⟩

theorem bounds_update {pc : Thread → Pc} {i : Thread → ℕ} {new : Pc} {n : ℕ}
    (h : ∀ u, (pc u).Bounds limit (i u)) (hnew : new.Bounds limit n) (u : Thread) :
    (Function.update pc t new u).Bounds limit (Function.update i t n u) := by
  by_cases hu : u = t
  · rw [hu, Function.update_self, Function.update_self]
    exact hnew
  · rw [Function.update_of_ne hu, Function.update_of_ne hu]
    exact h u

theorem Stage.congr {count sem i other : ℕ} {pc new : Pc} (h : Stage count sem i other pc) (hpc : pc.Idle)
    (hnew : new.Idle) : Stage count sem i other new := by
  have hwait : Stage count sem i other .test := by
    cases pc with
    | print => exact hpc.elim
    | add => exact hpc.elim
    | semPost => exact hpc.elim
    | _ => exact h
  cases new with
  | print => exact hnew.elim
  | add => exact hnew.elim
  | semPost => exact hnew.elim
  | _ => exact hwait

/-- A thread that stays outside of the part between the semaphores takes the turn neither from itself nor from
the other. -/
theorem Turn.goto {u : Thread} {new : Pc} (h : Turn limit s t) (hold : (s.pc u).Idle) (hidle : new.Idle)
    (hnew : new.Bounds limit (s.i u)) : Turn limit (s.goto u new) t := by
  have hbounds : ∀ v, ((s.goto u new).pc v).Bounds limit (s.i v) := by
    intro v
    have hv := bounds_update (t := u) h.bounds hnew v
    rwa [Function.update_eq_self] at hv
  refine { h with stage := ?_, idle := ?_, bounds := hbounds }
  · show Stage _ _ _ _ (Function.update s.pc u new t)
    by_cases hu : t = u
    · subst hu
      rw [Function.update_self]
      exact h.stage.congr hold hidle
    · rw [Function.update_of_ne hu]
      exact h.stage
  · show (Function.update s.pc u new t.other).Idle
    by_cases hu : t.other = u
    · rw [hu, Function.update_self]
      exact hidle
    · rw [Function.update_of_ne hu]
      exact h.idle

theorem Turn.test {u : Thread} (h : Turn limit s t) (hpc : s.pc u = .test) :
    Turn limit (s.goto u (if s.i u < limit then .semWait else .done)) t := by
  have hold : (s.pc u).Idle := by
    rw [hpc]
    trivial
  by_cases hlt : s.i u < limit
  · rw [if_pos hlt]
    exact h.goto hold trivial hlt
  · rw [if_neg hlt]
    exact h.goto hold trivial (Nat.not_lt.mp hlt)

theorem Turn.step_self (h : Turn limit s t) (hs : step limit s t = some s') : ∃ t', Turn limit s' t' := by
  have hother : ∀ {α : Type} (f : Thread → α) x, Function.update f t x t.other = f t.other :=
    fun f x => Function.update_of_ne t.other_ne x f
  have hstage := h.stage
  have hbound := h.bounds t
  have hidle := h.idle
  unfold step at hs
  cases hpc : s.pc t with
  | test =>
    rw [hpc] at hs
    obtain rfl := Option.some.inj hs
    exact ⟨t, h.test hpc⟩
  | semWait =>
    rw [hpc] at hs hstage hbound
    obtain ⟨-, hs⟩ := Option.ite_none_right_eq_some.mp hs
    obtain rfl := Option.some.inj hs
    obtain ⟨hone, hi, ho⟩ := hstage
    refine ⟨t, ?_, ?_, ?_, fun u => ?_, h.output, h.length⟩
    · show Stage _ (Function.update s.sem t _ t) _ _ (Function.update s.pc t _ t)
      rw [Function.update_self, Function.update_self, hone]
      exact ⟨rfl, hi, ho⟩
    · show (Function.update s.pc t _ t.other).Idle
      rwa [hother]
    · show Function.update s.sem t _ t.other = 0
      rw [hother, h.sem]
    · have hu := bounds_update (t := t) h.bounds (show Pc.print.Bounds limit (s.i t) from hbound) u
      rwa [Function.update_eq_self] at hu
  | print =>
    rw [hpc] at hs hstage hbound
    obtain rfl := Option.some.inj hs
    obtain ⟨hzero, hi, ho⟩ := hstage
    have hlt : s.i t < limit := hbound
    refine ⟨t, ?_, ?_, h.sem, fun u => ?_, ?_, ?_⟩
    · show Stage (s.output ++ [s.i t]).length _ _ _ (Function.update s.pc t _ t)
      rw [Function.update_self, List.length_append, List.length_singleton]
      exact ⟨hzero, hi, ho⟩
    · show (Function.update s.pc t _ t.other).Idle
      rwa [hother]
    · have hu := bounds_update (t := t) h.bounds (show Pc.add.Bounds limit (s.i t) from hbound) u
      rwa [Function.update_eq_self] at hu
    · show s.output ++ [s.i t] = List.range' 1 (s.output ++ [s.i t]).length
      rw [List.length_append, List.length_singleton, List.range'_1_concat, ← h.output, hi, Nat.add_comm]
    · show (s.output ++ [s.i t]).length ≤ limit - 1
      rw [List.length_append, List.length_singleton]
      omega
  | add =>
    rw [hpc] at hs hstage hbound
    obtain rfl := Option.some.inj hs
    obtain ⟨hzero, hi, ho⟩ := hstage
    have hlt : s.i t < limit := hbound
    refine ⟨t, ?_, ?_, h.sem, fun u => ?_, h.output, h.length⟩
    · show Stage _ _ (Function.update s.i t _ t) (Function.update s.i t _ t.other) (Function.update s.pc t _ t)
      rw [Function.update_self, Function.update_self, hother]
      exact ⟨hzero, congrArg (· + 2) hi, ho⟩
    · show (Function.update s.pc t _ t.other).Idle
      rwa [hother]
    · exact bounds_update h.bounds (show Pc.semPost.Bounds limit (s.i t + 2) from Nat.add_lt_add_right hlt 2) u
  | semPost =>
    rw [hpc] at hs hstage
    obtain rfl := Option.some.inj hs
    obtain ⟨hzero, hi, ho⟩ := hstage
    refine ⟨t.other, ?_, ?_, ?_, fun u => ?_, h.output, h.length⟩
    · show Stage _ (Function.update s.sem t.other _ t.other) _ _ (Function.update s.pc t _ t.other)
      rw [Function.update_self, hother, Thread.other_other, h.sem]
      have htest : Stage s.output.length 1 (s.i t.other) (s.i t) .test := ⟨rfl, ho, hi⟩
      exact htest.congr trivial hidle
    · show (Function.update s.pc t _ t.other.other).Idle
      rw [Thread.other_other, Function.update_self]
      trivial
    · show Function.update s.sem t.other _ t.other.other = 0
      rw [Thread.other_other, Function.update_of_ne t.other_ne.symm, hzero]
    · have hu := bounds_update (t := t) h.bounds (show Pc.test.Bounds limit (s.i t) from trivial) u
      rwa [Function.update_eq_self] at hu
  | done =>
    rw [hpc] at hs
    cases hs

theorem Turn.step_other (h : Turn limit s t) (hs : step limit s t.other = some s') : Turn limit s' t := by
  have hidle := h.idle
  unfold step at hs
  cases hpc : s.pc t.other with
  | test =>
    rw [hpc] at hs
    obtain rfl := Option.some.inj hs
    exact h.test hpc
  | semWait =>
    rw [hpc] at hs
    obtain ⟨hpos, -⟩ := Option.ite_none_right_eq_some.mp hs
    rw [h.sem] at hpos
    exact absurd hpos (Nat.lt_irrefl 0)
  | done =>
    rw [hpc] at hs
    cases hs
  | _ =>
    rw [hpc] at hidle
    exact hidle.elim

theorem Turn.next {u : Thread} (h : Turn limit s t) (hs : step limit s u = some s') : ∃ t', Turn limit s' t' := by
  rcases t.eq_or u with rfl | rfl
  · exact h.step_self hs
  · exact ⟨t, h.step_other hs⟩

/-! ### The number of steps -/

/-- How far a place is in its round. -/
def Pc.offset : Pc → ℤ
  | .test => 0
  | .semWait => 1
  | .print => 2
  | .add => 3
  -- `i` belongs to the next round already
  | .semPost => -1
  | .done => 1

/-- Twice the steps that a thread has taken: a round is five steps long. -/
def State.spent (s : State) (t : Thread) : ℤ := 5 * (s.i t - t.start) + 2 * (s.pc t).offset

theorem spent_of_same {u : Thread} (hi : s'.i u = s.i u) (hpc : s'.pc u = s.pc u) : s'.spent u = s.spent u := by
  rw [State.spent, hi, hpc, State.spent]

theorem step_spent (hs : step limit s t = some s') :
    s'.spent t = s.spent t + 2 ∧ s'.spent t.other = s.spent t.other := by
  have hother : ∀ {α : Type} (f : Thread → α) x, Function.update f t x t.other = f t.other :=
    fun f x => Function.update_of_ne t.other_ne x f
  have hself : ∀ {α : Type} (f : Thread → α) x, Function.update f t x t = x := fun f x =>
    Function.update_self t x f
  unfold step at hs
  cases hpc : s.pc t with
  | semWait =>
    rw [hpc] at hs
    obtain ⟨-, hs⟩ := Option.ite_none_right_eq_some.mp hs
    obtain rfl := Option.some.inj hs
    refine ⟨?_, spent_of_same rfl (hother _ _)⟩
    simp only [State.spent, State.goto, hself, hpc, Pc.offset]
    omega
  | done =>
    rw [hpc] at hs
    cases hs
  | test =>
    rw [hpc] at hs
    obtain rfl := Option.some.inj hs
    refine ⟨?_, spent_of_same rfl (hother _ _)⟩
    have hone : (if s.i t < limit then Pc.semWait else Pc.done).offset = 1 := by
      split <;> rfl
    simp only [State.spent, State.goto, hself, hpc, hone]
    simp only [Pc.offset]
    omega
  | add =>
    rw [hpc] at hs
    obtain rfl := Option.some.inj hs
    refine ⟨?_, spent_of_same (hother _ _) (hother _ _)⟩
    simp only [State.spent, State.goto, hself, hpc, Pc.offset]
    omega
  | _ =>
    rw [hpc] at hs
    obtain rfl := Option.some.inj hs
    refine ⟨?_, spent_of_same rfl (hother _ _)⟩
    simp only [State.spent, State.goto, hself, hpc, Pc.offset]
    omega

theorem spent_run (as : List Thread) (hs : as.foldlM (step limit) s = some s') :
    s'.spent .even + s'.spent .odd = s.spent .even + s.spent .odd + 2 * as.length := by
  induction as generalizing s with
  | nil =>
    obtain rfl := Option.some.inj hs
    exact (add_zero _).symm
  | cons t as ih =>
    obtain ⟨s₁, hs₁, hrest⟩ := Option.bind_eq_some_iff.mp hs
    have hsum := ih hrest
    obtain ⟨hself, hother⟩ := step_spent hs₁
    rw [hsum, List.length_cons]
    cases t with
    | even =>
      simp only [Thread.other] at hother
      omega
    | odd =>
      simp only [Thread.other] at hother
      omega

theorem turn_run (as : List Thread) (h : Turn limit s t) (hs : as.foldlM (step limit) s = some s') :
    ∃ t', Turn limit s' t' := by
  induction as generalizing s t with
  | nil =>
    obtain rfl := Option.some.inj hs
    exact ⟨t, h⟩
  | cons u as ih =>
    obtain ⟨s₁, hs₁, hrest⟩ := Option.bind_eq_some_iff.mp hs
    obtain ⟨t', h'⟩ := h.next hs₁
    exact ih h' hrest

theorem Pc.Idle.offset_le {pc : Pc} (h : pc.Idle) : 0 ≤ pc.offset ∧ pc.offset ≤ 1 := by
  cases pc <;> first | exact h.elim | decide

theorem spent_add (s : State) (t : Thread) : s.spent .even + s.spent .odd =
    5 * (s.i t + s.i t.other - 3) + 2 * ((s.pc t).offset + (s.pc t.other).offset) := by
  cases t with
  | even =>
    simp only [State.spent, Thread.other, Thread.start]
    omega
  | odd =>
    simp only [State.spent, Thread.other, Thread.start]
    omega

theorem Turn.spent_le (h : Turn limit s t) : s.spent .even + s.spent .odd ≤ 2 * (5 * (limit - 1 : ℕ) + 2) := by
  rw [spent_add s t]
  have hstage := h.stage
  have hbound := h.bounds t
  have hlength := h.length
  obtain ⟨-, hother⟩ := h.idle.offset_le
  generalize (s.pc t.other).offset = rest at hother ⊢
  cases hpc : s.pc t with
  | print =>
    rw [hpc] at hstage hbound
    obtain ⟨-, hi, ho⟩ := hstage
    have hlt : s.i t < limit := hbound
    simp only [Pc.offset]
    omega
  | add =>
    rw [hpc] at hstage
    obtain ⟨-, hi, ho⟩ := hstage
    simp only [Pc.offset]
    omega
  | semPost =>
    rw [hpc] at hstage
    obtain ⟨-, hi, ho⟩ := hstage
    simp only [Pc.offset]
    omega
  | _ =>
    rw [hpc] at hstage
    obtain ⟨-, hi, ho⟩ := hstage
    simp only [Pc.offset]
    omega

/-- Nobody can go on only when both loops have ended, and then everything has been printed. -/
theorem Turn.stuck (h : Turn limit s t) (hs : ∀ u, step limit s u = none) :
    (∀ u, s.pc u = .done) ∧ s.output.length = limit - 1 ∧
      s.spent .even + s.spent .odd = 2 * (5 * (limit - 1 : ℕ) + 2) := by
  have hself : s.pc t = .done := by
    have hnone := hs t
    have hstage := h.stage
    unfold step at hnone
    cases hpc : s.pc t with
    | done => rfl
    | semWait =>
      rw [hpc] at hnone hstage
      rw [hstage.1] at hnone
      cases hnone
    | _ =>
      rw [hpc] at hnone
      cases hnone
  have hstage := h.stage
  have hbound := h.bounds t
  rw [hself] at hstage hbound
  obtain ⟨hone, hi, ho⟩ := hstage
  have hge : limit ≤ s.i t := hbound
  have hlength := h.length
  have hother : s.pc t.other = .done := by
    have hnone := hs t.other
    have hidle := h.idle
    have hbound := h.bounds t.other
    unfold step at hnone
    cases hpc : s.pc t.other with
    | done => rfl
    | test =>
      rw [hpc] at hnone
      cases hnone
    | semWait =>
      -- it prints the number after the one that was too large
      rw [hpc] at hbound
      have hlt : s.i t.other < limit := hbound
      omega
    | _ =>
      rw [hpc] at hidle
      exact hidle.elim
  refine ⟨fun u => ?_, by omega, ?_⟩
  · rcases t.eq_or u with rfl | rfl
    · exact hself
    · exact hother
  · rw [spent_add s t, hself, hother]
    simp only [Pc.offset]
    omega

/-- However the threads take turns, the numbers are printed in their order, and the program ends, after the same
number of steps in every run, with all of them printed. -/
theorem prints_in_order {as : List Thread} (hs : as.foldlM (step limit) initial = some s) :
    s.output = List.range' 1 s.output.length ∧
    ((∀ t, step limit s t = none) ↔ as.length = 5 * (limit - 1) + 2) ∧
    ((∀ t, step limit s t = none) → (∀ t, s.pc t = .done) ∧ s.output = List.range' 1 (limit - 1)) := by
  obtain ⟨t, h⟩ := turn_run as Turn.initial hs
  have hspent := spent_run as hs
  have hzero : initial.spent .even + initial.spent .odd = 0 := by decide
  rw [hzero] at hspent
  refine ⟨h.output, ⟨fun hstuck => ?_, fun hlength u => ?_⟩, fun hstuck => ?_⟩
  · obtain ⟨-, -, htotal⟩ := h.stuck hstuck
    omega
  · by_contra hsome
    obtain ⟨s', hs'⟩ := Option.ne_none_iff_exists'.mp hsome
    obtain ⟨t', h'⟩ := h.next hs'
    have hle := h'.spent_le
    have hlast : [u].foldlM (step limit) s = some s' := by
      rw [List.foldlM_cons, hs']
      rfl
    have hmore := spent_run [u] hlast
    rw [List.length_singleton] at hmore
    omega
  · obtain ⟨hdone, hall, -⟩ := h.stuck hstuck
    refine ⟨hdone, ?_⟩
    rw [← hall]
    exact h.output

/-- A run up to the limit of 3. -/
def evenFirst : List Thread :=
  [.even, .odd, .odd, .odd, .odd, .odd, .odd, .even, .even, .even, .even, .even]

theorem prints_in_order_evenFirst : ∃ s, evenFirst.foldlM (step 3) initial = some s ∧
    ((∀ t, step 3 s t = none) ∧ s.output = List.range' 1 2) := by
  have hrun : (evenFirst.foldlM (step 3) initial).isSome = true := by decide
  obtain ⟨s, hs⟩ := Option.isSome_iff_exists.mp hrun
  obtain ⟨-, hiff, hend⟩ := prints_in_order hs
  have hstuck := hiff.mpr (by decide)
  exact ⟨s, hs, hstuck, (hend hstuck).2⟩

end CodingForFun.Printoddseven
