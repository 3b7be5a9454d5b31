import CodingForFun.Lib.Threads
import Mathlib.Order.Basic

/-!
# The context switch

`src/freertos/scheduler.c`. `PendSV_Handler` pushes R4-R11 on the stack of the running task, stores its
stack pointer in `PSP_array[curr_task]`, and takes the stack pointer and the registers of `next_task` from
where it was left. As long as `next_task` is one of the two tasks that `init_sys` has set up, a task finds
its registers and its stack pointer again (`Sound.pendSV`): what was pushed for it lies on its own stack,
where no other task and no switch between others stores anything.

`SysTick_Handler` starts again at task 0 only from task `NUMB_TASKS`, one too far: the second switch is to
a task 2 that was never set up (`along_numbered_iff`).

Addresses count words: the stack pointers of a Cortex-M are multiples of four bytes.
-/

namespace CodingForFun.Scheduler

open Lib

/-- `NUMB_TASKS` -/
def numbTasks : ℕ := 2

/-- The words of a stack: 1024 of 8 bytes. -/
def stackSize : ℕ := 2048

/-- Where the linker puts `task0_stack` to `task3_stack` and the tasks. -/
structure Layout where
  stack : ℕ → ℕ
  task : ℕ → UInt32
  disjoint : ∀ i < 4, ∀ j < 4, i ≠ j →
    stack i + stackSize ≤ stack j ∨ stack j + stackSize ≤ stack i

/-- R4 to R11 -/
abbrev Regs := Fin 8 → UInt32

/-- The memory, the registers and the variables of `scheduler.c`, and whether PendSV is pending. `written`
and `out` are history: the entries of `PSP_array` that were written, and the registers and the stack
pointer a task had when it was last switched out. -/
structure State where
  mem : ℕ → UInt32
  regs : Regs
  psp : ℕ
  currTask : ℕ
  nextTask : ℕ
  pspArray : ℕ → ℕ
  pending : Bool
  written : ℕ → Bool
  out : ℕ → Option (Regs × ℕ)

/-- The machine when `init_sys` calls `task0`, with any values in R4-R11. -/
def initSys (l : Layout) (regs : Regs) : State :=
  -- top of stack
  let pspArray := Function.update (fun _ => 0) 0 (l.stack 0 + stackSize - 16)
  let mem := Function.update (fun _ => 0) (pspArray 0 + 14) (l.task 0)
  let mem := Function.update mem (pspArray 0 + 15) 0x01000000
  let pspArray := Function.update pspArray 1 (l.stack 1 + stackSize - 16)
  let mem := Function.update mem (pspArray 1 + 14) (l.task 1)
  let mem := Function.update mem (pspArray 1 + 15) 0x01000000
  { mem, regs, psp := pspArray 0 + 16, currTask := 0, nextTask := 1, pspArray, pending := false
    written := fun i => i = 0 ∨ i = 1, out := fun _ => none }

/-- `SysTick_Handler` -/
def sysTickHandler (s : State) : State :=
  let nextTask := if s.currTask = numbTasks then 0 else s.currTask + 1
  { s with nextTask, pending := if s.currTask ≠ nextTask then true else s.pending }

/-- `STMDB R0!,{R4-R11}`, which leaves `r0` in R0. -/
def storeRegs (mem : ℕ → UInt32) (r0 : ℕ) (regs : Regs) (a : ℕ) : UInt32 :=
  if h : r0 ≤ a ∧ a < r0 + 8 then regs ⟨a - r0, Nat.sub_lt_left_of_lt_add h.1 h.2⟩ else mem a

/-- `PendSV_Handler` -/
def pendSVHandler (s : State) : State :=
  let r0 := s.psp - 8
  let mem := storeRegs s.mem r0 s.regs
  -- store register into memory
  let pspArray := Function.update s.pspArray s.currTask r0
  let currTask := s.nextTask
  let r0 := pspArray currTask
  { s with
    mem, pspArray, currTask
    regs := fun k => mem (r0 + k)
    psp := r0 + 8
    pending := false
    written := Function.update s.written s.currTask true
    out := Function.update s.out s.currTask (some (s.regs, s.psp)) }

/-- What happens next: the running task has gone on for a while, or a handler runs. -/
inductive Action
  | task (stores : List (ℕ × UInt32)) (regs : Regs) (psp : ℕ)
  | sysTick
  | pendSV

/-- A task stores to its own stack only, on which it leaves room for the registers. -/
def OnStack (l : Layout) (i : ℕ) (stores : List (ℕ × UInt32)) (psp : ℕ) : Prop :=
  (∀ store ∈ stores, l.stack i ≤ store.1 ∧ store.1 < l.stack i + stackSize) ∧
    l.stack i + 8 ≤ psp ∧ psp ≤ l.stack i + stackSize

instance (l : Layout) (i : ℕ) (stores : List (ℕ × UInt32)) (psp : ℕ) :
    Decidable (OnStack l i stores psp) := instDecidableAnd

/-- PendSV runs before the next SysTick. -/
def step (l : Layout) (s : State) : Action → Option State
  | .task stores regs psp =>
    if OnStack l s.currTask stores psp then
      some { s with
        mem := stores.foldl (fun mem store => Function.update mem store.1 store.2) s.mem
        regs, psp }
    else
      none
  | .sysTick => if s.pending then none else some (sysTickHandler s)
  | .pendSV => if s.pending then some (pendSVHandler s) else none

/-- A context switch loads the stack pointer from an entry that was written before, and the task gets back
what it had when it was last switched out. -/
def Switches (s : State) : Action → Prop
  | .pendSV => s.written s.nextTask = true ∧
      ∀ regs psp, (pendSVHandler s).out s.nextTask = some (regs, psp) →
        (pendSVHandler s).regs = regs ∧ (pendSVHandler s).psp = psp
  | _ => True

/-- PendSV finds a `next_task` below `NUMB_TASKS`. -/
def Numbered (s : State) : Action → Prop
  | .pendSV => s.nextTask < numbTasks
  | _ => True

/-- What was pushed for the task `i` is on its stack. -/
def Saved (l : Layout) (mem : ℕ → UInt32) (pspArray : ℕ → ℕ) (out : ℕ → Option (Regs × ℕ)) (i : ℕ) :
    Prop :=
  l.stack i ≤ pspArray i ∧ pspArray i + 8 ≤ l.stack i + stackSize ∧
    ∀ regs psp, out i = some (regs, psp) →
      psp = pspArray i + 8 ∧ ∀ k : Fin 8, mem (pspArray i + k) = regs k

/-- The tasks that were set up: one runs on its stack, and the other one is saved. -/
structure Sound (l : Layout) (s : State) : Prop where
  curr : s.currTask < numbTasks
  written (i : ℕ) : s.written i = true ↔ i < numbTasks
  room : l.stack s.currTask + 8 ≤ s.psp ∧ s.psp ≤ l.stack s.currTask + stackSize
  saved : ∀ i < numbTasks, i ≠ s.currTask → Saved l s.mem s.pspArray s.out i

section saved

variable {l : Layout} {s : State} {mem mem' : ℕ → UInt32} {pspArray : ℕ → ℕ}
  {out : ℕ → Option (Regs × ℕ)} {regs : Regs} {i j r0 a : ℕ}

theorem storeRegs_self (mem : ℕ → UInt32) (r0 : ℕ) (regs : Regs) (k : Fin 8) :
    storeRegs mem r0 regs (r0 + k) = regs k := by
  have hk : r0 ≤ r0 + k ∧ r0 + k < r0 + 8 := by omega
  rw [storeRegs, dif_pos hk]
  congr 1
  apply Fin.ext
  exact Nat.add_sub_cancel_left ..

theorem storeRegs_of_not (h : ¬ (r0 ≤ a ∧ a < r0 + 8)) : storeRegs mem r0 regs a = mem a := dif_neg h

theorem Saved.congr (h : Saved l mem pspArray out i)
    (hmem : ∀ a, l.stack i ≤ a → a < l.stack i + stackSize → mem' a = mem a) :
    Saved l mem' pspArray out i := by
  obtain ⟨hlow, hhigh, hout⟩ := h
  refine ⟨hlow, hhigh, fun regs psp hregs => ?_⟩
  obtain ⟨hpsp, hsaved⟩ := hout regs psp hregs
  refine ⟨hpsp, fun k => ?_⟩
  rw [hmem _ (by omega) (by omega), hsaved k]

theorem lt_four (h : i < numbTasks) : i < 4 := h.trans (by decide)

/-- After the registers of the running task have been pushed, every task is saved. -/
theorem Sound.pushed (h : Sound l s) (hi : i < numbTasks) :
    Saved l (storeRegs s.mem (s.psp - 8) s.regs) (Function.update s.pspArray s.currTask (s.psp - 8))
      (Function.update s.out s.currTask (some (s.regs, s.psp))) i := by
  obtain ⟨hlow, hhigh⟩ := h.room
  by_cases hcurr : i = s.currTask
  · subst hcurr
    rw [Saved, Function.update_self, Function.update_self]
    refine ⟨by omega, by omega, fun regs psp hregs => ?_⟩
    obtain ⟨rfl, rfl⟩ := Prod.mk.inj (Option.some.inj hregs)
    exact ⟨by omega, storeRegs_self _ _ _⟩
  · rw [Saved, Function.update_of_ne hcurr, Function.update_of_ne hcurr]
    have hdisjoint := l.disjoint i (lt_four hi) s.currTask (lt_four h.curr) hcurr
    apply (h.saved i hi hcurr).congr
    intro a ha ha'
    apply storeRegs_of_not
    omega

theorem Sound.pendSV (h : Sound l s) (hnext : s.nextTask < numbTasks) :
    Switches s .pendSV ∧ Sound l (pendSVHandler s) := by
  obtain ⟨hlow, hhigh, hout⟩ := h.pushed hnext
  refine ⟨⟨(h.written _).mpr hnext, fun regs psp hregs => ?_⟩, ?_⟩
  · obtain ⟨hpsp, hsaved⟩ := hout regs psp hregs
    exact ⟨funext hsaved, hpsp.symm⟩
  · refine ⟨hnext, fun i => ?_, ⟨Nat.add_le_add_right hlow 8, hhigh⟩, fun i hi _ => h.pushed hi⟩
    by_cases hcurr : i = s.currTask
    · subst hcurr
      exact iff_of_true (Function.update_self ..) h.curr
    · exact (Eq.congr_left (Function.update_of_ne hcurr ..)).trans (h.written i)

end saved

section runs

variable {l : Layout} {s s' : State}

theorem sound_initSys (l : Layout) (regs : Regs) : Sound l (initSys l regs) where
  curr := Nat.zero_lt_two
  written i := by
    simp only [initSys, decide_eq_true_iff, numbTasks]
    omega
  room := by
    simp [initSys, stackSize]
  saved := by
    intro i hi hcurr
    have hcurr : i ≠ 0 := hcurr
    obtain rfl : i = 1 := by
      rw [numbTasks] at hi
      omega
    simp [initSys, Saved, stackSize]

theorem stores_of_off {stores : List (ℕ × UInt32)} {a : ℕ} (h : ∀ store ∈ stores, store.1 ≠ a) :
    ∀ mem : ℕ → UInt32,
      stores.foldl (fun mem store => Function.update mem store.1 store.2) mem a = mem a := by
  induction stores with
  | nil => exact fun _ => rfl
  | cons store stores ih =>
    intro mem
    obtain ⟨hstore, hstores⟩ := List.forall_mem_cons.mp h
    rw [List.foldl_cons, ih hstores, Function.update_of_ne hstore.symm]

theorem Sound.task (h : Sound l s) {stores : List (ℕ × UInt32)} {psp : ℕ} (regs : Regs)
    (hon : OnStack l s.currTask stores psp) :
    Sound l { s with
      mem := stores.foldl (fun mem store => Function.update mem store.1 store.2) s.mem
      regs, psp } where
  curr := h.curr
  written := h.written
  room := hon.2
  saved := by
    intro i hi hcurr
    have hdisjoint := l.disjoint i (lt_four hi) s.currTask (lt_four h.curr) hcurr
    apply (h.saved i hi hcurr).congr
    intro a ha ha'
    apply stores_of_off
    intro store hstore hsame
    obtain ⟨hlow, hhigh⟩ := hon.1 store hstore
    omega

theorem task_of_step {stores : List (ℕ × UInt32)} {regs : Regs} {psp : ℕ}
    (hs : step l s (.task stores regs psp) = some s') :
    OnStack l s.currTask stores psp ∧ s' = { s with
      mem := stores.foldl (fun mem store => Function.update mem store.1 store.2) s.mem
      regs, psp } := by
  rw [step] at hs
  by_cases hon : OnStack l s.currTask stores psp
  · rw [if_pos hon] at hs
    exact ⟨hon, (Option.some.inj hs).symm⟩
  · rw [if_neg hon] at hs
    cases hs

theorem sysTick_of_step (hs : step l s .sysTick = some s') : s' = sysTickHandler s := by
  rw [step] at hs
  by_cases hpending : s.pending = true
  · rw [if_pos hpending] at hs
    cases hs
  · rw [if_neg hpending] at hs
    exact (Option.some.inj hs).symm

theorem pendSV_of_step (hs : step l s .pendSV = some s') :
    s.pending = true ∧ s' = pendSVHandler s := by
  rw [step] at hs
  by_cases hpending : s.pending = true
  · rw [if_pos hpending] at hs
    exact ⟨hpending, (Option.some.inj hs).symm⟩
  · rw [if_neg hpending] at hs
    cases hs

theorem Sound.step {a : Action} (h : Sound l s) (ha : Switches s a) (hs : step l s a = some s') :
    Sound l s' := by
  cases a with
  | task stores regs psp =>
    obtain ⟨hon, rfl⟩ := task_of_step hs
    exact h.task regs hon
  | sysTick =>
    obtain rfl := sysTick_of_step hs
    exact ⟨h.curr, h.written, h.room, h.saved⟩
  | pendSV =>
    obtain ⟨-, rfl⟩ := pendSV_of_step hs
    exact (h.pendSV ((h.written _).mp ha.1)).2

/-- In a run from `init_sys` on, all context switches are right exactly when all are to tasks that were set
up. -/
theorem along_switches_iff (l : Layout) (regs : Regs) (as : List Action) :
    Along (step l) Switches (initSys l regs) as ↔ Along (step l) Numbered (initSys l regs) as := by
  refine @Along.iff _ _ _ _ _ (Sound l) ?_ ?_ as _ (sound_initSys l regs)
  · intro s a s' h ha hs
    exact h.step ha hs
  · intro s a s' h _
    cases a with
    | task stores regs psp => exact Iff.rfl
    | sysTick => exact Iff.rfl
    | pendSV => exact ⟨fun ha => (h.written _).mp ha.1, fun ha => (h.pendSV ha).1⟩

/-- Two stacks of four, one behind the other. -/
def layout : Layout where
  stack i := 0x4000000 + i * stackSize
  task _ := 0
  disjoint := by
    intro i _ j _ hne
    rw [stackSize]
    omega

/-- The second switch loads the stack pointer of a task 2. -/
theorem not_switches_second : ¬ Along (step layout) Switches (initSys layout fun _ => 0)
    ([.sysTick, .pendSV, .sysTick] ++ [.pendSV]) := by
  intro hall
  have hrun : ([.sysTick, .pendSV, .sysTick] : List Action).foldlM (step layout)
    (initSys layout fun _ => 0) = some _ := rfl
  have hswitches := hall.at hrun rfl
  exact absurd hswitches.1 (by decide)

/-! ### How far a run gets -/

def isPendSV : Action → Bool
  | .pendSV => true
  | _ => false

/-- The tasks take turns: 0, 1, 2. -/
structure Turn (s : State) (n : ℕ) : Prop where
  curr : s.currTask = n
  next : s.pending = true → s.nextTask = n + 1

theorem Turn.step {n : ℕ} {a : Action} (h : Turn s n) (hn : n < numbTasks)
    (hs : step l s a = some s') : Turn s' (if isPendSV a then n + 1 else n) := by
  cases a with
  | task stores regs psp =>
    obtain ⟨-, rfl⟩ := task_of_step hs
    exact ⟨h.curr, h.next⟩
  | sysTick =>
    obtain rfl := sysTick_of_step hs
    refine ⟨h.curr, fun _ => ?_⟩
    simp only [sysTickHandler, h.curr]
    exact if_neg hn.ne
  | pendSV =>
    obtain ⟨hpending, rfl⟩ := pendSV_of_step hs
    exact ⟨h.next hpending, fun hpending' => absurd hpending' Bool.false_ne_true⟩

theorem Turn.along_iff (as : List Action) :
    ∀ {s s' : State} {n : ℕ}, Turn s n → n < numbTasks → as.foldlM (Scheduler.step l) s = some s' →
      (Along (Scheduler.step l) Numbered s as ↔ n + as.countP isPendSV ≤ 1) := by
  induction as with
  | nil =>
    intro s s' n _ hn _
    exact iff_of_true trivial (Nat.le_of_lt_succ hn)
  | cons a as ih =>
    intro s s' n h hn hrun
    obtain ⟨s₁, hs₁, hrest⟩ := Option.bind_eq_some_iff.mp hrun
    have h₁ := h.step hn hs₁
    rw [along_cons hs₁, List.countP_cons]
    cases a with
    | task stores regs psp => exact (and_iff_right trivial).trans (ih h₁ hn hrest)
    | sysTick => exact (and_iff_right trivial).trans (ih h₁ hn hrest)
    | pendSV =>
      have hnext : s.nextTask = n + 1 := h.next (pendSV_of_step hs₁).1
      have hnumbered : Numbered s .pendSV ↔ n + 1 < numbTasks := by rw [Numbered, hnext]
      have hcount : isPendSV .pendSV = true := rfl
      rw [hnumbered, if_pos hcount]
      have h₁ : Turn s₁ (n + 1) := h₁
      constructor
      · rintro ⟨hlt, halong⟩
        have := (ih h₁ hlt hrest).mp halong
        omega
      · intro hle
        have hlt : n + 1 < numbTasks := by
          rw [numbTasks]
          omega
        exact ⟨hlt, (ih h₁ hlt hrest).mpr (by omega)⟩

theorem along_numbered_iff (l : Layout) (regs : Regs) {as : List Action} {s : State}
    (h : as.foldlM (step l) (initSys l regs) = some s) :
    Along (step l) Numbered (initSys l regs) as ↔ as.countP isPendSV ≤ 1 := by
  have hstart : Turn (initSys l regs) 0 := ⟨rfl, fun hpending => absurd hpending Bool.false_ne_true⟩
  rw [hstart.along_iff as Nat.zero_lt_two h, Nat.zero_add]

end runs

end CodingForFun.Scheduler
