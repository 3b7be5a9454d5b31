import CodingForFun.Lib.Chain
import Mathlib.Algebra.Order.Group.Nat
import Mathlib.Data.List.Infix

/-!
# The two-lock queue of `doublelock_queue.c`

The queue is a linked list that always has a dummy node in front: `head` points to the dummy and
`tail` to the last node. A call is one step (`malloc` and the new node are private to the call, the
rest is one critical section). `dequeue` returns the value of the dummy and leaves `q->head` where it
is, so no call ever removes anything: the queue holds all values enqueued so far (`run_holds`), and
the law of a FIFO queue survives exactly as long as no `dequeue` finds the queue non-empty.
-/

namespace CodingForFun.DoublelockQueue

open Lib

/-- `struct queue` with the heap of `struct node`s; `fresh` is the address that `malloc` returns
next. -/
structure Queue where
  next : ℕ → Option ℕ
  value : ℕ → Int
  fresh : ℕ
  head : ℕ
  tail : ℕ

/-- `head == tail == dummy`. -/
def initial (dummyValue : Int) : Queue where
  next _ := none
  value _ := dummyValue
  fresh := 1
  head := 0
  tail := 0

/-- `enqueue`. -/
def enqueue (q : Queue) (value : Int) : Queue :=
  let new := q.fresh
  { q with
    fresh := q.fresh + 1
    value := Function.update q.value new value
    next := Function.update (Function.update q.next new none) q.tail (some new)
    tail := new }

/-- `q->head->next == NULL`. -/
def isEmpty (q : Queue) : Bool := (q.next q.head).isNone

/-- `dequeue`. -/
def dequeue (q : Queue) : Int × Queue :=
  if isEmpty q then (0, q)
  else
    let val := q.value q.head
    (val, q)

inductive Call
  | enqueue (value : Int)
  | dequeue
  deriving DecidableEq

def step (q : Queue) : Call → Queue
  | .enqueue value => enqueue q value
  | .dequeue => (dequeue q).2

def run (q : Queue) (calls : List Call) : Queue := calls.foldl step q

/-- What the `dequeue` calls that find the queue non-empty return. -/
def returned (q : Queue) : List Call → List Int
  | [] => []
  | .enqueue value :: calls => returned (enqueue q value) calls
  | .dequeue :: calls =>
    if isEmpty q then returned (dequeue q).2 calls else (dequeue q).1 :: returned (dequeue q).2 calls

/-- What the `enqueue` calls are passed. -/
def enqueued : List Call → List Int
  | [] => []
  | .enqueue value :: calls => value :: enqueued calls
  | .dequeue :: calls => enqueued calls

/-- The values in the nodes after the dummy. -/
def Contents (q : Queue) (vs : List Int) : Prop :=
  ∃ l, Seg q.next (q.next q.head) l none ∧ l.map q.value = vs

/-- After any number of the calls, the `dequeue`s that found the queue non-empty have returned the
first values enqueued, in their order, and the queue holds the others. -/
def IsFifo (dummyValue : Int) (calls : List Call) : Prop :=
  ∀ pre, pre <+: calls →
    returned (initial dummyValue) pre =
      (enqueued pre).take (returned (initial dummyValue) pre).length ∧
    Contents (run (initial dummyValue) pre)
      ((enqueued pre).drop (returned (initial dummyValue) pre).length)

/-! ## What the calls do -/

theorem Contents.unique {q : Queue} {vs ws : List Int} (h : Contents q vs) (h' : Contents q ws) :
    vs = ws := by
  obtain ⟨l, hl, rfl⟩ := h
  obtain ⟨l', hl', rfl⟩ := h'
  rw [hl.unique hl']

/-- A list from the dummy to the last node, with `vs` in the nodes after the dummy. -/
structure Holds (dummyValue : Int) (q : Queue) (vs : List Int) : Prop where
  list : ∃ l, Seg q.next (some q.head) (l ++ [q.tail]) none ∧ (∀ a ∈ l ++ [q.tail], a < q.fresh) ∧
    (l ++ [q.tail]).map q.value = dummyValue :: vs

theorem initial_holds (dummyValue : Int) : Holds dummyValue (initial dummyValue) [] :=
  ⟨[], ⟨rfl, rfl⟩, by simp [initial], rfl⟩

variable {dummyValue : Int} {q : Queue} {vs : List Int}

theorem Holds.enqueue (h : Holds dummyValue q vs) (value : Int) :
    Holds dummyValue (enqueue q value) (vs ++ [value]) := by
  obtain ⟨l, hseg, hlt, hvalues⟩ := h.list
  have hnew : q.fresh ∉ l ++ [q.tail] := fun hmem => (hlt _ hmem).ne rfl
  have htail : q.tail ≠ q.fresh := (hlt _ (by simp)).ne
  have hlast : q.next q.tail = none := by
    obtain ⟨m, -, rfl, hend⟩ := seg_append.mp hseg
    exact hend
  refine ⟨l ++ [q.tail], ?_, ?_, ?_⟩
  · show Seg (Function.update _ q.tail (some q.fresh)) (some q.head) (l ++ [q.tail] ++ [q.fresh]) none
    rw [List.append_assoc]
    apply Seg.insertAfter (hseg.update hnew none) hnew
    rw [Function.update_self, Function.update_of_ne htail, hlast]
  · intro a ha
    show a < q.fresh + 1
    rcases List.mem_append.mp ha with ha | ha
    · exact (hlt a ha).trans (Nat.lt_succ_self _)
    · rw [List.mem_singleton.mp ha]
      exact Nat.lt_succ_self _
  · show (l ++ [q.tail] ++ [q.fresh]).map (Function.update q.value q.fresh value) = _
    have hold : (l ++ [q.tail]).map (Function.update q.value q.fresh value) =
        (l ++ [q.tail]).map q.value :=
      List.map_congr_left fun a ha => Function.update_of_ne (hlt a ha).ne _ _
    rw [List.map_append, hold, hvalues]
    simp

theorem dequeue_snd (q : Queue) : (dequeue q).2 = q := by
  unfold dequeue
  split <;> rfl

theorem Holds.split (h : Holds dummyValue q vs) : q.value q.head = dummyValue ∧ Contents q vs := by
  obtain ⟨l, hseg, -, hvalues⟩ := h.list
  obtain ⟨a, rest, hl⟩ : ∃ a rest, l ++ [q.tail] = a :: rest := List.exists_cons_of_ne_nil (by simp)
  rw [hl] at hseg hvalues
  obtain ⟨hhead, hrest⟩ := hseg
  obtain rfl := Option.some.inj hhead
  obtain ⟨hdummy, hvs⟩ := List.cons.inj hvalues
  exact ⟨hdummy, rest, hrest, hvs⟩

theorem isEmpty_iff (h : Contents q vs) : isEmpty q = true ↔ vs = [] := by
  obtain ⟨l, hseg, rfl⟩ := h
  rw [isEmpty, Option.isNone_iff_eq_none, List.map_eq_nil_iff]
  cases l with
  | nil => exact ⟨fun _ => rfl, fun _ => hseg⟩
  | cons a l => simp [hseg.1]

theorem dequeue_nonempty (h : Holds dummyValue q vs) (hvs : vs ≠ []) :
    dequeue q = (dummyValue, q) := by
  have hne : isEmpty q = false := by
    rw [Bool.eq_false_iff]
    exact fun hempty => hvs ((isEmpty_iff h.split.2).mp hempty)
  simp [dequeue, hne, h.split.1]

/-! ## Runs -/

theorem enqueued_append (pre post : List Call) :
    enqueued (pre ++ post) = enqueued pre ++ enqueued post := by
  induction pre with
  | nil => rfl
  | cons c pre ih => cases c <;> simp [enqueued, ih]

theorem returned_append (pre post : List Call) :
    ∀ q, returned q (pre ++ post) = returned q pre ++ returned (run q pre) post := by
  induction pre with
  | nil => intro q; rfl
  | cons c pre ih =>
    intro q
    cases c with
    | enqueue value => exact ih _
    | dequeue =>
      show returned q (.dequeue :: (pre ++ post)) = _
      by_cases hempty : isEmpty q = true
      · rw [returned, if_pos hempty, returned, if_pos hempty]
        exact ih _
      · rw [returned, if_neg hempty, returned, if_neg hempty, List.cons_append]
        exact congrArg _ (ih _)

theorem run_holds (calls : List Call) :
    ∀ q vs, Holds dummyValue q vs → Holds dummyValue (run q calls) (vs ++ enqueued calls) := by
  induction calls with
  | nil => intro q vs h; simpa [run, enqueued] using h
  | cons c calls ih =>
    intro q vs h
    cases c with
    | enqueue value =>
      have hrest := ih _ _ (h.enqueue value)
      rwa [List.append_assoc] at hrest
    | dequeue =>
      have hstep : run q (.dequeue :: calls) = run q calls := by
        show run (dequeue q).2 calls = _
        rw [dequeue_snd]
      rw [hstep]
      exact ih q vs h

theorem run_initial_holds (dummyValue : Int) (calls : List Call) :
    Holds dummyValue (run (initial dummyValue) calls) (enqueued calls) :=
  run_holds calls _ _ (initial_holds dummyValue)

theorem returned_dequeue (pre : List Call) (hpre : enqueued pre ≠ []) :
    returned (initial dummyValue) (pre ++ [.dequeue]) =
      returned (initial dummyValue) pre ++ [dummyValue] := by
  have hholds := run_initial_holds dummyValue pre
  have hne : ¬ isEmpty (run (initial dummyValue) pre) = true :=
    fun hempty => hpre ((isEmpty_iff hholds.split.2).mp hempty)
  rw [returned_append, returned, if_neg hne, dequeue_nonempty hholds hpre, returned]

theorem returned_eq_nil (calls : List Call)
    (h : ∀ pre post, calls = pre ++ .dequeue :: post → enqueued pre = []) :
    returned (initial dummyValue) calls = [] := by
  induction calls using List.reverseRecOn with
  | nil => rfl
  | append_singleton calls c ih =>
    have hcalls : returned (initial dummyValue) calls = [] := by
      apply ih
      rintro pre post rfl
      exact h pre (post ++ [c]) (by simp)
    rw [returned_append, hcalls, List.nil_append]
    cases c with
    | enqueue value => rfl
    | dequeue =>
      have hempty := (isEmpty_iff (run_initial_holds dummyValue calls).split.2).mpr (h calls [] rfl)
      rw [returned, if_pos hempty]
      rfl

/-- **The queue is FIFO exactly when no `dequeue` comes after an `enqueue`.** -/
theorem isFifo_iff (dummyValue : Int) (calls : List Call) :
    IsFifo dummyValue calls ↔
      ∀ pre post, calls = pre ++ .dequeue :: post → enqueued pre = [] := by
  constructor
  · rintro hfifo pre post rfl
    by_contra hpre
    have hprefix : pre ++ [Call.dequeue] <+: pre ++ .dequeue :: post := ⟨post, by simp⟩
    obtain ⟨-, hcontents⟩ := hfifo _ hprefix
    -- One value has been returned, and the queue still holds all of them.
    have hsame := hcontents.unique (run_initial_holds dummyValue _).split.2
    have hlen := congrArg List.length hsame
    rw [returned_dequeue pre hpre, enqueued_append, List.length_drop, List.length_append,
      List.length_append, List.length_singleton] at hlen
    have hpos := List.length_pos_iff.mpr hpre
    omega
  · intro h pre hprefix
    obtain ⟨rest, rfl⟩ := hprefix
    have hnone : returned (initial dummyValue) pre = [] := by
      apply returned_eq_nil
      rintro front post rfl
      exact h front (post ++ rest) (by simp)
    rw [hnone]
    exact ⟨rfl, (run_initial_holds dummyValue pre).split.2⟩

/-- One value enqueued and dequeued: the dummy's value comes back. -/
theorem not_isFifo_enqueue_dequeue : ¬ IsFifo 0 [.enqueue 4, .dequeue] := by
  intro hfifo
  obtain ⟨hreturned, -⟩ := hfifo _ List.prefix_rfl
  exact absurd hreturned (by decide)

end CodingForFun.DoublelockQueue
