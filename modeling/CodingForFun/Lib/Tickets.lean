import Mathlib.Algebra.Order.Group.Nat
import Mathlib.Data.List.Nodup

/-!
# Tickets

A counter hands out the numbers `0, 1, 2, …`; whoever takes one holds it for a while and then gives it
up as done. A process that looks at the holders one after the other, while tickets are taken and given
up, still ends with a bound below which every ticket is done (`Scanned.mem_done`): a holder it has passed
can only take a ticket that the counter had not reached when it began.
-/

namespace CodingForFun.Lib

/-- The next ticket, the ticket that each participant holds, and the tickets that are done. -/
structure Tickets (ι : Type) where
  next : ℕ
  held : ι → Option ℕ
  done : List ℕ

namespace Tickets

variable {ι : Type}

/-- Every ticket before the next one is either held by one participant or done, once. -/
structure Valid (t : Tickets ι) : Prop where
  held_lt : ∀ {i k}, t.held i = some k → k < t.next
  done_lt : ∀ {k}, k ∈ t.done → k < t.next
  inj : ∀ {i j k}, t.held i = some k → t.held j = some k → i = j
  not_done : ∀ {i k}, t.held i = some k → k ∉ t.done
  all : ∀ {k}, k < t.next → k ∈ t.done ∨ ∃ i, t.held i = some k
  nodup : t.done.Nodup

/-- `m` bounds the tickets of the participants in `seen` from below, also those they have yet to take. -/
structure Scanned (t : Tickets ι) (seen : ι → Prop) (m : ℕ) : Prop where
  le_next : m ≤ t.next
  le : ∀ {i k}, t.held i = some k → seen i → m ≤ k

section scanned

variable {t : Tickets ι} {seen seen' : ι → Prop} {m x : ℕ}

theorem Scanned.zero (t : Tickets ι) (seen : ι → Prop) : t.Scanned seen 0 :=
  ⟨Nat.zero_le _, fun _ _ => Nat.zero_le _⟩

theorem Scanned.start (t : Tickets ι) : t.Scanned (fun _ => False) t.next :=
  ⟨le_rfl, fun _ hseen => hseen.elim⟩

theorem Scanned.mono (h : t.Scanned seen m)
    (hsub : ∀ i k, t.held i = some k → seen' i → seen i) : t.Scanned seen' m :=
  ⟨h.le_next, fun hheld hseen => h.le hheld (hsub _ _ hheld hseen)⟩

theorem Scanned.visit (h : t.Scanned seen m) {j : ι} (hx : ∀ k, t.held j = some k → x ≤ k) :
    t.Scanned (fun i => seen i ∨ i = j) (min m x) := by
  refine ⟨(min_le_left m x).trans h.le_next, ?_⟩
  rintro i k hheld (hseen | rfl)
  · exact (min_le_left m x).trans (h.le hheld hseen)
  · exact (min_le_right m x).trans (hx k hheld)

theorem Scanned.mem_done (h : t.Scanned (fun _ => True) m) (hv : t.Valid) {k : ℕ} (hk : k < m) :
    k ∈ t.done := by
  rcases hv.all (hk.trans_le h.le_next) with hdone | ⟨i, hheld⟩
  · exact hdone
  · have hle : m ≤ k := h.le hheld trivial
    omega

end scanned

variable [DecidableEq ι]

/-- `i` takes the next ticket. -/
def take (t : Tickets ι) (i : ι) : Tickets ι :=
  { t with next := t.next + 1, held := Function.update t.held i (some t.next) }

/-- `i` is done with ticket `k`. -/
def finish (t : Tickets ι) (i : ι) (k : ℕ) : Tickets ι :=
  { t with held := Function.update t.held i none, done := t.done ++ [k] }

/-- A ticket is taken, or given up by its holder, or nothing happens. -/
inductive Step (t : Tickets ι) : Tickets ι → Prop
  | stay : Step t t
  | take (i : ι) (hfree : t.held i = none) : Step t (t.take i)
  | finish (i : ι) (k : ℕ) (hheld : t.held i = some k) : Step t (t.finish i k)

variable {t t' : Tickets ι} {seen : ι → Prop} {m : ℕ}

theorem held_take {i j : ι} {k : ℕ} (h : (t.take i).held j = some k) :
    (j = i ∧ k = t.next) ∨ (j ≠ i ∧ t.held j = some k) := by
  by_cases hj : j = i
  · subst hj
    simp only [Tickets.take, Function.update_self, Option.some.injEq] at h
    exact .inl ⟨rfl, h.symm⟩
  · simp only [Tickets.take, Function.update_of_ne hj] at h
    exact .inr ⟨hj, h⟩

theorem held_finish {i j : ι} {k l : ℕ} (h : (t.finish i k).held j = some l) :
    j ≠ i ∧ t.held j = some l := by
  by_cases hj : j = i
  · subst hj
    simp [Tickets.finish] at h
  · simp only [Tickets.finish, Function.update_of_ne hj] at h
    exact ⟨hj, h⟩

theorem Valid.take (h : t.Valid) {i : ι} (hfree : t.held i = none) : (t.take i).Valid := by
  refine ⟨?_, ?_, ?_, ?_, ?_, h.nodup⟩
  · intro j k hheld
    show k < t.next + 1
    rcases held_take hheld with ⟨-, rfl⟩ | ⟨-, hold⟩
    · exact Nat.lt_succ_self _
    · exact (h.held_lt hold).trans (Nat.lt_succ_self _)
  · intro k hk
    exact (h.done_lt hk).trans (Nat.lt_succ_self _)
  · intro j j' k hj hj'
    rcases held_take hj with ⟨rfl, rfl⟩ | ⟨-, hold⟩ <;> rcases held_take hj' with ⟨rfl, hk⟩ | ⟨-, hold'⟩
    · rfl
    · exact absurd (h.held_lt hold') (lt_irrefl _)
    · rw [hk] at hold
      exact absurd (h.held_lt hold) (lt_irrefl _)
    · exact h.inj hold hold'
  · intro j k hheld hdone
    rcases held_take hheld with ⟨-, rfl⟩ | ⟨-, hold⟩
    · exact absurd (h.done_lt hdone) (lt_irrefl _)
    · exact h.not_done hold hdone
  · intro k hk
    by_cases hnew : k = t.next
    · exact .inr ⟨i, by rw [hnew]; exact Function.update_self _ _ _⟩
    · have hlt : k < t.next := lt_of_le_of_ne (Nat.le_of_lt_succ hk) hnew
      refine (h.all hlt).imp_right ?_
      rintro ⟨j, hheld⟩
      have hj : j ≠ i := by
        rintro rfl
        rw [hfree] at hheld
        exact Option.some_ne_none k hheld.symm
      exact ⟨j, (Function.update_of_ne hj _ _).trans hheld⟩

theorem Valid.finish (h : t.Valid) {i : ι} {k : ℕ} (hheld : t.held i = some k) :
    (t.finish i k).Valid := by
  refine ⟨?_, ?_, ?_, ?_, ?_, ?_⟩
  · intro j l hj
    exact h.held_lt (held_finish hj).2
  · intro l hl
    rcases List.mem_append.mp hl with hl | hl
    · exact h.done_lt hl
    · rw [List.mem_singleton.mp hl]
      exact h.held_lt hheld
  · intro j j' l hj hj'
    exact h.inj (held_finish hj).2 (held_finish hj').2
  · intro j l hj hl
    obtain ⟨hne, hold⟩ := held_finish hj
    rcases List.mem_append.mp hl with hl | hl
    · exact h.not_done hold hl
    · rw [List.mem_singleton.mp hl] at hold
      exact hne (h.inj hold hheld)
  · intro l hl
    show l ∈ t.done ++ [k] ∨ _
    by_cases hlk : l = k
    · exact .inl (by simp [hlk])
    · refine (h.all hl).imp (List.mem_append_left _) ?_
      rintro ⟨j, hj⟩
      have hne : j ≠ i := by
        rintro rfl
        rw [hheld] at hj
        exact hlk (Option.some.inj hj).symm
      exact ⟨j, (Function.update_of_ne hne _ _).trans hj⟩
  · show (t.done ++ [k]).Nodup
    rw [List.nodup_append_comm]
    exact List.nodup_cons.mpr ⟨h.not_done hheld, h.nodup⟩

theorem Valid.step (h : t.Valid) (hstep : t.Step t') : t'.Valid := by
  cases hstep with
  | stay => exact h
  | take i hfree => exact h.take hfree
  | finish i k hheld => exact h.finish hheld

theorem Step.mem_done (hstep : t.Step t') {k : ℕ} (hk : k ∈ t.done) : k ∈ t'.done := by
  cases hstep with
  | stay => exact hk
  | take i _ => exact hk
  | finish i l _ => exact List.mem_append_left _ hk

theorem Step.next_le (hstep : t.Step t') : t.next ≤ t'.next := by
  cases hstep with
  | stay => exact le_rfl
  | take i _ => exact Nat.le_succ _
  | finish i l _ => exact le_rfl

theorem Scanned.step (h : t.Scanned seen m) (hstep : t.Step t') : t'.Scanned seen m := by
  refine ⟨h.le_next.trans hstep.next_le, ?_⟩
  intro i k hheld hseen
  cases hstep with
  | stay => exact h.le hheld hseen
  | take j _ =>
    rcases held_take hheld with ⟨-, rfl⟩ | ⟨-, hold⟩
    · exact h.le_next
    · exact h.le hold hseen
  | finish j l _ => exact h.le (held_finish hheld).2 hseen

end Tickets

end CodingForFun.Lib
