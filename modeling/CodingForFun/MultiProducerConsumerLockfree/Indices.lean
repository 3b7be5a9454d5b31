import CodingForFun.Lib.Tickets
import CodingForFun.MultiProducerConsumerLockfree.Basic

/-!
# The indices are tickets

`Move` says once what a step can do. On each side the fetch-and-add takes a ticket of the counter, and the
write of `ULONG_MAX` gives it up (`Move.tickets_step`); the other side does not notice.
-/

namespace CodingForFun.MultiProducerConsumerLockfree

open Lib

variable {T : Type} {qSize : ℕ} {n : Side → ℕ}

/-! ## What a step can do -/

/-- What the own index is compared with. -/
def limit (qSize : ℕ) : Side → ℕ → ℕ
  | .head => fun last => (last + qSize) % 2 ^ 64
  | .tail => fun last => last

/-- The access to the slot. -/
def access : Side → State T → ℕ → ℕ → T × (ℕ → T)
  | .head => store
  | .tail => load

/-- A step of agent `a`. -/
inductive Move (qSize : ℕ) (n : Side → ℕ) (s : State T) (a : Agent) : State T → Prop
  | call (ptr : ℕ → T) (hpc : s.pc a = .idle) (hlt : a.2 < n a.1) :
      Move qSize n s a { s.goto a .position with ptr := ptr }
  | position (hpc : s.pc a = .position) : Move qSize n s a (s.goto a (.announce (s.pos a.1)))
  | announce (head : ℕ) (hpc : s.pc a = .announce head) :
      Move qSize n s a { s.goto a .fetchAdd with thr := Function.update s.thr a head }
  | fetchAdd (hpc : s.pc a = .fetchAdd) :
      Move qSize n s a { s.goto a (.assign (s.pos a.1)) with
        pos := Function.update s.pos a.1 ((s.pos a.1 + 1) % 2 ^ 64)
        index := Function.update s.index a (s.pos a.1)
        operations := s.operations + 1 }
  | assign (head : ℕ) (hpc : s.pc a = .assign head) :
      Move qSize n s a { s.goto a .own with thr := Function.update s.thr a head }
  | own (hpc : s.pc a = .own) : Move qSize n s a (s.goto a (.test (s.thr a)))
  | wait (head : ℕ) (hpc : s.pc a = .test head) : Move qSize n s a (s.goto a .minStart)
  | pass (head : ℕ) (hpc : s.pc a = .test head)
      (hlt : head < limit qSize a.1 (s.last a.1.other)) : Move qSize n s a (s.goto a .locate)
  | minStart (hpc : s.pc a = .minStart) : Move qSize n s a (s.goto a (.scan 0 (s.pos a.1.other)))
  | visit (j m : ℕ) (hpc : s.pc a = .scan j m) (hj : j < n a.1.other) :
      Move qSize n s a (s.goto a (.scan (j + 1) (min m (s.thr (a.1.other, j)))))
  | publish (j m : ℕ) (hpc : s.pc a = .scan j m) (hj : n a.1.other ≤ j) :
      Move qSize n s a { s.goto a .own with last := Function.update s.last a.1.other m }
  | locate (hpc : s.pc a = .locate) : Move qSize n s a (s.goto a (.slot (s.thr a)))
  | slot (head : ℕ) (hpc : s.pc a = .slot head) (p : T × (ℕ → T))
      (hp : access a.1 s a.2 (head &&& (qSize - 1)) = p) :
      Move qSize n s a { s.goto a (.clear p.1) with
        ptrArray := p.2
        accessed := Function.update s.accessed a.1 (s.accessed a.1 ++ [(s.index a, p.1)]) }
  | clear (ptr : T) (hpc : s.pc a = .clear ptr) :
      Move qSize n s a { s.goto a .idle with
        thr := Function.update s.thr a ulongMax
        completed := Function.update s.completed a.1 (s.completed a.1 ++ [(s.index a, ptr)]) }

theorem operation_cases {s s' : State T} {d : Side} {i : ℕ}
    (h : operation qSize n d (limit qSize d) (access d) s i = some s') :
    Move qSize n s (d, i) s' := by
  cases hpc : s.pc (d, i) with
  | idle => simp [operation, hpc] at h
  | position =>
    simp only [operation, hpc, Option.some.injEq] at h
    exact h ▸ .position hpc
  | announce head =>
    simp only [operation, hpc, Option.some.injEq] at h
    exact h ▸ .announce head hpc
  | fetchAdd =>
    simp only [operation, hpc, Option.some.injEq] at h
    exact h ▸ .fetchAdd hpc
  | assign head =>
    simp only [operation, hpc, Option.some.injEq] at h
    exact h ▸ .assign head hpc
  | own =>
    simp only [operation, hpc, Option.some.injEq] at h
    exact h ▸ .own hpc
  | test head =>
    simp only [operation, hpc, Option.some.injEq] at h
    by_cases hge : head ≥ limit qSize d (s.last d.other)
    · rw [if_pos hge] at h
      exact h ▸ .wait head hpc
    · rw [if_neg hge] at h
      exact h ▸ .pass head hpc (not_le.mp hge)
  | minStart =>
    simp only [operation, hpc, Option.some.injEq] at h
    exact h ▸ .minStart hpc
  | scan j m =>
    simp only [operation, hpc] at h
    by_cases hj : j < n d.other
    · rw [if_pos hj, Option.some.injEq] at h
      have hmin : (if s.thr (d.other, j) < m then s.thr (d.other, j) else m) =
          min m (s.thr (d.other, j)) := by
        rw [min_comm, min_def_lt]
      rw [hmin] at h
      exact h ▸ .visit j m hpc hj
    · rw [if_neg hj, Option.some.injEq] at h
      exact h ▸ .publish j m hpc (not_lt.mp hj)
  | locate =>
    simp only [operation, hpc, Option.some.injEq] at h
    exact h ▸ .locate hpc
  | slot head =>
    simp only [operation, hpc, Option.some.injEq] at h
    exact h ▸ .slot head hpc _ rfl
  | clear ptr =>
    simp only [operation, hpc, Option.some.injEq] at h
    exact h ▸ .clear ptr hpc

theorem call_cases {s s' : State T} {a : Agent} (h : call n s a = some s') :
    s.pc a = .idle ∧ a.2 < n a.1 ∧ s' = s.goto a .position := by
  unfold call at h
  cases hpc : s.pc a with
  | idle =>
    simp only [hpc] at h
    by_cases hlt : a.2 < n a.1
    · rw [if_pos hlt] at h
      exact ⟨rfl, hlt, (Option.some.inj h).symm⟩
    · rw [if_neg hlt] at h
      exact absurd h (Option.some_ne_none _).symm
  | _ => simp [hpc] at h

theorem step_cases {s s' : State T} {act : Action T} (h : step qSize n s act = some s') :
    ∃ a, Move qSize n s a s' := by
  cases act with
  | push i ptr =>
    obtain ⟨hpc, hlt, rfl⟩ := call_cases h
    exact ⟨(.head, i), .call _ hpc hlt⟩
  | pop i =>
    obtain ⟨hpc, hlt, rfl⟩ := call_cases h
    exact ⟨(.tail, i), .call s.ptr hpc hlt⟩
  | go a =>
    obtain ⟨d, i⟩ := a
    refine ⟨(d, i), operation_cases ?_⟩
    cases d with
    | head => exact h
    | tail => exact h

theorem Move.operations_le {s s' : State T} {a : Agent} (h : Move qSize n s a s') :
    s.operations ≤ s'.operations := by
  cases h with
  | fetchAdd => exact Nat.le_succ _
  | _ => exact le_rfl

theorem Move.frame {s s' : State T} {a b : Agent} (h : Move qSize n s a s') (hb : b ≠ a) :
    s'.pc b = s.pc b ∧ s'.thr b = s.thr b ∧ s'.index b = s.index b := by
  cases h <;> simp [State.goto, Function.update_of_ne hb]

/-! ## The indices are tickets -/

/-- From the fetch-and-add to the write of `ULONG_MAX`. -/
def Pc.holds : Pc T → Bool
  | .idle | .position | .announce _ | .fetchAdd => false
  | .assign _ | .own | .test _ | .minStart | .scan _ _ | .locate | .slot _ | .clear _ => true

/-- The index that an agent is using. -/
def State.held (s : State T) (a : Agent) : Option ℕ :=
  if (s.pc a).holds then some (s.index a) else none

/-- The indices of one side: those in use, and those of the calls that have returned. -/
def tickets (s : State T) (d : Side) : Tickets ℕ where
  next := s.pos d
  held i := s.held (d, i)
  done := (s.completed d).map Prod.fst

theorem held_eq_some {s : State T} {a : Agent} {k : ℕ} :
    s.held a = some k ↔ (s.pc a).holds = true ∧ s.index a = k := by
  unfold State.held
  split <;> simp_all

theorem tickets_congr {s s' : State T} {d : Side} (hpos : s'.pos d = s.pos d)
    (hcompleted : s'.completed d = s.completed d) (hheld : ∀ i, s'.held (d, i) = s.held (d, i)) :
    tickets s' d = tickets s d := by
  unfold tickets
  rw [hpos, hcompleted, funext hheld]

theorem Move.tickets_of_ne {s s' : State T} {a : Agent} (h : Move qSize n s a s') {d : Side}
    (hd : d ≠ a.1) : tickets s' d = tickets s d := by
  have hheld : ∀ i, s'.held (d, i) = s.held (d, i) := by
    intro i
    obtain ⟨hpc, -, hindex⟩ := h.frame (b := (d, i)) fun heq => hd (congrArg Prod.fst heq)
    rw [State.held, State.held, hpc, hindex]
  refine tickets_congr ?_ ?_ hheld
  · cases h <;> simp [State.goto, Function.update_of_ne hd]
  · cases h <;> simp [State.goto, Function.update_of_ne hd]

theorem tickets_goto {s s' : State T} {a : Agent} {pc : Pc T}
    (hgoto : s'.pc = Function.update s.pc a pc) (hindex : ∀ b, b ≠ a → s'.index b = s.index b) :
    tickets s' a.1 =
      { next := s'.pos a.1
        held := Function.update (tickets s a.1).held a.2 (if pc.holds then some (s'.index a) else none)
        done := (s'.completed a.1).map Prod.fst } := by
  unfold tickets
  congr 1
  funext i
  unfold State.held
  rw [hgoto]
  by_cases hi : i = a.2
  · subst hi
    rw [Function.update_self, Function.update_self]
  · have hne : (a.1, i) ≠ a := fun heq => hi (congrArg Prod.snd heq)
    rw [Function.update_of_ne hne, Function.update_of_ne hi, hindex _ hne]

theorem tickets_stay {s s' : State T} {a : Agent} {pc : Pc T}
    (hgoto : s'.pc = Function.update s.pc a pc) (hpos : s'.pos = s.pos)
    (hcompleted : s'.completed = s.completed) (hindex : s'.index = s.index)
    (hpc : pc.holds = (s.pc a).holds) : (tickets s a.1).Step (tickets s' a.1) := by
  have hsame : tickets s' a.1 = tickets s a.1 := by
    rw [tickets_goto hgoto fun b _ => congrFun hindex b, hpos, hcompleted, hindex, hpc]
    show Tickets.mk _ (Function.update (tickets s a.1).held a.2 ((tickets s a.1).held a.2)) _ = _
    rw [Function.update_eq_self]
    rfl
  rw [hsame]
  exact .stay

theorem Move.tickets_step {s s' : State T} {a : Agent} (h : Move qSize n s a s')
    (hpos : s.pos a.1 + 1 < 2 ^ 64) (d : Side) : (tickets s d).Step (tickets s' d) := by
  by_cases hd : d = a.1
  · subst hd
    cases h with
    | fetchAdd hpc =>
      have hfree : (tickets s a.1).held a.2 = none := by
        show s.held a = none
        simp [State.held, hpc, Pc.holds]
      convert Tickets.Step.take a.2 hfree using 1
      refine Eq.trans (tickets_goto (s := s) rfl fun b hb => Function.update_of_ne hb _ _) ?_
      dsimp only
      rw [Function.update_self, Function.update_self, Nat.mod_eq_of_lt hpos]
      rfl
    | clear ptr hpc =>
      have hheld : (tickets s a.1).held a.2 = some (s.index a) :=
        held_eq_some.mpr ⟨by rw [hpc]; rfl, rfl⟩
      convert Tickets.Step.finish a.2 _ hheld using 1
      refine Eq.trans (tickets_goto (s := s) rfl fun b _ => rfl) ?_
      dsimp only
      rw [Function.update_self, List.map_append]
      rfl
    | call _ hpc | position hpc | announce _ hpc | assign _ hpc | own hpc | wait _ hpc | pass _ hpc
    | minStart hpc | visit _ _ hpc | publish _ _ hpc | locate hpc | slot _ hpc =>
      apply tickets_stay (s := s)
      case hgoto => rfl
      case hpc => rw [hpc]; rfl
      all_goals rfl
  · rw [h.tickets_of_ne hd]
    exact .stay

end CodingForFun.MultiProducerConsumerLockfree
