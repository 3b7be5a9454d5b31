import CodingForFun.Linkedlistproblems.Basic

/-!
# `detectloop`

The list may end or lead into a cycle; all that is asked of the memory is that the links lead to nodes
(`WellLinked`). While the fast pointer is on a node after `2 * k` links, the slow one has followed `k`.
That they meet, or that the fast one comes to the end, before the slow one has followed more links
than there are nodes is `exists_meeting`.
-/

namespace CodingForFun.Linkedlistproblems

open Lib

/-- `fast && fast->next && fast->next->next` -/
def fastGoesOn (h : Memory Node) (fast : Option ℕ) : Except Fault Bool := do
  if fast = none then return false
  let next := (← h.read fast).next
  if next = none then return false
  pure ((← h.read next).next != none)

/-- The loop of `detectloop`, cut off after `fuel` rounds. -/
def detectloopLoop (h : Memory Node) : ℕ → Option ℕ → Option ℕ → Except Fault Bool
  | 0, _, _ => .error .unbounded
  | fuel + 1, slow, fast => do
    if ← fastGoesOn h fast then
      let next := (← h.read fast).next
      let fast := (← h.read next).next
      let slow := (← h.read slow).next
      if fast = slow then
        pure true
      else
        detectloopLoop h fuel slow fast
    else
      pure false

def detectloop (s : State) : Except Fault Bool :=
  if s.list = none then
    pure false
  else
    detectloopLoop s.heap (s.heap.fresh + 1) s.list s.list

section loop

variable {s : State} {k n fuel : ℕ}

theorem fastGoesOn_ptr (h : s.heap.WellLinked s.list) (k : ℕ) :
    fastGoesOn s.heap (ptr s k) = .ok (ptr s (k + 2) != none) := by
  rw [fastGoesOn]
  by_cases hk : ptr s k = none
  · have hend : ptr s (k + 2) = none := follow_none hk (by omega)
    simp [hk, hend]
  · obtain ⟨n, hn, hnext⟩ : ∃ n, s.heap.read (ptr s k) = .ok n ∧ n.next = ptr s (k + 1) := h.read hk
    simp only [if_neg hk, hn, hnext, ok_bind]
    by_cases hk' : ptr s (k + 1) = none
    · have hend : ptr s (k + 2) = none := follow_none hk' (by omega)
      simp [hk', hend]
    · obtain ⟨n', hn', hnext'⟩ : ∃ n, s.heap.read (ptr s (k + 1)) = .ok n ∧
        n.next = ptr s (k + 1 + 1) := h.read hk'
      simp only [if_neg hk', hn', hnext', ok_bind, pure_eq_ok]

theorem detectloopLoop_end (h : s.heap.WellLinked s.list) (hend : ptr s (2 * (k + 1)) = none) :
    detectloopLoop s.heap (fuel + 1) (ptr s k) (ptr s (2 * k)) = .ok false := by
  have hgo := fastGoesOn_ptr h (2 * k)
  rw [show 2 * k + 2 = 2 * (k + 1) by omega, hend] at hgo
  rw [detectloopLoop, hgo]
  rfl

theorem detectloopLoop_step (h : s.heap.WellLinked s.list) (hgoes : ptr s (2 * (k + 1)) ≠ none) :
    detectloopLoop s.heap (fuel + 1) (ptr s k) (ptr s (2 * k)) =
      if ptr s (2 * (k + 1)) = ptr s (k + 1) then .ok true
      else detectloopLoop s.heap fuel (ptr s (k + 1)) (ptr s (2 * (k + 1))) := by
  have hgo := fastGoesOn_ptr h (2 * k)
  rw [show 2 * k + 2 = 2 * (k + 1) by omega, bne_iff_ne.mpr hgoes] at hgo
  have hread : ∀ j < 2 * (k + 1), ∃ n, s.heap.read (ptr s j) = .ok n ∧ n.next = ptr s (j + 1) := by
    intro j hj
    exact h.read fun hnone => hgoes (follow_none hnone hj.le)
  obtain ⟨n₁, hn₁, hnext₁⟩ := hread (2 * k) (by omega)
  obtain ⟨n₂, hn₂, hnext₂⟩ := hread (2 * k + 1) (by omega)
  obtain ⟨n₃, hn₃, hnext₃⟩ := hread k (by omega)
  rw [show 2 * k + 1 + 1 = 2 * (k + 1) by omega] at hnext₂
  simp only [detectloopLoop, hgo, hn₁, hnext₁, hn₂, hnext₂, hn₃, hnext₃, ok_bind, if_pos, pure_eq_ok]

theorem endless_of_meeting (hgoes : ptr s (2 * (k + 1)) ≠ none)
    (hmeet : ptr s (2 * (k + 1)) = ptr s (k + 1)) : Endless s.heap.link s.list := by
  rw [hmeet] at hgoes
  rw [Nat.two_mul] at hmeet
  exact endless_of_repeat hmeet (Nat.zero_lt_succ k) hgoes

/-- The induction is on the rounds until the pointers meet or the fast one comes to the end. -/
theorem detectloopLoop_iff (h : s.heap.WellLinked s.list) :
    ∀ n k fuel, n < fuel →
      (ptr s (2 * (k + n + 1)) = none ∨ ptr s (2 * (k + n + 1)) = ptr s (k + n + 1)) →
      ∃ b, detectloopLoop s.heap fuel (ptr s k) (ptr s (2 * k)) = .ok b ∧
        (b = true ↔ Endless s.heap.link s.list) := by
  intro n
  induction n with
  | zero =>
    intro k fuel hfuel hstop
    obtain ⟨fuel, rfl⟩ := Nat.exists_eq_add_of_lt hfuel
    by_cases hend : ptr s (2 * (k + 1)) = none
    · exact ⟨false, detectloopLoop_end h hend, by simpa using fun hall => hall _ hend⟩
    · have hmeet := hstop.resolve_left hend
      refine ⟨true, ?_, by simpa using endless_of_meeting hend hmeet⟩
      rw [Nat.zero_add, detectloopLoop_step h hend, if_pos hmeet]
  | succ n ih =>
    intro k fuel hfuel hstop
    obtain ⟨fuel, rfl⟩ := Nat.exists_eq_add_of_lt hfuel
    by_cases hend : ptr s (2 * (k + 1)) = none
    · exact ⟨false, detectloopLoop_end h hend, by simpa using fun hall => hall _ hend⟩
    · rw [detectloopLoop_step h hend]
      by_cases hmeet : ptr s (2 * (k + 1)) = ptr s (k + 1)
      · exact ⟨true, if_pos hmeet, by simpa using endless_of_meeting hend hmeet⟩
      · rw [if_neg hmeet]
        apply ih (k + 1) _ (by omega)
        rwa [show k + 1 + n + 1 = k + (n + 1) + 1 by omega]

end loop

/-- `detectloop` returns `TRUE` when following `next` never leads to the null pointer, and else
`FALSE`. -/
theorem detectloop_iff_endless {s : State} (h : s.heap.WellLinked s.list) :
    ∃ b, detectloop s = .ok b ∧ (b = true ↔ ∀ k, follow s.heap.link s.list k ≠ none) := by
  by_cases hlist : s.list = none
  · refine ⟨false, if_pos hlist, ?_⟩
    simpa using ⟨0, hlist⟩
  · rw [detectloop, if_neg hlist]
    obtain ⟨k, hpos, hle, hstop⟩ := h.exists_meeting hlist
    apply detectloopLoop_iff h (k - 1) 0 _ (by omega)
    rwa [show 0 + (k - 1) + 1 = k by omega]

/-- Three nodes, the last of which leads back to the second. -/
def cyclicList : State where
  heap := ((Memory.empty.alloc ⟨some 1, 4⟩).alloc ⟨some 2, 5⟩).alloc ⟨some 1, 6⟩
  list := some 0

theorem detectloop_iff_endless_example : ∃ b, detectloop cyclicList = .ok b ∧
    (b = true ↔ ∀ k, follow cyclicList.heap.link cyclicList.list k ≠ none) := by
  apply detectloop_iff_endless
  have hlink : ∀ a < 3, ∃ b < 3, cyclicList.heap.link a = some b := by decide
  have hnode : ∀ a < 3, (cyclicList.heap.node a).isSome := by decide
  have hreach : ∀ k, ∃ a < 3, follow cyclicList.heap.link cyclicList.list k = some a := by
    intro k
    induction k with
    | zero => exact ⟨0, by decide, rfl⟩
    | succ k ih =>
      obtain ⟨a, ha, hk⟩ := ih
      rw [follow_succ, hk, Option.bind_some]
      exact hlink a ha
  intro k a ha
  obtain ⟨b, hb, hk⟩ := hreach k
  obtain rfl := Option.some.inj (ha.symm.trans hk)
  exact Option.isSome_iff_exists.mp (hnode a hb)

example : detectloop cyclicList = .ok true ∧ detectloop (listOf [4, 5, 6]) = .ok false := ⟨rfl, rfl⟩

end CodingForFun.Linkedlistproblems
