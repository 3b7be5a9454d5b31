import Mathlib.Algebra.Order.Group.Int
import Mathlib.Algebra.BigOperators.Group.List.Basic
import Mathlib.Data.Finset.Union
import Mathlib.Data.Int.Interval
import Mathlib.Data.Int.Range

/-!
# Intervals of integers

The interval `(a, b)` covers the integers from `a` up to `b`, the last one excluded. What a list of intervals
covers is counted by their lengths when they are apart (`card_covered`).
-/

namespace CodingForFun.Lib

/-- The integers that some interval covers. -/
def covered (l : List (ℤ × ℤ)) : Finset ℤ := l.toFinset.biUnion fun p => (Int.range p.1 p.2).toFinset

variable {l l' : List (ℤ × ℤ)} {p q : ℤ × ℤ} {x : ℤ}

theorem mem_covered : x ∈ covered l ↔ ∃ p ∈ l, p.1 ≤ x ∧ x < p.2 := by
  simp only [covered, Finset.mem_biUnion, List.mem_toFinset, Int.mem_range_iff]

theorem covered_append (l l' : List (ℤ × ℤ)) : covered (l ++ l') = covered l ∪ covered l' := by
  rw [covered, List.toFinset_append, Finset.union_biUnion]
  rfl

theorem covered_singleton (p : ℤ × ℤ) : covered [p] = (Int.range p.1 p.2).toFinset := by
  rw [covered, List.toFinset_cons, List.toFinset_nil, insert_empty_eq, Finset.singleton_biUnion]

theorem mem_covered_singleton : x ∈ covered [p] ↔ p.1 ≤ x ∧ x < p.2 := by
  rw [covered_singleton, List.mem_toFinset, Int.mem_range_iff]

theorem card_covered_singleton (hp : p.1 ≤ p.2) : ((covered [p]).card : ℤ) = p.2 - p.1 := by
  have hset : covered [p] = Finset.Ico p.1 p.2 := by
    ext x
    rw [mem_covered_singleton, Finset.mem_Ico]
  rw [hset, Int.card_Ico_of_le _ _ hp]

theorem covered_perm (h : l.Perm l') : covered l = covered l' := by
  rw [covered, List.toFinset_eq_of_perm _ _ h, covered]

theorem covered_union_of_meet (h : p.1 ≤ q.1) (hmeet : q.1 ≤ p.2) :
    covered [p] ∪ covered [q] = covered [(p.1, max p.2 q.2)] := by
  ext x
  rw [Finset.mem_union, mem_covered_singleton, mem_covered_singleton, mem_covered_singleton]
  omega

/-- Proper intervals, each of them ending before the next ones start. -/
structure Apart (l : List (ℤ × ℤ)) : Prop where
  proper : ∀ p ∈ l, p.1 ≤ p.2
  before : l.Pairwise fun p q => p.2 < q.1

theorem Apart.tail (h : Apart (p :: l)) : Apart l :=
  ⟨fun q hq => h.proper q (List.mem_cons_of_mem p hq), (List.pairwise_cons.mp h.before).2⟩

theorem Apart.disjoint (h : Apart (p :: l)) : Disjoint (covered [p]) (covered l) := by
  rw [Finset.disjoint_left]
  intro x hx hxl
  obtain ⟨q, hq, hqx, -⟩ := mem_covered.mp hxl
  have hlt := (List.pairwise_cons.mp h.before).1 q hq
  rw [mem_covered_singleton] at hx
  omega

theorem Apart.card_covered (h : Apart l) : ((covered l).card : ℤ) = (l.map fun p => p.2 - p.1).sum := by
  induction l with
  | nil => rfl
  | cons p l ih =>
    have hp := h.proper p List.mem_cons_self
    rw [← List.singleton_append, covered_append, Finset.card_union_of_disjoint h.disjoint, Int.natCast_add,
      ih h.tail, card_covered_singleton hp, List.singleton_append, List.map_cons, List.sum_cons]

theorem Apart.concat (h : Apart l) (hlt : ∀ p ∈ l, p.2 < q.1) (hq : q.1 ≤ q.2) : Apart (l ++ [q]) := by
  refine ⟨fun p hp => ?_, List.pairwise_append.mpr ⟨h.before, List.pairwise_singleton _ _, ?_⟩⟩
  · rcases List.mem_append.mp hp with hp | hp
    · exact h.proper p hp
    · rwa [List.mem_singleton.mp hp]
  · intro p hp r hr
    rw [List.mem_singleton.mp hr]
    exact hlt p hp

theorem Apart.front (h : Apart (l ++ [q])) : Apart l := by
  refine ⟨fun p hp => h.proper p (List.mem_append_left _ hp), ?_⟩
  exact (List.pairwise_append.mp h.before).1

theorem Apart.lt_last (h : Apart (l ++ [q])) : ∀ p ∈ l, p.2 < q.1 := by
  intro p hp
  exact (List.pairwise_append.mp h.before).2.2 p hp q (List.mem_singleton_self q)

end CodingForFun.Lib
