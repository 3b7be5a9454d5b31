import CodingForFun.Lib.Memory
import Mathlib.Data.Finset.Card
import Mathlib.Data.Finset.Range
import Mathlib.Dynamics.PeriodicPts.Defs

/-!
# Following links

`follow next p k` is the pointer that `k` links lead to from `p`, null once a list has ended. A pointer
that comes back makes the links endless (`endless_of_repeat`). Where the nodes in reach lie below a
bound, a pointer that goes two links at a time has run off the list or has met one that goes one link
at a time before the slow one has made more steps than there are nodes (`exists_meeting`): a multiple
of the length of the cycle that is large enough for the slow one to be in the cycle.

In a memory where the links lead to nodes only (`WellLinked`) every pointer on the way can be read.
-/

namespace CodingForFun.Lib

section links

variable {A : Type} {next : A → Option A} {p : Option A} {i k n d : ℕ}

/-- The pointer behind so many links. -/
def follow (next : A → Option A) (p : Option A) (k : ℕ) : Option A := (fun q => q.bind next)^[k] p

@[simp] theorem follow_zero : follow next p 0 = p := rfl

theorem follow_succ : follow next p (k + 1) = (follow next p k).bind next :=
  Function.iterate_succ_apply' ..

theorem follow_bind : follow next p (k + 1) = follow next (p.bind next) k :=
  Function.iterate_succ_apply ..

theorem follow_none (h : follow next p k = none) (hle : k ≤ n) : follow next p n = none := by
  induction n, hle using Nat.le_induction with
  | base => exact h
  | succ n _ ih => rw [follow_succ, ih, Option.bind_none]

theorem Seg.follow_eq {l : List A} (h : Seg next p l none) (k : ℕ) : follow next p k = l[k]? := by
  induction l generalizing p k with
  | nil =>
    obtain rfl : p = none := h
    exact follow_none rfl (Nat.zero_le k)
  | cons a l ih =>
    obtain ⟨rfl, hrest⟩ := h
    cases k with
    | zero => rfl
    | succ k =>
      rw [follow_bind, Option.bind_some, List.getElem?_cons_succ]
      exact ih hrest k

/-- The links never lead to the null pointer. -/
def Endless (next : A → Option A) (p : Option A) : Prop := ∀ k, follow next p k ≠ none

theorem isPeriodicPt_of_repeat (h : follow next p (d + i) = follow next p i) (hle : i ≤ k) :
    Function.IsPeriodicPt (fun q => q.bind next) d (follow next p k) := by
  have hperiodic : Function.IsPeriodicPt (fun q => q.bind next) d (follow next p i) := by
    rw [follow, Function.iterate_add_apply] at h
    exact h
  have hlater := hperiodic.apply_iterate (k - i)
  rwa [follow, ← Function.iterate_add_apply, Nat.sub_add_cancel hle] at hlater

theorem endless_of_repeat (h : follow next p (d + i) = follow next p i) (hd : 0 < d)
    (hi : follow next p i ≠ none) : Endless next p := by
  intro k hk
  have hback := (isPeriodicPt_of_repeat h le_rfl).mul_const k
  rw [Function.IsPeriodicPt, Function.IsFixedPt, follow, ← Function.iterate_add_apply] at hback
  apply hi
  rw [follow, ← hback]
  have hle : k ≤ d * k := Nat.le_mul_of_pos_left k hd
  exact follow_none hk (by omega)

/-- The number of links is a multiple of the length of the cycle, and leads into it. -/
theorem meeting_of_repeat (h : follow next p (d + i) = follow next p i) (hd : 0 < d) :
    ∃ k, i < k ∧ k ≤ d + i ∧ follow next p (2 * k) = follow next p k := by
  have hdiv := Nat.div_add_mod i d
  have hmod := Nat.mod_lt i hd
  have hmul : d * (i / d + 1) = d * (i / d) + d := Nat.mul_succ _ _
  have hle : i ≤ d * (i / d + 1) := by omega
  have hback := (isPeriodicPt_of_repeat h hle).mul_const (i / d + 1)
  rw [Function.IsPeriodicPt, Function.IsFixedPt, follow, ← Function.iterate_add_apply] at hback
  refine ⟨d * (i / d + 1), by omega, by omega, ?_⟩
  rw [Nat.two_mul]
  exact hback

section bounded

variable {next : ℕ → Option ℕ} {p : Option ℕ}

theorem exists_repeat (hbound : ∀ k a, follow next p k = some a → a < n)
    (hgoes : ∀ k ≤ n, follow next p k ≠ none) :
    ∃ i d, 0 < d ∧ d + i ≤ n ∧ follow next p (d + i) = follow next p i := by
  have hmaps : Set.MapsTo (fun k => (follow next p k).getD 0) (Finset.range (n + 1))
      (Finset.range n) := by
    intro k hk
    have hk := Finset.mem_range.mp (Finset.mem_coe.mp hk)
    obtain ⟨a, ha⟩ := Option.ne_none_iff_exists'.mp (hgoes k (by omega))
    simp only [ha, Option.getD_some, Finset.coe_range, Set.mem_Iio]
    exact hbound k a ha
  obtain ⟨i, hi, j, hj, hne, hsame⟩ :=
    Finset.exists_ne_map_eq_of_card_lt_of_maps_to (by simp) hmaps
  wlog hlt : i < j generalizing i j
  · exact this j hj i hi hne.symm hsame.symm (by omega)
  rw [Finset.mem_range] at hi hj
  refine ⟨i, j - i, by omega, by omega, ?_⟩
  obtain ⟨a, ha⟩ := Option.ne_none_iff_exists'.mp (hgoes i (by omega))
  obtain ⟨b, hb⟩ := Option.ne_none_iff_exists'.mp (hgoes j (by omega))
  simp only [ha, hb, Option.getD_some] at hsame
  rw [Nat.sub_add_cancel hlt.le, ha, hb, hsame]

theorem exists_meeting (hp : p ≠ none) (hbound : ∀ k a, follow next p k = some a → a < n) :
    ∃ k, 1 ≤ k ∧ k ≤ n ∧
      (follow next p (2 * k) = none ∨ follow next p (2 * k) = follow next p k) := by
  by_cases hends : ∃ i ≤ n, follow next p i = none
  · obtain ⟨i, hle, hi⟩ := hends
    have hpos : i ≠ 0 := by
      rintro rfl
      exact hp hi
    exact ⟨i, by omega, hle, .inl (follow_none hi (by omega))⟩
  · push Not at hends
    obtain ⟨i, d, hd, hle, hrepeat⟩ := exists_repeat hbound hends
    obtain ⟨k, hik, hkd, hmeet⟩ := meeting_of_repeat hrepeat hd
    exact ⟨k, by omega, by omega, .inr hmeet⟩

end bounded

end links

/-! ### Links in memory -/

namespace Memory

open LinkedNode

variable {N V : Type} [LinkedNode N V] {m : Memory N} {p : Option ℕ} {l : List (ℕ × V)} {k : ℕ}

/-- Following the links from `p` one meets null pointers and pointers to nodes. -/
def WellLinked (m : Memory N) (p : Option ℕ) : Prop :=
  ∀ k a, follow m.link p k = some a → ∃ n, m.node a = some n

theorem WellLinked.read (h : m.WellLinked p) (hk : follow m.link p k ≠ none) :
    ∃ n, m.read (follow m.link p k) = .ok n ∧ next n = follow m.link p (k + 1) := by
  obtain ⟨a, ha⟩ := Option.ne_none_iff_exists'.mp hk
  obtain ⟨n, hn⟩ := h k a ha
  refine ⟨n, by rw [ha, read_some hn], ?_⟩
  rw [follow_succ, ha, Option.bind_some, link, hn]
  rfl

theorem WellLinked.exists_meeting (h : m.WellLinked p) (hp : p ≠ none) :
    ∃ k, 1 ≤ k ∧ k ≤ m.fresh ∧
      (follow m.link p (2 * k) = none ∨ follow m.link p (2 * k) = follow m.link p k) := by
  apply Lib.exists_meeting hp
  intro k a ha
  obtain ⟨n, hn⟩ := h k a ha
  exact lt_fresh hn

theorem Path.follow_eq (h : m.Path p l none) (k : ℕ) :
    follow m.link p k = (l.map Prod.fst)[k]? :=
  h.seg.follow_eq k

theorem Path.wellLinked (h : m.Path p l none) : m.WellLinked p := by
  intro k a ha
  rw [h.follow_eq] at ha
  obtain ⟨x, hx, rfl⟩ := List.mem_map.mp (List.mem_of_getElem? ha)
  obtain ⟨n, hn, -⟩ := h.node hx
  exact ⟨n, hn⟩

theorem Path.follow_ne_none_iff (h : m.Path p l none) : follow m.link p k ≠ none ↔ k < l.length := by
  rw [h.follow_eq, ne_eq, List.getElem?_eq_none_iff, List.length_map, Nat.not_le]

theorem Path.read (h : m.Path p l none) (hk : k < (l.map Prod.snd).length) :
    ∃ n, m.read (follow m.link p k) = .ok n ∧ value n = (l.map Prod.snd)[k] ∧
      next n = follow m.link p (k + 1) := by
  have hk' : k < l.length := by rwa [List.length_map] at hk
  obtain ⟨n, hn, hnext⟩ := h.wellLinked.read (h.follow_ne_none_iff.mpr hk')
  refine ⟨n, hn, ?_, hnext⟩
  obtain ⟨n', hn', hvalue⟩ := h.node (List.getElem_mem hk')
  have ha : follow m.link p k = some l[k].1 := by
    rw [h.follow_eq, List.getElem?_map, List.getElem?_eq_getElem hk', Option.map_some]
  rw [ha, read_some hn'] at hn
  rw [← Except.ok.inj hn, hvalue, List.getElem_map]

end Memory

end CodingForFun.Lib
