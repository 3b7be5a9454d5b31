import Mathlib.Data.List.Basic

/-!
# Interleavings

A list is split into two by the set of the positions that one of them gets; the other one gets the rest. The
first element goes to one of the two (`splits_cons`), which is all that is needed about positions.

To take `a` out of a list without choosing is to take each element of it where it comes first (`leftover`). What
is left then is a `b` that the list can be split into together with `a`, but not the only one; it is if it never
happens that an element that goes to `a` could have gone to `b` (`Untied`).
-/

namespace CodingForFun.Lib

variable {α : Type} {a b c : List α} {x : α}

/-- The elements at the positions in `p`. -/
def picked : (ℕ → Bool) → List α → List α
  | _, [] => []
  | p, x :: l => if p 0 then x :: picked (fun i => p (i + 1)) l else picked (fun i => p (i + 1)) l

/-- Two subsequences of `c` that use every position of it, and none twice, are `a` and `b`. -/
def Splits (a b c : List α) : Prop := ∃ p : ℕ → Bool, picked p c = a ∧ picked (fun i => !p i) c = b

theorem splits_nil : Splits a b [] ↔ a = [] ∧ b = [] := by
  constructor
  · intro h
    obtain ⟨p, rfl, rfl⟩ := h
    exact ⟨rfl, rfl⟩
  · intro h
    obtain ⟨rfl, rfl⟩ := h
    exact ⟨fun _ => true, rfl, rfl⟩

theorem Splits.left (h : Splits a b c) (x : α) : Splits (x :: a) b (x :: c) := by
  obtain ⟨p, rfl, rfl⟩ := h
  exact ⟨fun i => i.casesOn true p, rfl, rfl⟩

theorem Splits.right (h : Splits a b c) (x : α) : Splits a (x :: b) (x :: c) := by
  obtain ⟨p, rfl, rfl⟩ := h
  exact ⟨fun i => i.casesOn false p, rfl, rfl⟩

theorem splits_cons : Splits a b (x :: c) ↔
    (∃ a', a = x :: a' ∧ Splits a' b c) ∨ ∃ b', b = x :: b' ∧ Splits a b' c := by
  constructor
  · rintro ⟨p, rfl, rfl⟩
    cases hp : p 0 with
    | true => exact .inl ⟨_, by rw [picked, hp, if_pos rfl], fun i => p (i + 1), rfl, by simp [picked, hp]⟩
    | false => exact .inr ⟨_, by rw [picked, hp]; rfl, fun i => p (i + 1), by simp [picked, hp], rfl⟩
  · rintro (⟨a', rfl, h⟩ | ⟨b', rfl, h⟩)
    · exact h.left x
    · exact h.right x

theorem Splits.length_eq (h : Splits a b c) : c.length = a.length + b.length := by
  induction c generalizing a b with
  | nil =>
    obtain ⟨rfl, rfl⟩ := splits_nil.mp h
    rfl
  | cons x c ih =>
    rcases splits_cons.mp h with ⟨a', rfl, h'⟩ | ⟨b', rfl, h'⟩
    · have hlen := ih h'
      simp only [List.length_cons]
      omega
    · have hlen := ih h'
      simp only [List.length_cons]
      omega

/-! ### Without choosing -/

section leftover

variable [DecidableEq α] {y : α}

/-- What is left of a list when another one is taken out of it, each element where it comes first. -/
def leftover : List α → List α → List α
  | _, [] => []
  | [], x :: c => x :: leftover [] c
  | y :: a, x :: c => if x = y then leftover a c else x :: leftover (y :: a) c

theorem leftover_cons_self (a c : List α) (x : α) : leftover (x :: a) (x :: c) = leftover a c := by
  rw [leftover, if_pos rfl]

theorem leftover_cons_of_ne (h : ∀ a', a ≠ x :: a') (c : List α) :
    leftover a (x :: c) = x :: leftover a c := by
  cases a with
  | nil => rfl
  | cons y a => rw [leftover, if_neg fun heq => h a (by rw [heq])]

theorem splits_of_leftover (h : leftover a c <+: b) (hlen : c.length = a.length + b.length) : Splits a b c := by
  induction c generalizing a b with
  | nil =>
    rw [List.length_nil] at hlen
    exact splits_nil.mpr ⟨List.eq_nil_of_length_eq_zero (by omega), List.eq_nil_of_length_eq_zero (by omega)⟩
  | cons x c ih =>
    by_cases ha : ∃ a', a = x :: a'
    · obtain ⟨a, rfl⟩ := ha
      rw [leftover_cons_self] at h
      simp only [List.length_cons] at hlen
      exact (ih h (by omega)).left x
    · rw [leftover_cons_of_ne (not_exists.mp ha)] at h
      obtain ⟨rest, rfl⟩ := h
      simp only [List.cons_append, List.length_cons] at hlen
      exact (ih (List.prefix_append _ rest) (by omega)).right x

/-- No element that goes to the first list could have gone to the second one. -/
def Untied (a b c : List α) : Prop :=
  ∀ front x back, c = front ++ x :: back → leftover a (front ++ [x]) = leftover a front →
    ¬ (leftover a front ++ [x]) <+: b

theorem Untied.head (h : Untied (x :: a) b (x :: c)) : ∀ b', b ≠ x :: b' := by
  rintro b' rfl
  refine h [] x c rfl ?_ (List.prefix_append [x] b')
  rw [List.nil_append, leftover_cons_self]
  simp only [leftover]

theorem Untied.left (h : Untied (x :: a) b (x :: c)) : Untied a b c := by
  intro front z back hc hleft
  have hnext := h (x :: front) z back (by rw [hc, List.cons_append])
  rw [List.cons_append, leftover_cons_self, leftover_cons_self] at hnext
  exact hnext hleft

theorem Untied.right (h : Untied a (x :: b) (x :: c)) (ha : ∀ a', a ≠ x :: a') : Untied a b c := by
  intro front z back hc hleft hprefix
  have hnext := h (x :: front) z back (by rw [hc, List.cons_append])
  rw [List.cons_append, leftover_cons_of_ne ha, leftover_cons_of_ne ha, hleft] at hnext
  exact hnext rfl (List.cons_prefix_cons.mpr ⟨rfl, hprefix⟩)

theorem Splits.leftover_prefix (h : Splits a b c) (huntied : Untied a b c) : leftover a c <+: b := by
  induction c generalizing a b with
  | nil =>
    rw [leftover]
    exact List.nil_prefix
  | cons x c ih =>
    by_cases ha : ∃ a', a = x :: a'
    · obtain ⟨a, rfl⟩ := ha
      rw [leftover_cons_self]
      rcases splits_cons.mp h with ⟨a', ha', h'⟩ | ⟨b', hb', -⟩
      · obtain ⟨-, rfl⟩ := List.cons.inj ha'
        exact ih h' huntied.left
      · exact absurd hb' (huntied.head b')
    · have ha := not_exists.mp ha
      rw [leftover_cons_of_ne ha]
      rcases splits_cons.mp h with ⟨a', ha', -⟩ | ⟨b', rfl, h'⟩
      · exact absurd ha' (ha a')
      · exact List.cons_prefix_cons.mpr ⟨rfl, ih h' (huntied.right ha)⟩

end leftover

end CodingForFun.Lib
