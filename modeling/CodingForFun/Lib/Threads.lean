import Mathlib.Algebra.BigOperators.Group.Finset.Piecewise
import Mathlib.Data.Fintype.Basic
import Mathlib.Logic.Relation

/-!
# Threads that take turns

The interleavings of a program are the runs of its step function: an action says which thread goes
on and what is left open otherwise, and `Reaches` collects the states that are reached over allowed
steps. `Along` says that each step of a given run meets a condition: two conditions that agree
wherever an invariant holds agree along every run (`Along.iff`). `tally` counts the threads that
satisfy a predicate, and `tally_change` is how the count moves when one thread does.
-/

namespace CodingForFun.Lib

section runs

variable {σ α : Type} {step : σ → α → Option σ} {ok : σ → α → Prop}

/-- The second state is reached from the first over steps that satisfy `ok`. -/
def Reaches (step : σ → α → Option σ) (ok : σ → α → Prop) : σ → σ → Prop :=
  Relation.ReflTransGen fun s s' => ∃ a, ok s a ∧ step s a = some s'

theorem Reaches.invariant {inv : σ → Prop} {s₀ s : σ} (h : Reaches step ok s₀ s) (h₀ : inv s₀)
    (hstep : ∀ s a s', inv s → ok s a → step s a = some s' → inv s') : inv s := by
  induction h with
  | refl => exact h₀
  | tail _ hlast ih =>
    obtain ⟨a, hok, hs⟩ := hlast
    exact hstep _ a _ ih hok hs

theorem Reaches.of_foldlM [∀ s a, Decidable (ok s a)] (as : List α) :
    ∀ {s₀ s : σ}, as.foldlM (fun s a => if ok s a then step s a else none) s₀ = some s →
      Reaches step ok s₀ s := by
  induction as with
  | nil =>
    intro s₀ s h
    obtain rfl := Option.some.inj h
    exact .refl
  | cons a as ih =>
    intro s₀ s h
    obtain ⟨s₁, hs₁, hrest⟩ := Option.bind_eq_some_iff.mp h
    simp only at hs₁
    by_cases hok : ok s₀ a
    · rw [if_pos hok] at hs₁
      exact .head ⟨a, hok, hs₁⟩ (ih hrest)
    · rw [if_neg hok] at hs₁
      exact absurd hs₁ (Option.some_ne_none s₁).symm

/-- Every step that the run takes from the state on satisfies `P` before it is taken; a run goes on
as long as its actions are possible. -/
def Along (step : σ → α → Option σ) (P : σ → α → Prop) : σ → List α → Prop
  | _, [] => True
  | s, a :: as => ∀ s', step s a = some s' → P s a ∧ Along step P s' as

theorem along_cons {P : σ → α → Prop} {a : α} {as : List α} {s s' : σ} (h : step s a = some s') :
    Along step P s (a :: as) ↔ P s a ∧ Along step P s' as := by
  refine ⟨fun hall => hall s' h, fun hall s'' hs'' => ?_⟩
  obtain rfl := Option.some.inj (h.symm.trans hs'')
  exact hall

theorem Along.at {P : σ → α → Prop} {pre post : List α} {a : α} {s s₁ s₂ : σ}
    (h : Along step P s (pre ++ a :: post)) (hpre : pre.foldlM step s = some s₁)
    (ha : step s₁ a = some s₂) : P s₁ a := by
  induction pre generalizing s with
  | nil =>
    obtain rfl := Option.some.inj hpre
    exact (h s₂ ha).1
  | cons b pre ih =>
    obtain ⟨s', hs', hrest⟩ := Option.bind_eq_some_iff.mp hpre
    exact ih (h s' hs').2 hrest

/-- Two properties that agree on the steps from the states of an invariant agree on its runs. The
invariant is needed after steps with the properties only. -/
theorem Along.iff {P Q : σ → α → Prop} {inv : σ → Prop}
    (hstep : ∀ s a s', inv s → P s a → step s a = some s' → inv s')
    (hPQ : ∀ s a s', inv s → step s a = some s' → (P s a ↔ Q s a)) (as : List α) :
    ∀ s, inv s → (Along step P s as ↔ Along step Q s as) := by
  induction as with
  | nil => exact fun _ _ => Iff.rfl
  | cons a as ih =>
    intro s hs
    apply forall_congr'
    intro s'
    apply imp_congr_right
    intro hs'
    rw [← hPQ s a s' hs hs']
    exact and_congr_right fun hP => ih s' (hstep s a s' hs hP hs')

end runs

section tally

variable {ι : Type} [Fintype ι]

/-- The number of threads that satisfy `p`. -/
def tally (p : ι → Prop) [DecidablePred p] : ℕ := (Finset.univ.filter p).card

variable {p q : ι → Prop} [DecidablePred p] [DecidablePred q]

theorem tally_pos : 0 < tally p ↔ ∃ t, p t := by
  rw [tally, Finset.card_pos]
  simp [Finset.Nonempty]

theorem tally_eq_zero (h : ∀ t, ¬ p t) : tally p = 0 := by
  rw [tally, Finset.card_eq_zero]
  exact Finset.filter_false_of_mem fun t _ => h t

theorem tally_le (h : ∀ t, p t → q t) : tally p ≤ tally q :=
  Finset.card_le_card (Finset.monotone_filter_right _ fun t _ => h t)

theorem tally_lt (h : ∀ t, p t → q t) {t : ι} (hq : q t) (hp : ¬ p t) : tally p < tally q := by
  apply Finset.card_lt_card
  refine ⟨Finset.monotone_filter_right _ fun t _ => h t, fun hsub => ?_⟩
  have ht : t ∈ Finset.univ.filter q := Finset.mem_filter.mpr ⟨Finset.mem_univ t, hq⟩
  exact hp (Finset.mem_filter.mp (hsub ht)).2

theorem tally_change {t : ι} (h : ∀ u, u ≠ t → (p u ↔ q u)) :
    tally q + (if p t then 1 else 0) = tally p + (if q t then 1 else 0) := by
  classical
  have hrest : ∑ u ∈ Finset.univ.erase t, (if q u then 1 else 0) =
      ∑ u ∈ Finset.univ.erase t, (if p u then 1 else 0) := by
    apply Finset.sum_congr rfl
    intro u hu
    rw [if_congr (h u (Finset.ne_of_mem_erase hu)).symm rfl rfl]
  rw [tally, tally, Finset.card_filter, Finset.card_filter,
    ← Finset.add_sum_erase _ _ (Finset.mem_univ t), hrest,
    ← Finset.add_sum_erase _ (fun u => if p u then 1 else 0) (Finset.mem_univ t)]
  omega

end tally

end CodingForFun.Lib
