import Mathlib.Data.Multiset.AddSub
import Mathlib.Data.Multiset.Count
import Mathlib.Logic.Function.Basic

/-!
# Reference counts

A count for each object, raised for a new reference and lowered for one that is dropped, which is not
possible at 0. `Counted` says that the counts are the numbers of references in a multiset. Then a reference
that is held can be dropped (`Counted.put`), and an object whose count is 0 has none
(`Counted.notMem_of_zero`).
-/

namespace CodingForFun.Lib

variable {κ : Type} [DecidableEq κ] {count count' : κ → ℕ} {refs dropped : Multiset κ} {k : κ}

/-- One reference more. -/
def getRef (count : κ → ℕ) (k : κ) : κ → ℕ := Function.update count k (count k + 1)

/-- One reference less. -/
def putRef (count : κ → ℕ) (k : κ) : Option (κ → ℕ) :=
  if count k = 0 then none else some (Function.update count k (count k - 1))

/-- The references of a list are dropped. -/
def putRefs (count : κ → ℕ) (ks : List κ) : Option (κ → ℕ) := ks.foldlM putRef count

/-- Each count is the number of references. -/
def Counted (count : κ → ℕ) (refs : Multiset κ) : Prop := ∀ k, count k = refs.count k

theorem Counted.zero : Counted (fun _ : κ => 0) 0 := fun _ => (Multiset.count_zero _).symm

theorem Counted.get (h : Counted count refs) (k : κ) : Counted (getRef count k) (k ::ₘ refs) := by
  intro j
  unfold getRef
  by_cases hj : j = k
  · subst hj
    rw [Function.update_self, Multiset.count_cons_self, h j]
  · rw [Function.update_of_ne hj, Multiset.count_cons_of_ne hj, h j]

theorem Counted.gets (h : Counted count refs) (ks : List κ) :
    Counted (ks.foldl getRef count) (ks + refs) := by
  induction ks generalizing count refs with
  | nil =>
    rw [Multiset.coe_nil, Multiset.zero_add]
    exact h
  | cons k ks ih =>
    rw [List.foldl_cons, ← Multiset.cons_coe, Multiset.cons_add, ← Multiset.add_cons]
    exact ih (h.get k)

theorem Counted.put (h : Counted count (k ::ₘ refs)) :
    ∃ count', putRef count k = some count' ∧ Counted count' refs := by
  have hk : count k = refs.count k + 1 := by
    rw [h k, Multiset.count_cons_self]
  refine ⟨_, if_neg (by omega), fun j => ?_⟩
  by_cases hj : j = k
  · subst hj
    rw [Function.update_self, hk, Nat.add_sub_cancel]
  · rw [Function.update_of_ne hj, h j, Multiset.count_cons_of_ne hj]

theorem Counted.puts (ks : List κ) (h : Counted count (ks + refs)) :
    ∃ count', putRefs count ks = some count' ∧ Counted count' refs := by
  induction ks generalizing count with
  | nil =>
    rw [Multiset.coe_nil, Multiset.zero_add] at h
    exact ⟨count, rfl, h⟩
  | cons k ks ih =>
    rw [← Multiset.cons_coe, Multiset.cons_add] at h
    obtain ⟨count₁, hput, h₁⟩ := h.put
    obtain ⟨count', hputs, h'⟩ := ih h₁
    refine ⟨count', ?_, h'⟩
    rw [putRefs, List.foldlM_cons, hput]
    exact hputs

theorem Counted.pos (h : Counted count refs) (hk : k ∈ refs) : 0 < count k := by
  rw [h k]
  exact Multiset.count_pos.mpr hk

theorem Counted.notMem_of_zero (h : Counted count refs) (hk : count k = 0) : k ∉ refs := by
  intro hmem
  exact (h.pos hmem).ne' hk

end CodingForFun.Lib
