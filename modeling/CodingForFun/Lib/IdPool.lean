import Mathlib.Data.Finset.Card
import Mathlib.Data.Finset.Range
import Mathlib.Data.List.Perm.Basic
import Mathlib.Logic.Function.Basic

/-!
# A bitmap of identifiers

Identifiers below `n` are taken by setting their bits and given back by clearing them. `IdsHeld` says
that the bits set are those of the identifiers in a list without repetitions: the holders. Who holds an
identifier may pass it on, which permutes the list (`IdsHeld.perm`), so the number of holders never
exceeds `n` (`IdsHeld.length_le`) wherever the identifiers have got to.
-/

namespace CodingForFun.Lib

variable {bits : ℕ → Bool} {n id : ℕ} {ids ids' : List ℕ}

/-- The identifiers taken are those in the list, each once. -/
structure IdsHeld (bits : ℕ → Bool) (n : ℕ) (ids : List ℕ) : Prop where
  nodup : ids.Nodup
  mem_iff : ∀ id, bits id = true ↔ id ∈ ids
  lt : ∀ id ∈ ids, id < n

theorem IdsHeld.nil (hbits : ∀ id, bits id = false) : IdsHeld bits n [] := by
  refine ⟨List.nodup_nil, fun id => ?_, fun id hid => absurd hid List.not_mem_nil⟩
  simp [hbits id]

theorem IdsHeld.perm (h : IdsHeld bits n ids) (hperm : ids'.Perm ids) : IdsHeld bits n ids' := by
  refine ⟨hperm.nodup_iff.mpr h.nodup, fun id => ?_, fun id hid => ?_⟩
  · rw [h.mem_iff, hperm.mem_iff]
  · exact h.lt id (hperm.mem_iff.mp hid)

theorem IdsHeld.take (h : IdsHeld bits n ids) (hfree : bits id = false) (hlt : id < n) :
    IdsHeld (Function.update bits id true) n (id :: ids) := by
  have hnew : id ∉ ids := by
    intro hmem
    rw [(h.mem_iff id).mpr hmem] at hfree
    exact Bool.noConfusion hfree
  refine ⟨List.nodup_cons.mpr ⟨hnew, h.nodup⟩, fun j => ?_, ?_⟩
  · by_cases hj : j = id
    · subst hj
      simp
    · rw [Function.update_of_ne hj, h.mem_iff, List.mem_cons, or_iff_right hj]
  · intro j hj
    rcases List.mem_cons.mp hj with rfl | hj
    · exact hlt
    · exact h.lt j hj

theorem IdsHeld.release (h : IdsHeld bits n (id :: ids)) :
    IdsHeld (Function.update bits id false) n ids := by
  obtain ⟨hnot, hnodup⟩ := List.nodup_cons.mp h.nodup
  refine ⟨hnodup, fun j => ?_, fun j hj => h.lt j (List.mem_cons_of_mem _ hj)⟩
  by_cases hj : j = id
  · subst hj
    simp [hnot]
  · rw [Function.update_of_ne hj, h.mem_iff, List.mem_cons, or_iff_right hj]

theorem IdsHeld.length_le (h : IdsHeld bits n ids) : ids.length ≤ n := by
  rw [← List.toFinset_card_of_nodup h.nodup, ← Finset.card_range n]
  apply Finset.card_le_card
  intro id hid
  exact Finset.mem_range.mpr (h.lt id (List.mem_toFinset.mp hid))

theorem IdsHeld.length_eq_iff (h : IdsHeld bits n ids) :
    ids.length = n ↔ ∀ id < n, bits id = true := by
  have hsub : ids.toFinset ⊆ Finset.range n :=
    fun id hid => Finset.mem_range.mpr (h.lt id (List.mem_toFinset.mp hid))
  rw [← List.toFinset_card_of_nodup h.nodup]
  constructor
  · intro hcard id hid
    rw [← Finset.card_range n] at hcard
    have heq := Finset.eq_of_subset_of_card_le hsub hcard.ge
    rw [h.mem_iff, ← List.mem_toFinset, heq]
    exact Finset.mem_range.mpr hid
  · intro hall
    have heq : ids.toFinset = Finset.range n := by
      apply hsub.antisymm
      intro id hid
      rw [List.mem_toFinset, ← h.mem_iff]
      exact hall id (Finset.mem_range.mp hid)
    rw [heq, Finset.card_range]

end CodingForFun.Lib
