import Mathlib.Algebra.BigOperators.Fin
import Mathlib.Data.Fintype.Powerset
import Mathlib.Data.List.FinRange
import Mathlib.Data.List.Sublists

/-!
# Choices of positions

The choices from `n` values are one list for each set of positions, with the values of the set in order. As in
the arrangements of the values, a value that is there more than once gives the same list more than once. The
sublists of a list are the choices from its elements (`coe_sublists`).
-/

namespace CodingForFun.Lib

variable {α β : Type} {n : ℕ}

/-- The values at the positions of a set, in order. -/
def chosen (f : Fin n → α) (S : Finset (Fin n)) : List α := ((List.finRange n).filter (· ∈ S)).map f

/-- The lists for all sets of positions. -/
def choices (f : Fin n → α) : Multiset (List α) := Finset.univ.val.map (chosen f)

theorem card_choices (f : Fin n → α) : (choices f).card = 2 ^ n := by
  rw [choices, Multiset.card_map, Finset.card_val, Finset.card_univ, Fintype.card_finset, Fintype.card_fin]

theorem map_chosen (g : α → β) (f : Fin n → α) (S : Finset (Fin n)) :
    (chosen f S).map g = chosen (fun i => g (f i)) S := List.map_map

theorem map_choices (g : α → β) (f : Fin n → α) :
    (choices f).map (List.map g) = choices fun i => g (f i) := by
  rw [choices, choices, Multiset.map_map]
  exact Multiset.map_congr rfl fun S _ => map_chosen g f S

theorem mem_chosen {S : Finset (Fin n)} {i : Fin n} : i ∈ chosen (fun i => i) S ↔ i ∈ S := by
  rw [chosen, List.map_id', List.mem_filter, decide_eq_true_iff]
  exact and_iff_right (List.mem_finRange i)

theorem nodup_choices : (choices fun i : Fin n => i).Nodup := by
  apply Multiset.Nodup.map _ Finset.univ.nodup
  intro S T h
  ext i
  rw [← mem_chosen, h, mem_chosen]

theorem coe_sublists_finRange (n : ℕ) :
    ((List.finRange n).sublists : Multiset (List (Fin n))) = choices fun i => i := by
  symm
  apply Multiset.eq_of_le_of_card_le
  · rw [Multiset.le_iff_subset nodup_choices]
    intro s hs
    obtain ⟨S, -, rfl⟩ := Multiset.mem_map.mp hs
    rw [Multiset.mem_coe, List.mem_sublists, chosen, List.map_id']
    exact List.filter_sublist
  · rw [Multiset.coe_card, List.length_sublists, List.length_finRange, card_choices]

theorem coe_sublists (l : List α) : (l.sublists : Multiset (List α)) = choices l.get := by
  have hmap : l = (List.finRange l.length).map l.get := by rw [← List.ofFn_eq_map, List.ofFn_get]
  conv_lhs => rw [hmap]
  rw [List.sublists_map, ← Multiset.map_coe, coe_sublists_finRange, map_choices]

end CodingForFun.Lib
