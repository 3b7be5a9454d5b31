import Mathlib.Data.Finset.Card
import Mathlib.Data.Finset.Dedup
import Mathlib.Data.List.Basic
import Mathlib.Data.List.Nodup

/-!
# First occurrences

`firsts vs` are the values of a list without the repeated ones: what is left by a pass that keeps the
values it has not `seen` yet. They are the values of the list, each once, in the order in which they
first occur.
-/

namespace CodingForFun.Lib

variable {α : Type} [DecidableEq α] {seen vs : List α} {u v : α}

/-- One value is looked at. -/
def addNew (seen : List α) (v : α) : List α := if v ∈ seen then seen else seen ++ [v]

def firsts (vs : List α) : List α := vs.foldl addNew []

theorem addNew_of_mem (h : v ∈ seen) : addNew seen v = seen := if_pos h

theorem addNew_of_notMem (h : v ∉ seen) : addNew seen v = seen ++ [v] := if_neg h

theorem mem_addNew : u ∈ addNew seen v ↔ u ∈ seen ∨ u = v := by
  by_cases h : v ∈ seen
  · rw [addNew_of_mem h]
    refine ⟨.inl, fun hu => hu.elim id ?_⟩
    rintro rfl
    exact h
  · rw [addNew_of_notMem h, List.mem_append, List.mem_singleton]

theorem prefix_addNew (seen : List α) (v : α) : seen <+: addNew seen v := by
  by_cases h : v ∈ seen
  · rw [addNew_of_mem h]
  · rw [addNew_of_notMem h]
    exact List.prefix_append seen [v]

theorem prefix_foldl_addNew (vs seen : List α) : seen <+: vs.foldl addNew seen := by
  induction vs generalizing seen with
  | nil => exact List.prefix_rfl
  | cons v vs ih => exact (prefix_addNew seen v).trans (ih _)

theorem firsts_concat (vs : List α) (v : α) : firsts (vs ++ [v]) = addNew (firsts vs) v := by
  rw [firsts, List.foldl_append]
  rfl

theorem mem_firsts : v ∈ firsts vs ↔ v ∈ vs := by
  induction vs using List.reverseRecOn with
  | nil => rfl
  | append_singleton vs u ih => rw [firsts_concat, mem_addNew, ih, List.mem_append, List.mem_singleton]

theorem firsts_pairwise (vs : List α) :
    (firsts vs).Pairwise fun u v => vs.idxOf u < vs.idxOf v := by
  induction vs using List.reverseRecOn with
  | nil => exact List.Pairwise.nil
  | append_singleton vs w ih =>
    have hidx : ∀ u ∈ vs, (vs ++ [w]).idxOf u = vs.idxOf u := fun u hu => List.idxOf_append_of_mem hu
    have hold : (firsts vs).Pairwise fun u v => (vs ++ [w]).idxOf u < (vs ++ [w]).idxOf v := by
      refine ih.imp_of_mem fun hu hv hlt => ?_
      rwa [hidx _ (mem_firsts.mp hu), hidx _ (mem_firsts.mp hv)]
    rw [firsts_concat]
    by_cases hw : w ∈ firsts vs
    · rwa [addNew_of_mem hw]
    · rw [addNew_of_notMem hw]
      refine List.pairwise_append.mpr ⟨hold, List.pairwise_singleton _ w, fun u hu v hv => ?_⟩
      have hu := mem_firsts.mp hu
      rw [List.mem_singleton.mp hv, hidx u hu,
        List.idxOf_append_of_notMem fun hmem => hw (mem_firsts.mpr hmem)]
      exact Nat.lt_of_lt_of_le (List.idxOf_lt_length_of_mem hu) (Nat.le_add_right _ _)

theorem firsts_nodup (vs : List α) : (firsts vs).Nodup := by
  refine (firsts_pairwise vs).imp ?_
  rintro u _ hlt rfl
  exact Nat.lt_irrefl _ hlt

theorem length_filter_firsts (vs : List α) (p : α → Prop) [DecidablePred p] :
    ((firsts vs).filter fun v => decide (p v)).length = (vs.toFinset.filter p).card := by
  rw [← List.toFinset_card_of_nodup ((firsts_nodup vs).filter _)]
  congr 1
  ext v
  rw [List.mem_toFinset, List.mem_filter, mem_firsts, Finset.mem_filter, List.mem_toFinset,
    decide_eq_true_iff]

end CodingForFun.Lib
