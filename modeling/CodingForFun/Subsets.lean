import CodingForFun.Lib.Choices

/-!
# `allsubsets`

The functions of `src/careercup/subsets.py`. Every subset of the rest is there with the first element and
without it, next to each other.
-/

namespace CodingForFun.Subsets

open Lib

variable {α : Type}

/-- What `allsubsets_yield` generates. -/
def allsubsetsYield : List α → List (List α)
  | [] => [[]]
  | head :: seq => (allsubsetsYield seq).flatMap fun tail => [[head] ++ tail, tail]

def allsubsets : List α → List (List α)
  | [] => [[]]
  | head :: tail =>
    let subsets := allsubsets tail
    subsets.foldl (fun results s => (results ++ [[head] ++ s]) ++ [s]) []

theorem allsubsetsYield_eq (seq : List α) : allsubsetsYield seq = allsubsets seq := by
  induction seq with
  | nil => rfl
  | cons head tail ih =>
    rw [allsubsetsYield, allsubsets, ih, List.flatMap_eq_foldl]
    congr 1
    funext results s
    rw [List.append_assoc]
    rfl

theorem allsubsets_perm (seq : List α) : (allsubsets seq).Perm seq.sublists := by
  rw [← allsubsetsYield_eq]
  induction seq with
  | nil => rfl
  | cons head tail ih =>
    rw [allsubsetsYield, List.sublists_cons]
    apply List.Perm.flatMap ih
    intro s _
    exact List.Perm.swap s (head :: s) []

/-- The lists that `allsubsets` returns are the choices of positions, each one once, and the ones that
`allsubsets_yield` generates, in the same order. -/
theorem allsubsets_choices (seq : List α) :
    (allsubsets seq).length = 2 ^ seq.length ∧
      (allsubsets seq : Multiset (List α)) = Finset.univ.val.map (fun S : Finset (Fin seq.length) =>
        ((List.finRange seq.length).filter (· ∈ S)).map seq.get) ∧
      allsubsetsYield seq = allsubsets seq := by
  refine ⟨?_, ?_, allsubsetsYield_eq seq⟩
  · rw [(allsubsets_perm seq).length_eq, List.length_sublists]
  · rw [Multiset.coe_eq_coe.mpr (allsubsets_perm seq), coe_sublists]
    rfl

theorem nodup_allsubsets {seq : List α} (h : seq.Nodup) : (allsubsets seq).Nodup := by
  rw [(allsubsets_perm seq).nodup_iff]
  exact List.nodup_sublists.mpr h

end CodingForFun.Subsets
