import CodingForFun.Lib.Arrangements
import CodingForFun.Lib.Sequence

/-!
# `allpermutations`

The functions of `src/careercup/allpermutaitons.py`. A word is the list of its letters. The first letter is put
at every place of every permutation of the others, which are the permutations in the order of
`List.permutations'`; as a multiset they are the arrangements of the letters.
-/

namespace CodingForFun.Allpermutations

open Lib Sequence

variable {α : Type}

/-- `perm[:i] + head + perm[i:]` -/
def putAt (head : α) (perm : List α) (i : ℕ) : List α := slice perm 0 i ++ [head] ++ slice perm i perm.length

/-- `allpermutations`; a word of at most one letter is its only permutation. -/
def allpermutations : List α → List (List α)
  | [] => [[]]
  | [a] => [[a]]
  | head :: tail =>
    let perms := allpermutations tail
    perms.foldl (fun result perm =>
      (List.range (head :: tail).length).foldl (fun result i => result ++ [putAt head perm i]) result) []

/-- What `allpermutations_yield` generates. -/
def allpermutationsYield : List α → List (List α)
  | [] => [[]]
  | [a] => [[a]]
  | head :: tail =>
    (allpermutationsYield tail).flatMap fun permutation =>
      (List.range (head :: tail).length).map (putAt head permutation)

theorem putAt_eq (head : α) (perm : List α) (i : ℕ) :
    putAt head perm i = perm.take i ++ head :: perm.drop i := by
  rw [putAt, ← Int.natCast_zero, slice_nat, slice_nat, List.drop_zero, List.take_length,
    List.append_assoc, List.singleton_append]

theorem map_putAt (head : α) (perm : List α) :
    (List.range (perm.length + 1)).map (putAt head perm) = perm.permutations'Aux head := by
  rw [show putAt head perm = _ from funext (putAt_eq head perm)]
  induction perm with
  | nil => rfl
  | cons a perm ih =>
    rw [List.permutations'Aux, ← ih, List.length_cons, List.range_succ_eq_map, List.map_cons, List.map_map,
      List.map_map]
    rfl

theorem flatMap_putAt (head : α) (tail : List α) :
    (tail.permutations'.flatMap fun perm => (List.range (tail.length + 1)).map (putAt head perm)) =
      (head :: tail).permutations' := by
  apply List.flatMap_congr
  intro perm hperm
  rw [← (List.mem_permutations'.mp hperm).length_eq, map_putAt]

theorem allpermutations_eq (word : List α) : allpermutations word = word.permutations' := by
  induction word using allpermutations.induct with
  | case1 => rfl
  | case2 a => rfl
  | case3 head tail htail ih =>
    rw [allpermutations, ih, ← flatMap_putAt, List.flatMap_eq_foldl]
    · congr 1
      funext result perm
      rw [List.foldl_append_eq_append, ← List.flatMap_def, ← List.map_eq_flatMap]
      rfl
    · exact htail

theorem coe_allpermutations {n : ℕ} (f : Fin n → α) :
    (allpermutations (List.ofFn f) : Multiset (List α)) = arrangements f := by
  rw [allpermutations_eq, coe_permutations']

theorem count_allpermutations [DecidableEq α] (word s : List α) :
    (allpermutations word).count s =
      (Finset.univ.filter fun σ : Equiv.Perm (Fin word.length) => (List.ofFn fun i => word.get (σ i)) = s).card := by
  have hcount := count_arrangements word.get s
  rw [← coe_allpermutations, List.ofFn_get, Multiset.coe_count] at hcount
  convert hcount

theorem allpermutationsYield_eq (word : List α) : allpermutationsYield word = allpermutations word := by
  rw [allpermutations_eq]
  induction word using allpermutationsYield.induct with
  | case1 => rfl
  | case2 a => rfl
  | case3 head tail htail ih =>
    rw [allpermutationsYield, ih, ← flatMap_putAt]
    · rfl
    · exact htail

end CodingForFun.Allpermutations
