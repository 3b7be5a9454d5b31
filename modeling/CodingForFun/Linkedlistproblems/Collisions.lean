import CodingForFun.Linkedlistproblems.RemoveDuplicates

/-!
# The table under any sequence of insertions

`insertvalue` does not ask `haskey` first: it puts the value behind those with its remainder, equal ones
included, and it looks for the end of the row, so the sixth value of a row is dropped and the table is left
as it was. Hence a row holds the first five of the values with its remainder (`Filled`). The fifth leaves
no cell for `EMPTY`, and then `haskey` stays within the row only for a value that is in it.
-/

namespace CodingForFun.Linkedlistproblems

open Lib

/-- The table after these calls of `insertvalue`, from the one where all the cells are `EMPTY`. -/
def insertAll (vs : List ℤ) : Except Fault Table := vs.foldlM insertvalue fun _ _ => EMPTY

theorem insertvalue_of_full {table : Table} {ws : List ℤ} {v : ℤ} (hv : 0 ≤ v)
    (h : RowHolds (table (v.tmod N)) ws) (hfull : ¬ws.length < 5) : insertvalue table v = .ok table := by
  obtain ⟨hlow, hhigh⟩ := key_bounds hv
  have hnone := h.freeCell_start
  rw [if_neg hfull] at hnone
  simp only [insertvalue, Window.read_ok hlow hhigh, ok_bind, hnone, pure_eq_ok]

/-! ### The rows after the insertions -/

theorem take_classOf_concat (vs : List ℤ) (v key : ℤ) :
    (classOf (vs ++ [v]) key).take 5 =
      (classOf vs key).take 5 ++
        if v.tmod N = key ∧ (classOf vs key).length < 5 then [v] else [] := by
  rw [classOf_concat, List.take_append]
  by_cases hkey : v.tmod N = key
  · by_cases hlt : (classOf vs key).length < 5
    · rw [if_pos hkey, if_pos ⟨hkey, hlt⟩, List.take_of_length_le (l := [v])]
      rw [List.length_singleton]
      omega
    · have hnone : 5 - (classOf vs key).length = 0 := by omega
      rw [hnone, List.take_zero, if_neg fun h => hlt h.2]
  · rw [if_neg hkey, List.take_nil, if_neg fun h => hkey h.1]

/-- Each row holds the first five of the values with its remainder. -/
def Filled (table : Table) (vs : List ℤ) : Prop :=
  ∀ key, 0 ≤ key → key < N → RowHolds (table key) ((classOf vs key).take 5)

theorem filled_empty : Filled (fun _ _ => EMPTY) [] := fun key hlow hhigh =>
  tableHolds_empty.row key hlow hhigh

namespace Filled

variable {table : Table} {vs : List ℤ} {v : ℤ}

theorem insertvalue_ok (h : Filled table vs) (hv : 0 ≤ v) :
    ∃ table', insertvalue table v = .ok table' ∧ Filled table' (vs ++ [v]) := by
  obtain ⟨hlow, hhigh⟩ := key_bounds hv
  have hrow := h _ hlow hhigh
  by_cases hlt : (classOf vs (v.tmod N)).length < 5
  · have hroom : ((classOf vs (v.tmod N)).take 5).length < 5 := by
      rw [List.length_take]
      omega
    obtain ⟨row, htable, hholds⟩ := insertvalue_of_room hv hrow hroom
    refine ⟨_, htable, ?_⟩
    intro key hlow' hhigh'
    rw [take_classOf_concat]
    by_cases hkey : key = v.tmod N
    · rw [hkey, Function.update_self, if_pos ⟨rfl, hlt⟩]
      exact hholds
    · rw [Function.update_of_ne hkey, if_neg fun hv => hkey hv.1.symm, List.append_nil]
      exact h key hlow' hhigh'
  · have hfull : ¬((classOf vs (v.tmod N)).take 5).length < 5 := by
      rw [List.length_take]
      omega
    refine ⟨table, insertvalue_of_full hv hrow hfull, ?_⟩
    intro key hlow' hhigh'
    have hdropped : ¬(v.tmod N = key ∧ (classOf vs key).length < 5) := by
      intro hv
      obtain ⟨rfl, hlt'⟩ := hv
      exact hlt hlt'
    rw [take_classOf_concat, if_neg hdropped, List.append_nil]
    exact h key hlow' hhigh'

theorem haskey_eq (h : Filled table vs) (hv : 0 ≤ v) :
    haskey table v =
      if v ∈ (classOf vs (v.tmod N)).take 5 then .ok true
      else if (classOf vs (v.tmod N)).length < 5 then .ok false else .error .outOfBounds := by
  obtain ⟨hlow, hhigh⟩ := key_bounds hv
  have hroom : ((classOf vs (v.tmod N)).take 5).length < 5 ↔ (classOf vs (v.tmod N)).length < 5 := by
    rw [List.length_take]
    omega
  rw [haskey_of_row hv (h _ hlow hhigh)]
  simp only [hroom]

end Filled

theorem insertAll_ok {vs : List ℤ} (hvs : ∀ v ∈ vs, 0 ≤ v) :
    ∃ table, insertAll vs = .ok table ∧ Filled table vs := by
  refine foldlM_ok (fun done table => Filled table done) vs filled_empty ?_
  intro done v rest table hsplit hfilled
  refine hfilled.insertvalue_ok (hvs v ?_)
  rw [← hsplit]
  exact List.mem_append_right done List.mem_cons_self

/-- The search stays within its row when fewer than five of the values have the remainder, or when the
value is one of the first five that do. -/
theorem haskey_stays_iff {vs : List ℤ} {value : ℤ} (hvs : ∀ v ∈ vs, 0 ≤ v) (hvalue : 0 ≤ value) :
    ∃ table, insertAll vs = .ok table ∧
      ((∃ found, haskey table value = .ok found) ↔
        (classOf vs (value.tmod N)).length < 5 ∨ value ∈ (classOf vs (value.tmod N)).take 5) := by
  obtain ⟨table, htable, hfilled⟩ := insertAll_ok hvs
  refine ⟨table, htable, ?_⟩
  rw [hfilled.haskey_eq hvalue]
  by_cases hmem : value ∈ (classOf vs (value.tmod N)).take 5
  · rw [if_pos hmem]
    exact iff_of_true ⟨true, rfl⟩ (Or.inr hmem)
  · rw [if_neg hmem]
    by_cases hlt : (classOf vs (value.tmod N)).length < 5
    · rw [if_pos hlt]
      exact iff_of_true ⟨false, rfl⟩ (Or.inl hlt)
    · rw [if_neg hlt]
      refine iff_of_false ?_ (not_or_intro hlt hmem)
      intro h
      obtain ⟨found, hfound⟩ := h
      exact absurd hfound (by simp)

/-- The row is full, and the value is its last one. -/
theorem haskey_stays_iff_example :
    ∃ table, insertAll [0, 19, 38, 57, 76] = .ok table ∧
      ((∃ found, haskey table 76 = .ok found) ↔
        (classOf [0, 19, 38, 57, 76] (Int.tmod 76 N)).length < 5 ∨
          76 ∈ (classOf [0, 19, 38, 57, 76] (Int.tmod 76 N)).take 5) :=
  haskey_stays_iff (by decide) (by decide)

/-- The five values fill the row of `0`, and `95` would be in it. -/
theorem haskey_leaves_row :
    ∃ table, insertAll [0, 19, 38, 57, 76] = .ok table ∧ ¬∃ found, haskey table 95 = .ok found := by
  obtain ⟨table, htable, hfilled⟩ := @insertAll_ok [0, 19, 38, 57, 76] (by decide)
  refine ⟨table, htable, ?_⟩
  have hnotMem : (95 : ℤ) ∉ (classOf [0, 19, 38, 57, 76] (Int.tmod 95 N)).take 5 := by decide
  have hfull : ¬(classOf [0, 19, 38, 57, 76] (Int.tmod 95 N)).length < 5 := by decide
  rw [hfilled.haskey_eq (by decide), if_neg hnotMem, if_neg hfull]
  intro h
  obtain ⟨found, hfound⟩ := h
  exact absurd hfound (by simp)

end CodingForFun.Linkedlistproblems
