import Mathlib.Algebra.BigOperators.Fin
import Mathlib.Data.Fintype.Perm
import Mathlib.Data.List.Permutation
import Mathlib.GroupTheory.Perm.Fin

/-!
# Arrangements

The arrangements of `n` values are one for each way to rearrange the `n` positions, so a value that is there
more than once gives the same arrangement more than once. They are a multiset, and a program that lists them
in some order is compared with it. Two recursions build them: every value is put in front of the arrangements
of the others (`arrangements_succ`), or the first one is put everywhere into those of the rest
(`coe_permutations'`).
-/

namespace CodingForFun.Lib

open Equiv (Perm)

variable {α β : Type} {n : ℕ}

/-- The lists of the values of `f`, for all orders of the positions. -/
def arrangements (f : Fin n → α) : Multiset (List α) :=
  ∑ σ : Perm (Fin n), {List.ofFn fun i => f (σ i)}

theorem card_arrangements (f : Fin n → α) : (arrangements f).card = n.factorial := by
  rw [arrangements, Multiset.card_sum, Finset.sum_congr rfl fun σ _ => Multiset.card_singleton _,
    Finset.sum_const, Finset.card_univ, Fintype.card_perm, Fintype.card_fin, smul_eq_mul, mul_one]

theorem count_arrangements [DecidableEq α] (f : Fin n → α) (s : List α) :
    (arrangements f).count s =
      (Finset.univ.filter fun σ : Perm (Fin n) => (List.ofFn fun i => f (σ i)) = s).card := by
  rw [arrangements, Multiset.count_sum', Finset.card_filter]
  apply Finset.sum_congr rfl
  intro σ _
  rw [Multiset.count_singleton]
  simp only [eq_comm]

theorem map_arrangements (g : α → β) (f : Fin n → α) :
    (arrangements f).map (List.map g) = arrangements fun i => g (f i) := by
  rw [arrangements, arrangements, ← Multiset.coe_mapAddMonoidHom, map_sum]
  apply Finset.sum_congr rfl
  intro σ _
  rw [Multiset.coe_mapAddMonoidHom, Multiset.map_singleton, List.map_ofFn]
  rfl

/-! ### Any value in front -/

/-- The values other than the one at `p`, the first one in its place. -/
def others (f : Fin (n + 1) → α) (p : Fin (n + 1)) (x : Fin n) : α := f (Equiv.swap 0 p x.succ)

theorem ofFn_decomposeFin (f : Fin (n + 1) → α) (p : Fin (n + 1)) (e : Perm (Fin n)) :
    (List.ofFn fun i => f (Perm.decomposeFin.symm (p, e) i)) = f p :: List.ofFn fun i => others f p (e i) := by
  rw [List.ofFn_succ, Perm.decomposeFin_symm_apply_zero]
  congr 2
  funext x
  rw [Perm.decomposeFin_symm_apply_succ]
  rfl

theorem arrangements_succ (f : Fin (n + 1) → α) :
    arrangements f = ∑ p, (arrangements (others f p)).map (f p :: ·) := by
  rw [arrangements, ← Perm.decomposeFin.symm.sum_comp, Fintype.sum_prod_type]
  apply Finset.sum_congr rfl
  intro p _
  rw [arrangements, ← Multiset.coe_mapAddMonoidHom, map_sum]
  apply Finset.sum_congr rfl
  intro e _
  rw [Multiset.coe_mapAddMonoidHom, Multiset.map_singleton, ofFn_decomposeFin]

theorem arrangements_single (f : Fin 1 → α) : arrangements f = {[f 0]} := by
  rw [arrangements, Fintype.sum_unique, List.ofFn_succ, List.ofFn_zero]
  rfl

theorem coe_flatMap_range (g : ℕ → List α) (m : ℕ) :
    ((List.range m).flatMap g : Multiset α) = ∑ x : Fin m, (g x : Multiset α) := by
  induction m with
  | zero => rfl
  | succ m ih =>
    rw [List.range_succ, List.flatMap_append, List.flatMap_singleton, ← Multiset.coe_add, ih,
      Fin.sum_univ_castSucc]
    rfl

/-! ### The first value everywhere -/

theorem nodup_arrangements : (arrangements fun i : Fin n => i).Nodup := by
  rw [Multiset.nodup_iff_count_le_one]
  intro s
  rw [count_arrangements, Finset.card_le_one]
  intro σ hσ τ hτ
  rw [Finset.mem_filter] at hσ hτ
  apply Equiv.ext
  exact congrFun (List.ofFn_injective (hσ.2.trans hτ.2.symm))

theorem mem_arrangements {f : Fin n → α} {s : List α} (h : s ∈ arrangements f) : s.Perm (List.ofFn f) := by
  rw [arrangements, Multiset.mem_sum] at h
  obtain ⟨σ, -, hσ⟩ := h
  rw [Multiset.mem_singleton.mp hσ]
  exact σ.ofFn_comp_perm f

theorem length_permutations' (l : List α) : l.permutations'.length = l.length.factorial := by
  rw [← (List.permutations_perm_permutations' l).length_eq, List.length_permutations]

theorem coe_permutations'_finRange (n : ℕ) :
    ((List.finRange n).permutations' : Multiset (List (Fin n))) = arrangements fun i => i := by
  symm
  apply Multiset.eq_of_le_of_card_le
  · rw [Multiset.le_iff_subset nodup_arrangements]
    intro s hs
    rw [Multiset.mem_coe, List.mem_permutations', ← List.ofFn_id]
    exact mem_arrangements hs
  · rw [Multiset.coe_card, length_permutations', List.length_finRange, card_arrangements]

theorem coe_permutations' (f : Fin n → α) :
    ((List.ofFn f).permutations' : Multiset (List α)) = arrangements f := by
  rw [List.ofFn_eq_map, ← List.map_permutations', ← Multiset.map_coe, coe_permutations'_finRange,
    map_arrangements]

end CodingForFun.Lib
