import CodingForFun.Lib.Loop
import Mathlib.Data.Int.Range
import Mathlib.Data.List.ProdSigma
import Mathlib.Data.List.Nodup

/-!
# Loops over the cells of a rectangle

A loop that counts up goes through the numbers of an interval, and one inside another through the pairs, row by
row.
-/

namespace CodingForFun.Lib

variable {ε σ α β : Type}

theorem range_cons {lo hi : ℤ} (h : lo < hi) : Int.range lo hi = lo :: Int.range (lo + 1) hi := by
  have hlength : (hi - lo).toNat = (hi - (lo + 1)).toNat + 1 := by omega
  unfold Int.range
  rw [hlength, List.range_succ_eq_map, List.map_cons, Int.natCast_zero, Int.add_zero, List.map_map]
  congr 1
  refine List.map_congr_left fun k _ => ?_
  show lo + ((k + 1 : ℕ) : ℤ) = lo + 1 + k
  omega

theorem range_nil {lo hi : ℤ} (h : hi ≤ lo) : Int.range lo hi = [] := by
  unfold Int.range
  rw [Int.toNat_eq_zero.mpr (by omega)]
  rfl

theorem nodup_range (lo hi : ℤ) : (Int.range lo hi).Nodup := by
  refine List.nodup_range.map fun a b hab => ?_
  have hsum : lo + (a : ℤ) = lo + b := hab
  omega

theorem forUp_eq_foldlM (lo hi : ℤ) (body : ℤ → σ → Except ε σ) (s : σ) :
    forUp lo hi body s = (Int.range lo hi).foldlM (fun s i => body i s) s := by
  induction hn : (hi - lo).toNat generalizing lo s with
  | zero =>
    have hle : hi ≤ lo := by omega
    rw [forUp_of_le body hle, range_nil hle]
    rfl
  | succ n ih =>
    have hlt : lo < hi := by omega
    have hlength : (hi - lo).toNat = (hi - (lo + 1)).toNat + 1 := by omega
    rw [range_cons hlt, List.foldlM_cons, forUp, hlength, rounds]
    refine bind_congr fun s' => ?_
    exact ih (lo + 1) s' (by omega)

theorem foldlM_product (as : List α) (bs : List β) (body : α → β → σ → Except ε σ) (s : σ) :
    as.foldlM (fun s a => bs.foldlM (fun s b => body a b s) s) s =
      (as ×ˢ bs).foldlM (fun s p => body p.1 p.2 s) s := by
  induction as generalizing s with
  | nil => rfl
  | cons a as ih =>
    rw [List.foldlM_cons, List.product_cons, List.foldlM_append, List.foldlM_map]
    exact bind_congr fun s' => ih s'

theorem forUp_forUp (m n : ℤ) (body : ℤ → ℤ → σ → Except ε σ) (s : σ) :
    forUp 0 m (fun i s => forUp 0 n (fun j s => body i j s) s) s =
      (Int.range 0 m ×ˢ Int.range 0 n).foldlM (fun s p => body p.1 p.2 s) s := by
  rw [forUp_eq_foldlM, ← foldlM_product]
  congr 1
  funext s i
  exact forUp_eq_foldlM ..

end CodingForFun.Lib
