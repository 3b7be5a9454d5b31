import Mathlib.Algebra.Order.Floor.Semifield
import Mathlib.Algebra.Ring.Parity
import Mathlib.Data.Int.Log
import Mathlib.Data.Nat.Size
import Mathlib.Data.Rat.Floor
import Mathlib.Tactic.FieldSimp
import Mathlib.Tactic.Linarith
import Mathlib.Tactic.Positivity

/-!
# Rounding to binary64

The number of the format that is nearest to a rational number, an even one when two are as near (`toDouble`):
53 binary digits, the last of them no smaller than `2 ^ -1074`. There is no largest one here. What is below
an integral multiple of the last digit is told by the middle before it (`toDouble_lt_iff`), and from that
follows when the integral part of a quotient of two numbers survives the rounding (`floor_toDouble_div_iff`).
-/

namespace CodingForFun.Lib

/-! ### The nearest integer -/

/-- A half goes to the even one. -/
def roundHalfEven (x : ℚ) : ℤ :=
  if x - ⌊x⌋ < 1 / 2 ∨ x - ⌊x⌋ = 1 / 2 ∧ Even ⌊x⌋ then ⌊x⌋ else ⌊x⌋ + 1

variable {x : ℚ} {K : ℤ}

theorem roundHalfEven_lt_iff : roundHalfEven x < K ↔ x < K - 1 / 2 ∨ x = K - 1 / 2 ∧ Odd K := by
  have hlow := Int.floor_le x
  have hhigh := Int.lt_floor_add_one x
  rcases lt_trichotomy (⌊x⌋ + 1) K with hlt | rfl | hgt
  · have hK : (⌊x⌋ : ℚ) + 1 + 1 ≤ K := by exact_mod_cast hlt
    refine iff_of_true ?_ (Or.inl (by linarith))
    unfold roundHalfEven
    split <;> omega
  · have hlt : x - ⌊x⌋ < 1 / 2 ↔ x < (⌊x⌋ + 1 : ℤ) - 1 / 2 := by
      push_cast
      constructor <;> intro h <;> linarith
    have heq : x - ⌊x⌋ = 1 / 2 ↔ x = (⌊x⌋ + 1 : ℤ) - 1 / 2 := by
      push_cast
      constructor <;> intro h <;> linarith
    rw [← hlt, ← heq, odd_add_one]
    unfold roundHalfEven
    split
    · next h => exact iff_of_true (Int.lt_succ _) h
    · next h => exact iff_of_false (lt_irrefl _) h
  · have hK : (K : ℚ) ≤ ⌊x⌋ := by exact_mod_cast Int.lt_add_one_iff.mp hgt
    refine iff_of_false ?_ ?_
    · unfold roundHalfEven
      split <;> omega
    · intro h
      rcases h with h | ⟨h, -⟩ <;> linarith

theorem le_roundHalfEven (h : (K : ℚ) ≤ x) : K ≤ roundHalfEven x := by
  refine not_lt.mp fun hlt => ?_
  rcases roundHalfEven_lt_iff.mp hlt with hlt | ⟨heq, -⟩ <;> linarith

theorem roundHalfEven_le_add (x : ℚ) : (roundHalfEven x : ℚ) ≤ x + 1 / 2 := by
  have hlow := Int.floor_le x
  unfold roundHalfEven
  split
  · linarith
  · next h =>
    have hhalf : 1 / 2 ≤ x - ⌊x⌋ := not_lt.mp fun hlt => h (Or.inl hlt)
    push_cast
    linarith

theorem roundHalfEven_eq (hlow : (K : ℚ) ≤ x) (hhigh : x < K + 1 / 2) : roundHalfEven x = K := by
  refine le_antisymm (Int.lt_add_one_iff.mp (roundHalfEven_lt_iff.mpr (Or.inl ?_))) (le_roundHalfEven hlow)
  push_cast
  linarith

/-! ### Numbers of the format -/

/-- The weight of the last digit. -/
def ulp (x : ℚ) : ℚ := 2 ^ max (Int.log 2 x - 52) (-1074)

def toDouble (x : ℚ) : ℚ := roundHalfEven (x / ulp x) * ulp x

theorem ulp_pos (x : ℚ) : 0 < ulp x := zpow_pos zero_lt_two _

theorem toDouble_lt_iff :
    toDouble x < K * ulp x ↔ x < (K - 1 / 2) * ulp x ∨ x = (K - 1 / 2) * ulp x ∧ Odd K := by
  rw [toDouble, mul_lt_mul_iff_left₀ (ulp_pos x), Int.cast_lt, roundHalfEven_lt_iff,
    div_lt_iff₀ (ulp_pos x), div_eq_iff (ulp_pos x).ne']

theorem le_toDouble (h : K * ulp x ≤ x) : K * ulp x ≤ toDouble x := by
  have hround := le_roundHalfEven ((le_div_iff₀ (ulp_pos x)).mpr h)
  exact mul_le_mul_of_nonneg_right (Int.cast_le.mpr hround) (ulp_pos x).le

theorem toDouble_nonneg (h : 0 ≤ x) : 0 ≤ toDouble x := by
  have hzero := @le_toDouble x 0
  rw [Int.cast_zero, zero_mul] at hzero
  exact hzero h

theorem toDouble_le_add (x : ℚ) : toDouble x ≤ x + ulp x / 2 := by
  have hround := mul_le_mul_of_nonneg_right (roundHalfEven_le_add (x / ulp x)) (ulp_pos x).le
  rw [add_mul, div_mul_cancel₀ x (ulp_pos x).ne'] at hround
  rw [toDouble]
  linarith

theorem toDouble_eq (hlow : K * ulp x ≤ x) (hhigh : x < (K + 1 / 2) * ulp x) : toDouble x = K * ulp x := by
  rw [toDouble, roundHalfEven_eq ((le_div_iff₀ (ulp_pos x)).mpr hlow) ((div_lt_iff₀ (ulp_pos x)).mpr hhigh)]

/-- The last digit, by the number of digits of the integral part; for a number between a half and one this
has none. -/
theorem ulp_of_half_le (h : 1 / 2 ≤ x) : ulp x = 2 ^ ((⌊x⌋₊.size : ℤ) - 53) := by
  have hpos : 0 < x := by linarith
  have hlow : (2 : ℚ) ^ ((⌊x⌋₊.size : ℤ) - 1) ≤ x := by
    rcases Nat.eq_zero_or_pos ⌊x⌋₊.size with hzero | hsize
    · rw [hzero, Nat.cast_zero, zero_sub, zpow_neg_one, ← one_div]
      exact h
    · have hdigits : 2 ^ (⌊x⌋₊.size - 1) ≤ ⌊x⌋₊ := Nat.lt_size.mp (by omega)
      have hcast : (⌊x⌋₊.size : ℤ) - 1 = ((⌊x⌋₊.size - 1 : ℕ) : ℤ) := by omega
      rw [hcast, zpow_natCast]
      exact le_trans (by exact_mod_cast hdigits) (Nat.floor_le hpos.le)
  have hhigh : x < (2 : ℚ) ^ (⌊x⌋₊.size : ℤ) := by
    have hdigits : ⌊x⌋₊ + 1 ≤ 2 ^ ⌊x⌋₊.size := Nat.lt_size_self _
    rw [zpow_natCast]
    exact (Nat.lt_floor_add_one x).trans_le (by exact_mod_cast hdigits)
  have hlog : Int.log 2 x = (⌊x⌋₊.size : ℤ) - 1 := by
    have hle := (Int.zpow_le_iff_le_log one_lt_two hpos).mp hlow
    have hlt := (Int.lt_zpow_iff_log_lt one_lt_two hpos).mp hhigh
    omega
  rw [ulp, hlog]
  congr 1
  omega

theorem two_pow_mul_ulp (h : 1 / 2 ≤ x) (hsize : ⌊x⌋₊.size ≤ 53) :
    ((2 ^ (53 - ⌊x⌋₊.size) : ℕ) : ℚ) * ulp x = 1 := by
  have hexp : ((53 - ⌊x⌋₊.size : ℕ) : ℤ) + (⌊x⌋₊.size - 53) = 0 := by omega
  rw [ulp_of_half_le h, Nat.cast_pow, Nat.cast_ofNat, ← zpow_natCast, ← zpow_add₀ two_ne_zero, hexp,
    zpow_zero]

theorem half_ulp (h : 1 / 2 ≤ x) (hsize : ⌊x⌋₊.size ≤ 53) :
    ulp x / 2 = 1 / (2 ^ (54 - ⌊x⌋₊.size) : ℕ) := by
  have hpow : 2 ^ (54 - ⌊x⌋₊.size) = 2 ^ (53 - ⌊x⌋₊.size) * 2 := by
    rw [← pow_succ]
    congr 1
    omega
  have hone := two_pow_mul_ulp h hsize
  rw [hpow, Nat.cast_mul, eq_div_iff (by positivity), Nat.cast_ofNat]
  linarith

theorem ulp_of_size_gt (h : 1 / 2 ≤ x) (hsize : 53 < ⌊x⌋₊.size) :
    ulp x = (2 ^ (⌊x⌋₊.size - 53) : ℕ) := by
  have hexp : (⌊x⌋₊.size : ℤ) - 53 = ((⌊x⌋₊.size - 53 : ℕ) : ℤ) := by omega
  rw [ulp_of_half_le h, hexp, zpow_natCast, Nat.cast_pow, Nat.cast_ofNat]

theorem toDouble_lt_one (hpos : 0 ≤ x) (h : x < 1 / 2) : toDouble x < 1 := by
  have hulp : ulp x ≤ 1 := by
    have hexp : max (Int.log 2 x - 52) (-1074) ≤ 0 := by
      rcases hpos.eq_or_lt with rfl | hpos
      · rw [Int.log_zero_right]
        decide
      · have hlog : Int.log 2 x < 0 := by
          refine (Int.lt_zpow_iff_log_lt one_lt_two hpos).mp ?_
          rw [zpow_zero]
          linarith
        omega
    exact zpow_le_one_of_nonpos₀ one_le_two hexp
  have hadd := toDouble_le_add x
  linarith

theorem toDouble_lt_two_pow_iff (h : 0 ≤ x) (e : ℕ) : toDouble x < 2 ^ e ↔ ⌊toDouble x⌋₊.size ≤ e := by
  rw [Nat.size_le, Nat.floor_lt (toDouble_nonneg h), Nat.cast_pow, Nat.cast_ofNat]

/-! ### The integral part of a quotient -/

/-- The last digit has the weight `1 / N`. Below the next integer is what is below the middle before it. -/
theorem floor_toDouble_of_fraction {q N : ℕ} (hN : N * ulp x = 1) (hq : (q : ℚ) ≤ x) :
    ⌊toDouble x⌋₊ ≤ q ↔ x < q + 1 - ulp x / 2 ∨ x = q + 1 - ulp x / 2 ∧ Odd (q + 1) ∧ Odd N := by
  have hnonneg : 0 ≤ x := q.cast_nonneg.trans hq
  have hnext : (((q + 1) * N : ℕ) : ℤ) * ulp x = q + 1 := by
    push_cast
    rw [mul_assoc, hN, mul_one]
  have hmiddle : ((((q + 1) * N : ℕ) : ℤ) - 1 / 2) * ulp x = q + 1 - ulp x / 2 := by
    rw [sub_mul, hnext]
    ring
  have hiff := @toDouble_lt_iff x ((q + 1) * N : ℕ)
  rw [hnext, hmiddle, Int.odd_coe_nat, Nat.odd_mul] at hiff
  rw [← Nat.lt_add_one_iff, Nat.floor_lt (toDouble_nonneg hnonneg), Nat.cast_add_one, hiff]

theorem le_floor_toDouble {q N : ℕ} (hN : N * ulp x = 1) (hq : (q : ℚ) ≤ x) : q ≤ ⌊toDouble x⌋₊ := by
  have hsame : ((q * N : ℕ) : ℤ) * ulp x = q := by
    push_cast
    rw [mul_assoc, hN, mul_one]
  have hle := @le_toDouble x (q * N : ℕ)
  rw [hsame] at hle
  exact Nat.le_floor (hle hq)

theorem floor_toDouble_of_integer {q U : ℕ} (hU : ulp x = U) (htwo : 2 ≤ U) (hlow : (q : ℚ) ≤ x)
    (hhigh : x < q + 1) : ⌊toDouble x⌋₊ = q ↔ U ∣ q := by
  constructor
  · intro h
    have hpos : 0 ≤ roundHalfEven (x / ulp x) :=
      le_roundHalfEven (by
        rw [Int.cast_zero]
        exact div_nonneg (q.cast_nonneg.trans hlow) (ulp_pos x).le)
    obtain ⟨k, hk⟩ := Int.eq_ofNat_of_zero_le hpos
    rw [toDouble, hk, hU, Int.cast_natCast, ← Nat.cast_mul, Nat.floor_natCast] at h
    exact Dvd.intro_left k h
  · intro h
    obtain ⟨t, rfl⟩ := h
    have hsame : (t : ℤ) * ulp x = (U * t : ℕ) := by
      rw [hU]
      push_cast
      ring
    have hdouble : toDouble x = (t : ℤ) * ulp x := by
      refine toDouble_eq (by rwa [hsame]) ?_
      have htwo : (2 : ℚ) ≤ U := by exact_mod_cast htwo
      rw [add_mul, hsame, hU]
      linarith
    rw [hdouble, hsame, Nat.floor_natCast]

/-- When the integral part of `m / n` is still that after rounding: the fraction that is missing to the next
integer is more than half of the last digit, or the last digit divides the integral part. -/
def FloorExact (m n : ℕ) : Prop :=
  if (m / n).size ≤ 53 then
    n < (n - m % n) * 2 ^ (54 - (m / n).size) ∨
      n = (n - m % n) * 2 ^ (54 - (m / n).size) ∧ (m / n).size = 53 ∧ Even (m / n)
  else
    2 ^ ((m / n).size - 53) ∣ m / n

theorem floorExact_of_two_mul_lt {m n : ℕ} (h : 2 * m < n) : FloorExact m n := by
  have hm : m < n := by omega
  have hroom : (n - m) * 2 ≤ (n - m) * 2 ^ 54 := Nat.mul_le_mul_left _ (Nat.le_self_pow (by decide) 2)
  rw [FloorExact, Nat.div_eq_of_lt hm, Nat.mod_eq_of_lt hm, Nat.size_zero, if_pos (Nat.zero_le 53)]
  exact Or.inl (by omega)

theorem odd_two_pow_sub {s : ℕ} (hs : s ≤ 53) : Odd (2 ^ (53 - s)) ↔ s = 53 := by
  rw [← Nat.not_even_iff_odd, Nat.even_pow, and_iff_right even_two]
  omega

theorem quotient_gap (m : ℕ) {n : ℕ} (hn : 0 < n) :
    ((m / n : ℕ) : ℚ) + 1 - m / n = (n - m % n : ℕ) / n := by
  have hn' : (n : ℚ) ≠ 0 := Nat.cast_ne_zero.mpr hn.ne'
  have hm : (m : ℚ) = (m / n : ℕ) * n + (m % n : ℕ) := by exact_mod_cast (Nat.div_add_mod' m n).symm
  rw [Nat.cast_sub (Nat.mod_lt m hn).le, eq_div_iff hn', sub_mul, div_mul_cancel₀ _ hn']
  linarith

theorem floor_toDouble_of_two_mul_lt {m n : ℕ} (h : 2 * m < n) : ⌊toDouble (m / n)⌋₊ = m / n := by
  have hn : (0 : ℚ) < n := Nat.cast_pos.mpr (by omega)
  have hsmall : (m : ℚ) / n < 1 / 2 := by
    have hcast : (2 * m : ℚ) < n := by exact_mod_cast h
    rw [div_lt_iff₀ hn]
    linarith
  rw [Nat.div_eq_of_lt (by omega), Nat.floor_eq_zero]
  exact toDouble_lt_one (by positivity) hsmall

theorem half_le_div {m n : ℕ} (hn : 0 < n) (h : n ≤ 2 * m) : 1 / 2 ≤ (m : ℚ) / n := by
  have hcast : (n : ℚ) ≤ 2 * m := by exact_mod_cast h
  rw [le_div_iff₀ (Nat.cast_pos.mpr hn)]
  linarith

theorem floor_toDouble_of_size_le {m n : ℕ} (hn : 0 < n) (hlarge : n ≤ 2 * m) (hsize : (m / n).size ≤ 53) :
    ⌊toDouble (m / n)⌋₊ = m / n ↔
      n < (n - m % n) * 2 ^ (54 - (m / n).size) ∨
        n = (n - m % n) * 2 ^ (54 - (m / n).size) ∧ (m / n).size = 53 ∧ Even (m / n) := by
  have hn' : (0 : ℚ) < n := Nat.cast_pos.mpr hn
  have hfloor : ⌊(m : ℚ) / n⌋₊ = m / n := Nat.floor_div_eq_div m n
  have hhalf := half_le_div hn hlarge
  have hN := two_pow_mul_ulp hhalf (hfloor.symm ▸ hsize)
  have hmiddle := half_ulp hhalf (hfloor.symm ▸ hsize)
  have hlow : ((m / n : ℕ) : ℚ) ≤ m / n := by
    rw [← hfloor]
    exact Nat.floor_le (by positivity)
  rw [hfloor] at hN hmiddle
  have hlt : (m : ℚ) / n < (m / n : ℕ) + 1 - ulp (m / n) / 2 ↔
      n < (n - m % n) * 2 ^ (54 - (m / n).size) := by
    rw [lt_sub_comm, quotient_gap m hn, hmiddle, div_lt_div_iff₀ (by positivity) hn', one_mul,
      ← Nat.cast_mul, Nat.cast_lt]
  have heq : (m : ℚ) / n = (m / n : ℕ) + 1 - ulp (m / n) / 2 ↔
      n = (n - m % n) * 2 ^ (54 - (m / n).size) := by
    rw [eq_sub_iff_add_eq, ← eq_sub_iff_add_eq', quotient_gap m hn, hmiddle,
      div_eq_div_iff (by positivity) hn'.ne', one_mul, ← Nat.cast_mul, Nat.cast_inj]
  have hodd : Odd (m / n + 1) ∧ Odd (2 ^ (53 - (m / n).size)) ↔ (m / n).size = 53 ∧ Even (m / n) := by
    rw [Nat.odd_add_one, Nat.not_odd_iff_even, odd_two_pow_sub hsize, and_comm]
  rw [← hlt, ← heq, ← hodd, ← floor_toDouble_of_fraction hN hlow]
  exact ⟨fun h => h.le, fun h => le_antisymm h (le_floor_toDouble hN hlow)⟩

theorem floor_toDouble_of_size_gt {m n : ℕ} (hn : 0 < n) (hlarge : n ≤ 2 * m) (hsize : 53 < (m / n).size) :
    ⌊toDouble (m / n)⌋₊ = m / n ↔ 2 ^ ((m / n).size - 53) ∣ m / n := by
  have hfloor : ⌊(m : ℚ) / n⌋₊ = m / n := Nat.floor_div_eq_div m n
  have hU := ulp_of_size_gt (half_le_div hn hlarge) (hfloor.symm ▸ hsize)
  have hlow := Nat.floor_le (show 0 ≤ (m : ℚ) / n by positivity)
  have hhigh := Nat.lt_floor_add_one ((m : ℚ) / n)
  rw [hfloor] at hU hlow hhigh
  exact floor_toDouble_of_integer hU (Nat.le_self_pow (by omega) 2) hlow hhigh

theorem floor_toDouble_div_iff {m n : ℕ} (hn : 0 < n) : ⌊toDouble (m / n)⌋₊ = m / n ↔ FloorExact m n := by
  rcases lt_or_ge (2 * m) n with hsmall | hlarge
  · exact iff_of_true (floor_toDouble_of_two_mul_lt hsmall) (floorExact_of_two_mul_lt hsmall)
  · unfold FloorExact
    split
    · next hsize => exact floor_toDouble_of_size_le hn hlarge hsize
    · next hsize => exact floor_toDouble_of_size_gt hn hlarge (not_le.mp hsize)

theorem floorExact_of_lt {m n : ℕ} (hn : 0 < n) (hm : m < 2 ^ 53) : FloorExact m n := by
  rcases lt_or_ge (2 * m) n with hsmall | hlarge
  · exact floorExact_of_two_mul_lt hsmall
  have hrest := Nat.mod_lt m hn
  have hsize : (m / n).size ≤ 53 := Nat.size_le.mpr ((Nat.div_le_self m n).trans_lt hm)
  have hscaled : n * 2 ^ (m / n).size ≤ 2 * m := by
    rcases Nat.eq_zero_or_pos (m / n).size with hzero | hpos
    · rwa [hzero, pow_zero, mul_one]
    · have hdigits : 2 ^ ((m / n).size - 1) ≤ m / n := Nat.lt_size.mp (by omega)
      have hpow : 2 ^ (m / n).size = 2 * 2 ^ ((m / n).size - 1) := by
        rw [← pow_succ']
        congr 1
        omega
      calc
        n * 2 ^ (m / n).size = 2 * (n * 2 ^ ((m / n).size - 1)) := by rw [hpow, Nat.mul_left_comm]
        _ ≤ 2 * (n * (m / n)) := Nat.mul_le_mul_left 2 (Nat.mul_le_mul_left n hdigits)
        _ ≤ 2 * m := Nat.mul_le_mul_left 2 (Nat.mul_div_le m n)
  have hlt : n < 2 ^ (54 - (m / n).size) := by
    refine Nat.lt_of_mul_lt_mul_right (a := 2 ^ (m / n).size) ?_
    rw [← pow_add, Nat.sub_add_cancel (by omega)]
    omega
  rw [FloorExact, if_pos hsize]
  exact Or.inl (hlt.trans_le (Nat.le_mul_of_pos_left _ (by omega)))

end CodingForFun.Lib
