import CodingForFun.Lib.Rearrangement

/-!
# Values put into buckets

The values of an array are put one after the other into numbered buckets, each on top of what the bucket
holds, so that the last one comes out first. Where no larger value has a smaller bucket number, the buckets
one after the other give the values in order, but for the order inside the buckets.
-/

namespace CodingForFun.Lib

variable {α : Type} {bucketNumb : α → ℤ} {a : ℤ → α} {b i : ℤ} {k : ℕ}

/-- What is in bucket `b` after the first `k` values, the last one first. -/
def inBucket (bucketNumb : α → ℤ) (a : ℤ → α) (b : ℤ) : ℕ → List α
  | 0 => []
  | k + 1 => if bucketNumb (a k) = b then a k :: inBucket bucketNumb a b k else inBucket bucketNumb a b k

theorem coe_inBucket (bucketNumb : α → ℤ) (a : ℤ → α) (b : ℤ) (k : ℕ) :
    (inBucket bucketNumb a b k : Multiset α) = (values a 0 k).filter (bucketNumb · = b) := by
  induction k with
  | zero => rw [inBucket, values_of_le a (by decide), Multiset.filter_zero, Multiset.coe_nil]
  | succ k ih =>
    rw [inBucket, Int.natCast_succ, values_succ a (Int.natCast_nonneg k)]
    by_cases hb : bucketNumb (a k) = b
    · rw [if_pos hb, Multiset.filter_cons_of_pos (p := (bucketNumb · = b)) _ hb, ← Multiset.cons_coe, ih]
    · rw [if_neg hb, Multiset.filter_cons_of_neg (p := (bucketNumb · = b)) _ hb, ih]

theorem mem_inBucket {x : α} :
    x ∈ inBucket bucketNumb a b k ↔ (∃ i, (0 ≤ i ∧ i < (k : ℤ)) ∧ a i = x) ∧ bucketNumb x = b := by
  rw [← Multiset.mem_coe, coe_inBucket, Multiset.mem_filter, mem_values]

theorem inBucket_top {x : α} {l : List α} (h : inBucket bucketNumb a b k = x :: l) :
    ∃ i, (0 ≤ i ∧ i < (k : ℤ)) ∧ a i = x ∧ ∀ j, i < j → j < k → bucketNumb (a j) ≠ b := by
  induction k with
  | zero => cases h
  | succ k ih =>
    rw [inBucket] at h
    by_cases hb : bucketNumb (a k) = b
    · rw [if_pos hb] at h
      exact ⟨k, by omega, (List.cons.inj h).1, fun j hkj hj => by omega⟩
    · rw [if_neg hb] at h
      obtain ⟨i, hi, hx, hlast⟩ := ih h
      refine ⟨i, by omega, hx, fun j hij hj => ?_⟩
      by_cases hjk : j = k
      · rwa [hjk]
      · exact hlast j hij (by omega)

theorem filter_lt_succ (bucketNumb : α → ℤ) (b : ℤ) (s : Multiset α) :
    s.filter (bucketNumb · < b + 1) = s.filter (bucketNumb · < b) + s.filter (bucketNumb · = b) := by
  have hboth : s.filter (fun x => bucketNumb x < b ∧ bucketNumb x = b) = 0 :=
    Multiset.filter_eq_nil.mpr fun x _ h => h.1.ne h.2
  rw [Multiset.filter_add_filter, hboth, add_zero]
  exact Multiset.filter_congr fun x _ => by rw [Int.lt_add_one_iff, le_iff_lt_or_eq]

theorem filter_lt_eq_zero_iff {n : ℤ} :
    (values a 0 n).filter (bucketNumb · < b) = 0 ↔ ∀ i, 0 ≤ i → i < n → b ≤ bucketNumb (a i) := by
  rw [Multiset.filter_eq_nil]
  constructor
  · intro h i hi hin
    exact not_lt.mp (h (a i) (mem_values.mpr ⟨i, ⟨hi, hin⟩, rfl⟩))
  · intro h x hx
    obtain ⟨i, ⟨hi, hin⟩, rfl⟩ := mem_values.mp hx
    exact not_lt.mpr (h i hi hin)

/-- Of the first `n` values, the last one of those with the smallest bucket number is a smallest one. -/
def LastIsLeast [LE α] (bucketNumb : α → ℤ) (a : ℤ → α) (n : ℤ) : Prop :=
  ∀ i, 0 ≤ i → i < n → (∀ j, 0 ≤ j → j < n → bucketNumb (a i) ≤ bucketNumb (a j)) →
    (∀ j, i < j → j < n → bucketNumb (a j) ≠ bucketNumb (a i)) → ∀ j, 0 ≤ j → j < n → a i ≤ a j

section order

variable [LinearOrder α] {n : ℕ}

theorem LastIsLeast.top_le (h : LastIsLeast bucketNumb a n) {x : α} {l : List α}
    (htop : inBucket bucketNumb a b n = x :: l) (hfirst : ∀ i, 0 ≤ i → i < (n : ℤ) → b ≤ bucketNumb (a i)) :
    ∀ i, 0 ≤ i → i < (n : ℤ) → x ≤ a i := by
  obtain ⟨i, ⟨hi, hin⟩, rfl, hlast⟩ := inBucket_top htop
  have hnumb : bucketNumb (a i) = b := (mem_inBucket.mp (htop ▸ List.mem_cons_self)).2
  refine h i hi hin (fun j hj hjn => ?_) fun j hij hjn => ?_
  · rw [hnumb]
    exact hfirst j hj hjn
  · rw [hnumb]
    exact hlast j hij hjn

theorem exists_lt_top (hmono : Monotone bucketNumb) (h : ¬ LastIsLeast bucketNumb a n) :
    ∃ b x l, (∃ i, (0 ≤ i ∧ i < (n : ℤ)) ∧ bucketNumb (a i) = b) ∧
      (∀ i, 0 ≤ i → i < (n : ℤ) → b ≤ bucketNumb (a i)) ∧
      inBucket bucketNumb a b n = x :: l ∧ ∃ y ∈ x :: l, y < x := by
  unfold LastIsLeast at h
  push Not at h
  obtain ⟨i, hi, hin, hfirst, hlast, j, hj, hjn, hlt⟩ := h
  have hnumb : bucketNumb (a j) = bucketNumb (a i) := le_antisymm (hmono hlt.le) (hfirst j hj hjn)
  have hmem : a j ∈ inBucket bucketNumb a (bucketNumb (a i)) n := mem_inBucket.mpr ⟨⟨j, ⟨hj, hjn⟩, rfl⟩, hnumb⟩
  obtain ⟨x, l, htop⟩ := List.exists_cons_of_ne_nil (List.ne_nil_of_mem hmem)
  -- only one of the values came last
  obtain ⟨k, ⟨hk, hkn⟩, rfl, hlast'⟩ := inBucket_top htop
  have hnumb' : bucketNumb (a k) = bucketNumb (a i) := (mem_inBucket.mp (htop ▸ List.mem_cons_self)).2
  obtain rfl : i = k := by
    rcases lt_trichotomy i k with hik | hik | hik
    · exact absurd hnumb' (hlast k hik hkn)
    · exact hik
    · exact absurd rfl (hlast' i hik hin)
  exact ⟨_, _, l, ⟨i, ⟨hi, hin⟩, rfl⟩, hfirst, htop, a j, htop ▸ hmem, hlt⟩

end order

end CodingForFun.Lib
