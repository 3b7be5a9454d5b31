import Mathlib.Algebra.Order.SuccPred
import Mathlib.Algebra.Order.Group.Multiset
import Mathlib.Data.Int.ConditionallyCompleteOrder
import Mathlib.Data.Int.SuccPred
import Mathlib.Data.Multiset.Range
import Mathlib.Data.Set.Monotone
import Mathlib.Logic.Equiv.Basic

/-!
# Arrays that are sorted in place

An array is a function on the integers, looked at from `lo` up to `hi`. `Rearranged lo hi a b` says that
`b` has the same values there, in any order, and is `a` elsewhere, so that arrays that are rearranged
part by part are rearranged as a whole (`Rearranged.mono`, `Rearranged.trans`). `Sorts` adds the order,
and then determines the result (`Sorts.unique`).

For the sorts that exchange values `m` places apart, `Sinking m a n q` says that of the first `n` values
every one is in order with the value `m` places before it, except the one at `q`, which is on its way
down. Where the value on its way is held outside the array, it is counted at the place that is free for it
(`Inserting`).
-/

namespace CodingForFun.Lib

variable {α : Type} {a b c : ℤ → α} {lo mid hi : ℤ}

/-- The indices from `lo` up to `hi`. -/
def indices (lo hi : ℤ) : Multiset ℤ := (Multiset.range (hi - lo).toNat).map fun k : ℕ => lo + k

/-- The values of an array from `lo` up to `hi`. -/
def values (a : ℤ → α) (lo hi : ℤ) : Multiset α := (indices lo hi).map a

theorem mem_indices {i : ℤ} : i ∈ indices lo hi ↔ lo ≤ i ∧ i < hi := by
  rw [indices, Multiset.mem_map]
  constructor
  · intro h
    obtain ⟨k, hk, rfl⟩ := h
    rw [Multiset.mem_range] at hk
    omega
  · intro hi
    exact ⟨(i - lo).toNat, Multiset.mem_range.mpr (by omega), by omega⟩

theorem nodup_indices (lo hi : ℤ) : (indices lo hi).Nodup :=
  (Multiset.nodup_range _).map fun _ _ h => Int.natCast_inj.mp (add_left_cancel h)

theorem mem_values {x : α} : x ∈ values a lo hi ↔ ∃ i, (lo ≤ i ∧ i < hi) ∧ a i = x := by
  simp only [values, Multiset.mem_map, mem_indices]

theorem card_values (a : ℤ → α) (lo hi : ℤ) : (values a lo hi).card = (hi - lo).toNat := by
  rw [values, Multiset.card_map, indices, Multiset.card_map, Multiset.card_range]

theorem values_of_le (a : ℤ → α) (h : hi ≤ lo) : values a lo hi = 0 := by
  rw [← Multiset.card_eq_zero, card_values]
  omega

theorem values_succ (a : ℤ → α) (h : lo ≤ hi) : values a lo (hi + 1) = a hi ::ₘ values a lo hi := by
  have hlen : (hi + 1 - lo).toNat = (hi - lo).toNat + 1 := by omega
  have hlast : lo + ((hi - lo).toNat : ℤ) = hi := by omega
  rw [values, indices, hlen, Multiset.range_succ, Multiset.map_cons, Multiset.map_cons, hlast]
  rfl

theorem values_single (a : ℤ → α) (i : ℤ) : values a i (i + 1) = {a i} := by
  rw [values_succ a le_rfl, values_of_le a le_rfl]
  rfl

theorem values_add (a : ℤ → α) (h : lo ≤ mid) (h' : mid ≤ hi) :
    values a lo mid + values a mid hi = values a lo hi := by
  induction hi, h' using Int.leInduction with
  | base => rw [values_of_le a le_rfl, add_zero]
  | succ hi h' ih => rw [values_succ a h', values_succ a (h.trans h'), Multiset.add_cons, ih]

theorem values_first (a : ℤ → α) (h : lo < hi) : values a lo hi = a lo ::ₘ values a (lo + 1) hi := by
  rw [← values_add a (Int.le_add_one le_rfl) (Int.add_one_le_of_lt h), values_single,
    Multiset.singleton_add]

theorem values_congr (h : ∀ i, lo ≤ i → i < hi → a i = b i) : values a lo hi = values b lo hi := by
  apply Multiset.map_congr rfl
  intro i hi
  obtain ⟨hlo, hhi⟩ := mem_indices.mp hi
  exact h i hlo hhi

theorem values_update_last (a : ℤ → α) (h : lo ≤ hi) (x : α) :
    values (Function.update a hi x) lo (hi + 1) = x ::ₘ values a lo hi := by
  rw [values_succ _ h, Function.update_self]
  congr 1
  exact values_congr fun i _ hi => Function.update_of_ne hi.ne ..

theorem values_swap (a : ℤ → α) {i j : ℤ} (hi₁ : lo ≤ i) (hi₂ : i < hi) (hj₁ : lo ≤ j) (hj₂ : j < hi) :
    values (a ∘ Equiv.swap i j) lo hi = values a lo hi := by
  have hmem : ∀ k ∈ indices lo hi, Equiv.swap i j k ∈ indices lo hi := by
    intro k hk
    rw [mem_indices] at hk ⊢
    rw [Equiv.swap_apply_def]
    split_ifs <;> omega
  have hindices : (indices lo hi).map (Equiv.swap i j) = indices lo hi := by
    refine (Multiset.Nodup.ext ((nodup_indices lo hi).map (Equiv.swap i j).injective)
      (nodup_indices lo hi)).mpr fun k => ?_
    rw [Multiset.mem_map]
    constructor
    · intro h
      obtain ⟨k, hk, rfl⟩ := h
      exact hmem k hk
    · intro hk
      exact ⟨Equiv.swap i j k, hmem k hk, Equiv.swap_apply_self i j k⟩
  rw [values, values, ← Multiset.map_map, hindices]

/-- Moving a value into a free place and counting the value for that place where it came from exchanges the
two. -/
theorem update_hole (a : ℤ → α) {i j : ℤ} (hne : i ≠ j) (x : α) :
    Function.update (Function.update a i (a j)) j x = Function.update a i x ∘ Equiv.swap i j := by
  rw [Equiv.comp_swap_eq_update, Function.update_self, Function.update_of_ne hne.symm,
    Function.update_comm hne (a j) x a, Function.update_comm hne x x a, Function.update_idem]

/-- `b` is `a` with the values from `lo` up to `hi` in another order. -/
structure Rearranged (lo hi : ℤ) (a b : ℤ → α) : Prop where
  off : ∀ i, i < lo ∨ hi ≤ i → b i = a i
  values : values b lo hi = values a lo hi

namespace Rearranged

theorem refl (lo hi : ℤ) (a : ℤ → α) : Rearranged lo hi a a := ⟨fun _ _ => rfl, rfl⟩

theorem trans (h : Rearranged lo hi a b) (h' : Rearranged lo hi b c) : Rearranged lo hi a c :=
  ⟨fun i hi => (h'.off i hi).trans (h.off i hi), h'.values.trans h.values⟩

theorem swap (a : ℤ → α) {i j : ℤ} (hi₁ : lo ≤ i) (hi₂ : i < hi) (hj₁ : lo ≤ j) (hj₂ : j < hi) :
    Rearranged lo hi a (a ∘ Equiv.swap i j) := by
  refine ⟨fun k hk => ?_, values_swap a hi₁ hi₂ hj₁ hj₂⟩
  rw [Function.comp_apply, Equiv.swap_apply_of_ne_of_ne (by omega) (by omega)]

theorem mono (h : Rearranged lo hi a b) {lo' hi' : ℤ} (hlo : lo' ≤ lo) (hhi : hi ≤ hi') :
    Rearranged lo' hi' a b := by
  refine ⟨fun i hi => h.off i (by omega), ?_⟩
  rcases le_total hi lo with hle | hle
  · exact values_congr fun i _ _ => h.off i (by omega)
  · rw [← values_add b hlo (hle.trans hhi), ← values_add b hle hhi, h.values,
      ← values_add a hlo (hle.trans hhi), ← values_add a hle hhi,
      values_congr fun i _ hi => h.off i (.inl hi), values_congr fun i hi _ => h.off i (.inr hi)]

theorem forall_values (h : Rearranged lo hi a b) (p : α → Prop) (ha : ∀ i, lo ≤ i → i < hi → p (a i)) :
    ∀ i, lo ≤ i → i < hi → p (b i) := by
  intro i hlo hhi
  have hmem : b i ∈ Lib.values b lo hi := mem_values.mpr ⟨i, ⟨hlo, hhi⟩, rfl⟩
  rw [h.values] at hmem
  obtain ⟨j, ⟨hlo', hhi'⟩, hj⟩ := mem_values.mp hmem
  rw [← hj]
  exact ha j hlo' hhi'

end Rearranged

section order

variable [LinearOrder α]

/-- `b` is `a` with the values from `lo` up to `hi` in order. -/
structure Sorts (lo hi : ℤ) (a b : ℤ → α) : Prop extends Rearranged lo hi a b where
  sorted : MonotoneOn b (Set.Ico lo hi)

theorem monotoneOn_Ico_iff :
    MonotoneOn a (Set.Ico lo hi) ↔ ∀ i j, lo ≤ i → i ≤ j → j < hi → a i ≤ a j := by
  constructor
  · intro h i j hi hij hj
    exact h ⟨hi, hij.trans_lt hj⟩ ⟨hi.trans hij, hj⟩ hij
  · intro h i hi j hj hij
    exact h i j hi.1 hij hj.2

theorem monotoneOn_of_le (a : ℤ → α) (h : hi ≤ lo + 1) : MonotoneOn a (Set.Ico lo hi) := by
  rw [monotoneOn_Ico_iff]
  intro i j hi hij hj
  rw [show i = j by omega]

theorem monotoneOn_update_last {x : α} (h : MonotoneOn a (Set.Ico lo hi))
    (hx : ∀ i, lo ≤ i → i < hi → a i ≤ x) :
    MonotoneOn (Function.update a hi x) (Set.Ico lo (hi + 1)) := by
  rw [monotoneOn_Ico_iff]
  intro i j hi₁ hij hj
  rcases (Int.lt_add_one_iff.mp hj).eq_or_lt with rfl | hj
  · rw [Function.update_self]
    rcases hij.eq_or_lt with rfl | hlt
    · rw [Function.update_self]
    · rw [Function.update_of_ne hlt.ne]
      exact hx i hi₁ hlt
  · rw [Function.update_of_ne hj.ne, Function.update_of_ne (hij.trans_lt hj).ne]
    exact monotoneOn_Ico_iff.mp h i j hi₁ hij hj

theorem last_le (hlt : lo ≤ hi) (hb : MonotoneOn b (Set.Ico lo (hi + 1)))
    (hvalues : values a lo (hi + 1) = values b lo (hi + 1)) : a hi ≤ b hi := by
  have hmem : a hi ∈ values a lo (hi + 1) := mem_values.mpr ⟨hi, by omega, rfl⟩
  rw [hvalues] at hmem
  obtain ⟨j, ⟨hlo, hhi⟩, hj⟩ := mem_values.mp hmem
  rw [← hj]
  exact monotoneOn_Ico_iff.mp hb j hi hlo (by omega) (by omega)

theorem eq_of_sorted (hle : lo ≤ hi) (ha : MonotoneOn a (Set.Ico lo hi))
    (hb : MonotoneOn b (Set.Ico lo hi)) (hvalues : values a lo hi = values b lo hi) :
    ∀ i, lo ≤ i → i < hi → a i = b i := by
  induction hi, hle using Int.leInduction with
  | base =>
    intro i hlo hhi
    omega
  | succ hi hle ih =>
    have hlast : a hi = b hi := le_antisymm (last_le hle hb hvalues) (last_le hle ha hvalues.symm)
    rw [values_succ a hle, values_succ b hle, hlast, Multiset.cons_inj_right] at hvalues
    have hsub : Set.Ico lo hi ⊆ Set.Ico lo (hi + 1) := Set.Ico_subset_Ico_right (by omega)
    intro i hlo hhi
    rcases (Int.lt_add_one_iff.mp hhi).eq_or_lt with rfl | hlt
    · exact hlast
    · exact ih (ha.mono hsub) (hb.mono hsub) hvalues i hlo hlt

theorem Sorts.unique (h : Sorts lo hi a b) (h' : Sorts lo hi a c) : b = c := by
  funext i
  by_cases hi₁ : lo ≤ i ∧ i < hi
  · have hle : lo ≤ hi := by omega
    exact eq_of_sorted hle h.sorted h'.sorted (h.values.trans h'.values.symm) i hi₁.1 hi₁.2
  · rw [h.off i (by omega), h'.off i (by omega)]

theorem Sorts.join {p : ℤ} (h : Sorts lo p a b) (h' : Sorts (p + 1) hi b c) (hlo : lo ≤ p)
    (hhi : p < hi) (hsmall : ∀ i, lo ≤ i → i < p → a i ≤ a p)
    (hlarge : ∀ i, p < i → i < hi → a p ≤ a i) : Sorts lo hi a c := by
  have hpivot : c p = a p := (h'.off p (.inl (Int.lt_add_one_iff.mpr le_rfl))).trans
    (h.off p (.inr le_rfl))
  have hfront : ∀ i, i ≤ p → c i = b i := fun i hi => h'.off i (.inl (Int.lt_add_one_iff.mpr hi))
  have hbelow : ∀ i, lo ≤ i → i ≤ p → c i ≤ c p := by
    intro i hi hip
    rcases hip.eq_or_lt with rfl | hlt
    · exact le_rfl
    · rw [hfront i hip, hpivot]
      exact h.forall_values (· ≤ a p) hsmall i hi hlt
  have habove : ∀ i, p < i → i < hi → c p ≤ c i := by
    intro i hpi hi
    rw [hpivot]
    refine h'.forall_values (a p ≤ ·) (fun j hj hj' => ?_) i (Int.add_one_le_of_lt hpi) hi
    rw [h.off j (.inr (by omega))]
    exact hlarge j (by omega) hj'
  refine ⟨(h.mono le_rfl hhi.le).trans (h'.mono (by omega) le_rfl), monotoneOn_Ico_iff.mpr ?_⟩
  intro i j hi hij hj
  rcases lt_or_ge j p with hjp | hjp
  · rw [hfront i (by omega), hfront j hjp.le]
    exact monotoneOn_Ico_iff.mp h.sorted i j hi hij hjp
  · rcases le_or_gt i p with hip | hip
    · rcases hjp.eq_or_lt with rfl | hlt
      · exact hbelow i hi hip
      · exact (hbelow i hi hip).trans (habove j hlt hj)
    · exact monotoneOn_Ico_iff.mp h'.sorted i j (Int.add_one_le_of_lt hip) hij hj

/-! ### Values that sink -/

/-- Of the first `n` values, every one is in order with the one `m` places before it. -/
def GapSorted (m : ℤ) (a : ℤ → α) (n : ℤ) : Prop := ∀ i, 0 ≤ i → i + m < n → a i ≤ a (i + m)

theorem gapSorted_one_iff {n : ℤ} : GapSorted 1 a n ↔ MonotoneOn a (Set.Ico 0 n) := by
  constructor
  · intro h
    refine monotoneOn_of_le_add_one Set.ordConnected_Ico fun i _ hi hi' => ?_
    exact h i hi.1 hi'.2
  · intro h i hi hin
    exact monotoneOn_Ico_iff.mp h i (i + 1) hi (by omega) hin

/-- They are, except that the value at `q` may be below the one `m` places before it. -/
structure Sinking (m : ℤ) (a : ℤ → α) (n q : ℤ) : Prop where
  off : ∀ i, 0 ≤ i → i + m < n → i + m ≠ q → a i ≤ a (i + m)
  grand : m ≤ q → q + m < n → a (q - m) ≤ a (q + m)

section sinking

variable {m n q : ℤ}

theorem GapSorted.sinking (h : GapSorted m a n) (hm : 0 < m) : Sinking m a (n + 1) n :=
  ⟨fun i hi hin hne => h i hi (by omega), fun _ hlt => by omega⟩

theorem Sinking.swap (h : Sinking m a n q) (hm : 0 < m) (hq : m ≤ q) (hqn : q < n)
    (hlt : a q < a (q - m)) : Sinking m (a ∘ Equiv.swap q (q - m)) n (q - m) := by
  constructor
  · intro i hi hin hne
    simp only [Function.comp_apply, Equiv.swap_apply_def]
    by_cases hi₁ : i = q
    · -- the value that moved up, before the next one of its row
      rw [if_pos hi₁, if_neg (by omega), if_neg (by omega), hi₁]
      exact h.grand hq (by omega)
    · by_cases hi₂ : i = q - m
      · rw [if_neg hi₁, if_pos hi₂, if_pos (by omega)]
        exact hlt.le
      · rw [if_neg hi₁, if_neg hi₂, if_neg (by omega), if_neg (by omega)]
        exact h.off i hi hin (by omega)
  · intro hq' _
    simp only [Function.comp_apply, Equiv.swap_apply_def]
    rw [if_neg (by omega), if_neg (by omega), if_pos (by omega)]
    have hoff := h.off (q - m - m) (by omega) (by omega) (by omega)
    rwa [sub_add_cancel] at hoff

theorem Sinking.finish (h : Sinking m a n q) (hstop : m ≤ q → a (q - m) ≤ a q) : GapSorted m a n := by
  intro i hi hin
  by_cases hne : i + m = q
  · have hle := hstop (by omega)
    rwa [← hne, add_sub_cancel_right] at hle
  · exact h.off i hi hin hne

/-- A value `x` on its way down into the first `n` values of `a`, which are in order: the place `q` is free
for it, and the values above it have moved up by one. -/
structure Inserting (a : ℤ → α) (x : α) (n : ℤ) (s : ℤ → α) (q : ℤ) : Prop where
  rearranged : Rearranged 0 (n + 1) a (Function.update s q x)
  sinking : Sinking 1 (Function.update s q x) (n + 1) q

section inserting

variable {s : ℤ → α} {x : α}

theorem GapSorted.inserting (h : GapSorted 1 a n) : Inserting a (a n) n a n := by
  constructor
  · rw [Function.update_eq_self]
    exact .refl _ _ _
  · rw [Function.update_eq_self]
    exact h.sinking Int.zero_lt_one

theorem Inserting.move {k : ℤ} (h : Inserting a x n s (k + 1)) (hk : 0 ≤ k) (hkn : k < n) (hlt : x < s k) :
    Inserting a x n (Function.update s (k + 1) (s k)) k := by
  have hne : k + 1 ≠ k := by omega
  have hbelow : Function.update s (k + 1) x k = s k := Function.update_of_ne hne.symm ..
  constructor
  · rw [update_hole s hne]
    exact h.rearranged.trans (.swap _ (by omega) (by omega) hk (by omega))
  · rw [update_hole s hne]
    have hswap := h.sinking.swap Int.zero_lt_one (by omega) (by omega) (by
      rwa [Function.update_self, add_sub_cancel_right, hbelow])
    rwa [add_sub_cancel_right] at hswap

theorem Inserting.finish (h : Inserting a x n s q) (hstop : 0 < q → s (q - 1) ≤ x) :
    GapSorted 1 (Function.update s q x) (n + 1) := by
  refine h.sinking.finish fun hq => ?_
  rw [Function.update_self, Function.update_of_ne (by omega)]
  exact hstop hq

end inserting

end sinking

end order

end CodingForFun.Lib
