import CodingForFun.Lib.Buckets
import CodingForFun.Sorting.Basic
import Mathlib.Data.Int.LeastGreatest

/-!
# `bucketsort.c`

The elements are put into buckets, each a list with the last element first, and then bucket after bucket is
written back over the sequence and its part of the sequence is sorted. As a larger element has no smaller
bucket number, the sequence is in order then (`Retrieved`).

The loop of `insertsort` that looks for the place of an element tests `i >= 0` with the counter of the outer
loop, which does not change, so that nothing but an element that is not greater stops it. Such an element is
there in all buckets but the first one; there it must be the one on top (`bucketsort_sorts_iff`).
-/

namespace CodingForFun.Bucketsort

open Lib Sorting

variable {lo hi numbBuckets : ℤ} {α : Type}

def bucketRatio : ℤ := 2

/-- `struct bucket`, with the values in its linked list. -/
structure Bucket (α : Type) where
  size : ℤ
  list : List α

/-- `i >= 0 && seq[j] > element` -/
def shiftGoesOn (i element : ℤ) (s : Window lo hi ℤ × ℤ) : Except Fault Bool := do
  if i ≥ 0 then
    pure (decide ((← s.1.read s.2) > element))
  else
    pure false

/-- The body of the outer loop of `insertsort`. -/
def insertElement (i : ℤ) (seq : Window lo hi ℤ) : Except Fault (Window lo hi ℤ) := do
  let element ← seq.read i
  let (seq, j) ← whileM .unbounded (shiftGoesOn i element) shift (i + 1).toNat (seq, i - 1)
  seq.write (j + 1) element

def insertsort (seq : Window lo hi ℤ) (left right : ℤ) : Except Fault (Window lo hi ℤ) :=
  forUp (left + 1) right insertElement seq

def hash (value numbBuckets max : ℤ) : ℤ := (value * numbBuckets).tdiv max

/-- The body of the first loop of `bucketsort`. -/
def initBucket (i : ℤ) (buckets : Window 0 numbBuckets (Bucket α)) :
    Except Fault (Window 0 numbBuckets (Bucket α)) :=
  buckets.write i ⟨0, []⟩

/-- The body of the second loop, where `bucketNumb` gives the number of the bucket of an element. -/
def store (bucketNumb : α → ℤ) (seq : Window lo hi α) (i : ℤ) (buckets : Window 0 numbBuckets (Bucket α)) :
    Except Fault (Window 0 numbBuckets (Bucket α)) := do
  let data ← seq.read i
  let bucket ← buckets.read (bucketNumb data)
  buckets.write (bucketNumb data) ⟨bucket.size + 1, data :: bucket.list⟩

/-- `seq[j++] = listptr->data;` -/
def writeBack (s : Window lo hi ℤ × ℤ) (data : ℤ) : Except Fault (Window lo hi ℤ × ℤ) := do
  let seq ← s.1.write s.2 data
  pure (seq, s.2 + 1)

/-- The body of the third loop, with the variable `j`. -/
def retrieve (buckets : Window 0 numbBuckets (Bucket ℤ)) (i : ℤ) (s : Window lo hi ℤ × ℤ) :
    Except Fault (Window lo hi ℤ × ℤ) := do
  let bucket ← buckets.read i
  if bucket.size > 0 then
    let (seq, j) ← bucket.list.foldlM writeBack s
    let seq ← insertsort seq s.2 j
    pure (seq, j)
  else
    pure s

/-- `bucketsort`, where `malloc` returns `buckets`, with any contents. -/
def bucketsort (seq : Window lo hi ℤ) (size max : ℤ) (buckets : Window 0 (size.tdiv bucketRatio) (Bucket ℤ)) :
    Except Fault (Window lo hi ℤ) := do
  let numbBuckets := size.tdiv bucketRatio
  let buckets ← forUp 0 numbBuckets initBucket buckets
  let buckets ← forUp 0 size (store (hash · numbBuckets max) seq) buckets
  let (seq, _) ← forUp 0 numbBuckets (retrieve buckets) (seq, 0)
  pure seq

/-! ### Insertion sort -/

section insertsort

variable {n i : ℤ} {a b : Window 0 n ℤ}

theorem shiftGoesOn_eq (seq : Window 0 n ℤ) {j : ℤ} (element : ℤ) (hi : 0 ≤ i) (hj : 0 ≤ j) (hjn : j < n) :
    shiftGoesOn i element (seq, j) = .ok (decide (seq j > element)) := by
  simp only [shiftGoesOn, if_pos hi, Window.read_ok hj hjn, ok_bind, pure_eq_ok]

theorem shiftLoop_ok (h : GapSorted 1 b i) (hi : 0 < i) (hin : i < n) (hle : b 0 ≤ b i) :
    ∃ s, whileM .unbounded (shiftGoesOn i (b i)) shift (i + 1).toNat (b, i - 1) = .ok s ∧
      0 ≤ s.2 ∧ s.2 < i ∧ Inserting b (b i) i s.1 (s.2 + 1) ∧ s.1 0 = b 0 ∧ s.1 s.2 ≤ b i := by
  have hstart : Inserting b (b i) i b (i - 1 + 1) := by
    rw [sub_add_cancel]
    exact h.inserting
  refine whileM_ok (fun s : Window 0 n ℤ × ℤ => 0 ≤ s.2 ∧ s.2 < i ∧ Inserting b (b i) i s.1 (s.2 + 1) ∧
    s.1 0 = b 0) (fun s => s.2.toNat) ?_ _ _ ⟨by omega, by omega, hstart, rfl⟩ (by omega)
  rintro ⟨seq, j⟩ ⟨hlow, hhigh, hins, hfirst⟩
  simp only at hlow hhigh hins hfirst
  have hcond := shiftGoesOn_eq seq (b i) hi.le hlow (by omega)
  by_cases hgt : seq j > b i
  · have hne : j ≠ 0 := by
      rintro rfl
      omega
    have hmove := hins.move hlow hhigh hgt
    refine .inl ⟨_, by rw [hcond, decide_eq_true hgt], shift_ok seq hlow (by omega),
      ⟨by simp only; omega, by simp only; omega, ?_, ?_⟩, by simp only; omega⟩
    · rwa [sub_add_cancel]
    · simp only
      rwa [Function.update_of_ne (by omega)]
  · exact .inr ⟨by rw [hcond, decide_eq_false hgt], hlow, hhigh, hins, hfirst, not_lt.mp hgt⟩

theorem shiftLoop_error (element : ℤ) (hi : 0 ≤ i) :
    ∀ (j fuel : ℕ) (seq : Window 0 n ℤ), j < fuel → j < n → (∀ k, 0 ≤ k → k < (j : ℤ) → element < seq k) →
      whileM .unbounded (shiftGoesOn i element) shift fuel (seq, j - 1) = .error .outOfBounds := by
  intro j
  induction j with
  | zero =>
    intro fuel seq hfuel _ _
    obtain ⟨fuel, rfl⟩ := Nat.exists_eq_add_of_lt hfuel
    refine whileM_cond_error _ ?_
    simp only [shiftGoesOn, if_pos hi]
    rw [Window.read_error (by omega)]
    rfl
  | succ j ih =>
    intro fuel seq hfuel hjn hgt
    obtain ⟨fuel, rfl⟩ := Nat.exists_eq_add_of_lt hfuel
    have hj : ((j + 1 : ℕ) : ℤ) - 1 = j := by omega
    have hcond := shiftGoesOn_eq seq element hi (Int.natCast_nonneg j) (by omega : (j : ℤ) < n)
    rw [decide_eq_true (hgt j (by omega) (by omega))] at hcond
    rw [hj, whileM_true _ hcond (shift_ok seq (by omega) (by omega))]
    refine ih _ _ (by omega) (by omega) fun k hk hkj => ?_
    rw [Function.update_of_ne (by omega)]
    exact hgt k hk (by omega)

/-- Before round `i` of `insertsort` the first `i` elements are in order. -/
structure Inserted (a : Window 0 n ℤ) (i : ℤ) (b : Window 0 n ℤ) : Prop where
  rearranged : Rearranged 0 i a b
  sorted : GapSorted 1 b i
  first : b 0 = a 0

theorem Inserted.insertElement (h : Inserted a i b) (hi : 0 < i) (hin : i < n) (hle : a 0 ≤ a i) :
    ∃ b', insertElement i b = .ok b' ∧ Inserted a (i + 1) b' := by
  have hlast : b i = a i := h.rearranged.off i (.inr le_rfl)
  obtain ⟨⟨seq, j⟩, hloop, hlow, hhigh, hins, hfirst, hstop⟩ :=
    shiftLoop_ok h.sorted hi hin (by rwa [h.first, hlast])
  simp only at hlow hhigh hins hfirst hstop
  refine ⟨Function.update seq (j + 1) (b i), ?_, ?_, ?_, ?_⟩
  · rw [Bucketsort.insertElement, Window.read_ok hi.le hin, ok_bind, hloop, ok_bind]
    exact Window.write_ok (by omega) (by omega) _
  · exact (h.rearranged.mono le_rfl (by omega)).trans hins.rearranged
  · refine hins.finish fun _ => ?_
    rwa [add_sub_cancel_right]
  · rw [Function.update_of_ne (by omega), hfirst, h.first]

theorem Inserted.insertElement_error (h : Inserted a i b) (hi : 0 < i) (hin : i < n) (hlt : a i < a 0) :
    Bucketsort.insertElement i b = .error .outOfBounds := by
  have hgt : ∀ k, 0 ≤ k → k < i → b i < b k := by
    intro k hk hki
    calc b i = a i := h.rearranged.off i (.inr le_rfl)
      _ < a 0 := hlt
      _ = b 0 := h.first.symm
      _ ≤ b k := monotoneOn_Ico_iff.mp (gapSorted_one_iff.mp h.sorted) 0 k le_rfl hk hki
  obtain ⟨j, rfl⟩ := Int.eq_ofNat_of_zero_le hi.le
  rw [Bucketsort.insertElement, Window.read_ok hi.le hin, ok_bind,
    shiftLoop_error (b j) hi.le j _ b (by omega) hin hgt]
  rfl

theorem insertsort_ok {l r : ℤ} (hl : 0 ≤ l) (hlr : l < r) (hr : r ≤ n) (h : GapSorted 1 a (l + 1))
    (hle : ∀ i, l ≤ i → i < r → a 0 ≤ a i) : ∃ b, insertsort a l r = .ok b ∧ Sorts 0 r a b := by
  obtain ⟨b, hb, hins⟩ := forUp_ok insertElement (Inserted a) (by omega : l + 1 ≤ r) ⟨.refl _ _ a, h, rfl⟩
    fun i b hi hir hins => hins.insertElement (by omega) (by omega) (hle i (by omega) hir)
  exact ⟨b, hb, hins.rearranged, gapSorted_one_iff.mp hins.sorted⟩

theorem insertsort_error {r : ℤ} (hr : r ≤ n) (hlt : ∃ i, (0 ≤ i ∧ i < r) ∧ a i < a 0) :
    insertsort a 0 r = .error .outOfBounds := by
  obtain ⟨m, ⟨⟨hm, hmr⟩, hmlt⟩, hleast⟩ := Int.exists_least_of_bdd ⟨0, fun i hi => hi.1.1⟩ hlt
  have hne : m ≠ 0 := by
    rintro rfl
    exact lt_irrefl _ hmlt
  refine forUp_error insertElement (Inserted a) (by omega : 0 + 1 ≤ m) hmr
    ⟨.refl _ _ a, fun i _ _ => by omega, rfl⟩ (fun i b hi him hins => ?_)
    fun b hins => hins.insertElement_error (by omega) (by omega) hmlt
  refine hins.insertElement (by omega) (by omega) ?_
  by_contra hgt
  exact absurd (hleast i ⟨by omega, not_le.mp hgt⟩) (by omega)

end insertsort

/-! ### The buckets -/

section store

variable {n k : ℤ} {bucketNumb : α → ℤ} {seq : Window 0 n α}

theorem store_eq (buckets : Window 0 numbBuckets (Bucket α)) (hk : 0 ≤ k) (hkn : k < n)
    (hlow : 0 ≤ bucketNumb (seq k)) (hhigh : bucketNumb (seq k) < numbBuckets) :
    store bucketNumb seq k buckets = .ok (Function.update buckets (bucketNumb (seq k))
      ⟨(buckets (bucketNumb (seq k))).size + 1, seq k :: (buckets (bucketNumb (seq k))).list⟩) := by
  rw [store, Window.read_ok hk hkn, ok_bind, Window.read_ok hlow hhigh, ok_bind]
  exact Window.write_ok hlow hhigh _

/-- The second loop stays inside the buckets exactly when the bucket numbers do. -/
theorem store_inBounds_iff (bucketNumb : α → ℤ) (seq : Window 0 n α)
    (buckets : Window 0 numbBuckets (Bucket α)) (hn : 0 ≤ n) :
    (∃ buckets', forUp 0 n (store bucketNumb seq) buckets = .ok buckets') ↔
      ∀ i, 0 ≤ i → i < n → 0 ≤ bucketNumb (seq i) ∧ bucketNumb (seq i) < numbBuckets := by
  constructor
  · rintro ⟨buckets', hloop⟩
    by_contra hnot
    have hout : ∃ i, (0 ≤ i ∧ i < n) ∧ ¬ (0 ≤ bucketNumb (seq i) ∧ bucketNumb (seq i) < numbBuckets) := by
      push Not at hnot ⊢
      obtain ⟨i, hi, hin, hout⟩ := hnot
      exact ⟨i, ⟨hi, hin⟩, hout⟩
    obtain ⟨m, ⟨⟨hm, hmn⟩, hmout⟩, hleast⟩ := Int.exists_least_of_bdd ⟨0, fun i hi => hi.1.1⟩ hout
    have herror : forUp 0 n (store bucketNumb seq) buckets = .error .outOfBounds := by
      refine forUp_error _ (fun _ _ => True) hm hmn trivial (fun i b hi him _ => ?_) fun b _ => ?_
      · have hin : 0 ≤ bucketNumb (seq i) ∧ bucketNumb (seq i) < numbBuckets := by
          by_contra hiout
          exact absurd (hleast i ⟨⟨hi, him.trans hmn⟩, hiout⟩) (not_le.mpr him)
        exact ⟨_, store_eq b hi (him.trans hmn) hin.1 hin.2, trivial⟩
      · rw [store, Window.read_ok hm hmn, ok_bind, Window.read_error (by omega)]
        rfl
    rw [herror] at hloop
    cases hloop
  · intro h
    obtain ⟨buckets', hloop, -⟩ := forUp_ok (store bucketNumb seq) (fun _ _ => True) hn trivial
      fun i b hi hin _ => ⟨_, store_eq b hi hin (h i hi hin).1 (h i hi hin).2, trivial⟩
    exact ⟨buckets', hloop⟩

end store

section distribution

variable {n : ℕ} {bucketNumb : α → ℤ} {seq : Window 0 n α} {buckets : Window 0 numbBuckets (Bucket α)}

/-- What the buckets hold when the first `k` elements have been stored. -/
def Distributed (bucketNumb : α → ℤ) (seq : Window 0 n α) (k : ℤ)
    (buckets : Window 0 numbBuckets (Bucket α)) : Prop :=
  ∀ b, 0 ≤ b → b < numbBuckets → buckets b =
    ⟨(inBucket bucketNumb seq b k.toNat).length, inBucket bucketNumb seq b k.toNat⟩

theorem initBuckets_ok (bucketNumb : α → ℤ) (seq : Window 0 n α) (buckets : Window 0 numbBuckets (Bucket α))
    (hnumb : 0 ≤ numbBuckets) :
    ∃ buckets', forUp 0 numbBuckets initBucket buckets = .ok buckets' ∧ Distributed bucketNumb seq 0 buckets' := by
  obtain ⟨buckets', hloop, hempty⟩ := forUp_ok initBucket
    (fun i (buckets : Window 0 numbBuckets (Bucket α)) => ∀ b, 0 ≤ b → b < i → buckets b = ⟨0, []⟩)
    hnumb (fun b _ _ => by omega) fun i buckets hi hin h => by
      refine ⟨_, Window.write_ok hi hin _, fun b hb hbi => ?_⟩
      by_cases heq : b = i
      · rw [heq, Function.update_self]
      · rw [Function.update_of_ne heq]
        exact h b hb (by omega)
  exact ⟨buckets', hloop, hempty⟩

theorem Distributed.store {k : ℤ} (h : Distributed bucketNumb seq k buckets) (hk : 0 ≤ k) (hkn : k < n)
    (hlow : 0 ≤ bucketNumb (seq k)) (hhigh : bucketNumb (seq k) < numbBuckets) :
    ∃ buckets', store bucketNumb seq k buckets = .ok buckets' ∧ Distributed bucketNumb seq (k + 1) buckets' := by
  refine ⟨_, store_eq buckets hk hkn hlow hhigh, fun b hb hbn => ?_⟩
  obtain ⟨k, rfl⟩ := Int.eq_ofNat_of_zero_le hk
  have hold := h b hb hbn
  rw [Int.toNat_natCast] at hold
  rw [Int.toNat_natCast_add_one, inBucket]
  by_cases heq : bucketNumb (seq k) = b
  · rw [if_pos heq, heq, Function.update_self, hold]
    rfl
  · rw [if_neg heq, Function.update_of_ne (Ne.symm heq), hold]

theorem distribute_ok (h : Distributed bucketNumb seq 0 buckets)
    (hnumb : ∀ i, 0 ≤ i → i < (n : ℤ) → 0 ≤ bucketNumb (seq i) ∧ bucketNumb (seq i) < numbBuckets) :
    ∃ buckets', forUp 0 n (Bucketsort.store bucketNumb seq) buckets = .ok buckets' ∧
      Distributed bucketNumb seq n buckets' :=
  forUp_ok _ (Distributed bucketNumb seq) (Int.natCast_nonneg n) h fun k _ hk hkn hdist =>
    hdist.store hk hkn (hnumb k hk hkn).1 (hnumb k hk hkn).2

end distribution

/-! ### Writing back -/

section retrieval

variable {n : ℕ} {bucketNumb : ℤ → ℤ} {a : Window 0 n ℤ} {buckets : Window 0 numbBuckets (Bucket ℤ)} {i : ℤ}
  {s : Window 0 n ℤ × ℤ}

theorem writeBack_ok (l : List ℤ) :
    ∀ s : Window 0 n ℤ × ℤ, 0 ≤ s.2 → s.2 + l.length ≤ n →
      ∃ b, l.foldlM writeBack s = .ok (b, s.2 + l.length) ∧ values b s.2 (s.2 + l.length) = l ∧
        (∀ k, k < s.2 ∨ s.2 + l.length ≤ k → b k = s.1 k) ∧ ∀ x ∈ l.head?, b s.2 = x := by
  induction l with
  | nil =>
    intro s _ _
    refine ⟨s.1, ?_, ?_, fun _ _ => rfl, fun x hx => by cases hx⟩
    · rw [List.foldlM_nil, List.length_nil, Int.natCast_zero, add_zero]
      rfl
    · rw [List.length_nil, Int.natCast_zero, add_zero, values_of_le _ le_rfl, Multiset.coe_nil]
  | cons x l ih =>
    intro s hpos hroom
    rw [List.length_cons, Int.natCast_succ] at hroom ⊢
    have hend : s.2 + ((l.length : ℤ) + 1) = s.2 + 1 + l.length := by omega
    have hwrite : writeBack s x = .ok (Function.update s.1 s.2 x, s.2 + 1) := by
      rw [writeBack, Window.write_ok hpos (by omega)]
      rfl
    obtain ⟨b, hb, hvalues, hoff, -⟩ := ih (Function.update s.1 s.2 x, s.2 + 1) (by simp only; omega)
      (by simp only; omega)
    simp only at hb hvalues hoff
    have hfirst : b s.2 = x := by
      rw [hoff s.2 (by omega), Function.update_self]
    rw [hend]
    refine ⟨b, by rw [List.foldlM_cons, hwrite, ok_bind, hb], ?_, fun k hk => ?_, fun y hy => ?_⟩
    · rw [values_first b (by omega), hfirst, hvalues, Multiset.cons_coe]
    · rw [hoff k (by omega), Function.update_of_ne (by omega)]
    · rw [hfirst]
      exact Option.mem_some.mp hy

/-- Before round `i` of the third loop the elements of the buckets before the `i`th one are back, in order. -/
structure Retrieved (bucketNumb : ℤ → ℤ) (a : Window 0 n ℤ) (i : ℤ) (s : Window 0 n ℤ × ℤ) : Prop where
  pos : 0 ≤ s.2
  values : values s.1 0 s.2 = (values a 0 n).filter (bucketNumb · < i)
  sorted : MonotoneOn s.1 (Set.Ico 0 s.2)
  off : ∀ k, k < 0 ∨ (n : ℤ) ≤ k → s.1 k = a k

theorem Retrieved.next (h : Retrieved bucketNumb a i s) :
    Lib.values s.1 0 s.2 + inBucket bucketNumb a i n = (Lib.values a 0 n).filter (bucketNumb · < i + 1) := by
  rw [h.values, coe_inBucket, filter_lt_succ]

theorem Retrieved.room (h : Retrieved bucketNumb a i s) : s.2 + (inBucket bucketNumb a i n).length ≤ n := by
  have hcard := congrArg Multiset.card h.next
  have hle := Multiset.card_le_card (Multiset.filter_le (bucketNumb · < i + 1) (Lib.values a 0 n))
  rw [Multiset.card_add, card_values, Multiset.coe_card] at hcard
  rw [card_values] at hle
  have hpos := h.pos
  omega

/-- The elements of the next bucket are back too, behind the others, as they come out of it. -/
structure WrittenBack (bucketNumb : ℤ → ℤ) (a : Window 0 n ℤ) (i j : ℤ) (s : Window 0 n ℤ × ℤ)
    (b : Window 0 n ℤ) : Prop where
  next : values b s.2 j = inBucket bucketNumb a i n
  values : values b 0 j = (Lib.values a 0 n).filter (bucketNumb · < i + 1)
  sorted : GapSorted 1 b (s.2 + 1)
  above : ∀ p q, 0 ≤ p → p < s.2 → s.2 ≤ q → q < j → b p ≤ b q
  top : ∀ x ∈ (inBucket bucketNumb a i n).head?, b s.2 = x
  off : ∀ k, k < 0 ∨ (n : ℤ) ≤ k → b k = a k

theorem WrittenBack.mem {j : ℤ} {b : Window 0 n ℤ} (h : WrittenBack bucketNumb a i j s b) {q : ℤ}
    (hq : s.2 ≤ q) (hqj : q < j) : b q ∈ inBucket bucketNumb a i n := by
  rw [← Multiset.mem_coe, ← h.next]
  exact mem_values.mpr ⟨q, ⟨hq, hqj⟩, rfl⟩

theorem Retrieved.writeBack (h : Retrieved bucketNumb a i s) (hmono : Monotone bucketNumb)
    (hne : inBucket bucketNumb a i n ≠ []) :
    ∃ b, (inBucket bucketNumb a i n).foldlM writeBack s = .ok (b, s.2 + (inBucket bucketNumb a i n).length) ∧
      WrittenBack bucketNumb a i (s.2 + (inBucket bucketNumb a i n).length) s b := by
  obtain ⟨b, hb, hnext, hoff, htop⟩ := writeBack_ok (inBucket bucketNumb a i n) s h.pos h.room
  have hpos := h.pos
  have hroom := h.room
  have hlen := List.length_pos_of_ne_nil hne
  have hbefore : Lib.values b 0 s.2 = Lib.values s.1 0 s.2 := values_congr fun k _ hk => hoff k (.inl hk)
  -- an element of this bucket is not below one of an earlier bucket
  have habove : ∀ p q, 0 ≤ p → p < s.2 → s.2 ≤ q → q < s.2 + (inBucket bucketNumb a i n).length →
      b p ≤ b q := by
    intro p q hp hps hq hqj
    have hmemp : b p ∈ (Lib.values a 0 n).filter (bucketNumb · < i) := by
      rw [← h.values, ← hbefore]
      exact mem_values.mpr ⟨p, ⟨hp, hps⟩, rfl⟩
    have hmemq : b q ∈ inBucket bucketNumb a i n := by
      rw [← Multiset.mem_coe, ← hnext]
      exact mem_values.mpr ⟨q, ⟨hq, hqj⟩, rfl⟩
    have hnumbp := (Multiset.mem_filter.mp hmemp).2
    have hnumbq := (mem_inBucket.mp hmemq).2
    by_contra hlt
    have hle := hmono (not_le.mp hlt).le
    omega
  refine ⟨b, hb, hnext, ?_, fun k hk hks => ?_, habove, htop, fun k hk => ?_⟩
  · rw [← values_add b hpos (by omega), hbefore, hnext, h.next]
  · rcases (Int.lt_add_one_iff.mp hks).eq_or_lt with heq | hlt
    · exact habove k (k + 1) hk (by omega) heq.ge (by omega)
    · rw [hoff k (by omega), hoff (k + 1) (.inl hlt)]
      exact monotoneOn_Ico_iff.mp h.sorted k (k + 1) hk (by omega) hlt
  · rw [hoff k (by omega)]
    exact h.off k hk

theorem Retrieved.retrieve (h : Retrieved bucketNumb a i s) (hmono : Monotone bucketNumb)
    (hdist : Distributed bucketNumb a n buckets) (hi : 0 ≤ i) (hin : i < numbBuckets)
    (htop : s.2 = 0 → ∀ x ∈ (inBucket bucketNumb a i n).head?, ∀ y ∈ inBucket bucketNumb a i n, x ≤ y) :
    ∃ s', retrieve buckets i s = .ok s' ∧ Retrieved bucketNumb a (i + 1) s' := by
  have hbucket := hdist i hi hin
  rw [Int.toNat_natCast] at hbucket
  rw [Bucketsort.retrieve, Window.read_ok hi hin, ok_bind, hbucket]
  by_cases hempty : inBucket bucketNumb a i n = []
  · have hvalues := h.next
    rw [hempty, Multiset.coe_nil, add_zero] at hvalues
    rw [hempty]
    exact ⟨s, rfl, h.pos, hvalues, h.sorted, h.off⟩
  · obtain ⟨b, hb, hback⟩ := h.writeBack hmono hempty
    have hlen := List.length_pos_of_ne_nil hempty
    obtain ⟨c, hc, hsorts⟩ := insertsort_ok h.pos (by omega) h.room hback.sorted fun q hq hqj => by
      by_cases hfirst : s.2 = 0
      · refine htop hfirst (b 0) ?_ (b q) (hback.mem hq hqj)
        have hhead := List.head?_eq_some_head hempty
        rw [hhead, ← hfirst, hback.top _ hhead]
        rfl
      · have hpos := h.pos
        exact hback.above 0 q le_rfl (by omega) hq hqj
    refine ⟨(c, s.2 + (inBucket bucketNumb a i n).length), ?_, ?_, ?_, hsorts.sorted, fun k hk => ?_⟩
    · rw [if_pos (Int.natCast_pos.mpr hlen), hb, ok_bind]
      simp only
      rw [hc]
      rfl
    · have hpos := h.pos
      simp only
      omega
    · exact hsorts.values.trans hback.values
    · have hroom := h.room
      simp only
      rw [hsorts.off k (by omega)]
      exact hback.off k hk

theorem retrieved_start (a : Window 0 n ℤ) (hlow : ∀ i, 0 ≤ i → i < (n : ℤ) → 0 ≤ bucketNumb (a i)) :
    Retrieved bucketNumb a 0 (a, 0) := by
  refine ⟨le_rfl, ?_, monotoneOn_of_le _ (by simp only; omega), fun _ _ => rfl⟩
  rw [values_of_le a le_rfl]
  exact (filter_lt_eq_zero_iff.mpr hlow).symm

theorem Retrieved.eq_zero_iff (h : Retrieved bucketNumb a i s) :
    s.2 = 0 ↔ ∀ k, 0 ≤ k → k < (n : ℤ) → i ≤ bucketNumb (a k) := by
  rw [← filter_lt_eq_zero_iff, ← h.values, ← Multiset.card_eq_zero, card_values]
  have hpos := h.pos
  omega

theorem Retrieved.retrieve_error (h : Retrieved bucketNumb a i s) (hmono : Monotone bucketNumb)
    (hdist : Distributed bucketNumb a n buckets) (hi : 0 ≤ i) (hin : i < numbBuckets) (hzero : s.2 = 0)
    {x y : ℤ} {l : List ℤ} (htop : inBucket bucketNumb a i n = x :: l) (hy : y ∈ x :: l) (hlt : y < x) :
    Bucketsort.retrieve buckets i s = .error .outOfBounds := by
  have hne : inBucket bucketNumb a i n ≠ [] := by
    rw [htop]
    exact List.cons_ne_nil x l
  obtain ⟨b, hb, hback⟩ := h.writeBack hmono hne
  have hbucket := hdist i hi hin
  rw [Int.toNat_natCast] at hbucket
  have hless : ∃ k, (0 ≤ k ∧ k < s.2 + (inBucket bucketNumb a i n).length) ∧ b k < b 0 := by
    have hmem : y ∈ Lib.values b s.2 (s.2 + (inBucket bucketNumb a i n).length) := by
      rw [hback.next, Multiset.mem_coe, htop]
      exact hy
    obtain ⟨k, ⟨hk, hkj⟩, rfl⟩ := mem_values.mp hmem
    have hfirst := hback.top x (by rw [htop]; rfl)
    rw [hzero] at hfirst
    exact ⟨k, ⟨by omega, hkj⟩, by rwa [hfirst]⟩
  have herror := insertsort_error h.room hless
  have hlen := List.length_pos_of_ne_nil hne
  rw [Bucketsort.retrieve, Window.read_ok hi hin, ok_bind, hbucket, if_pos (Int.natCast_pos.mpr hlen), hb,
    ok_bind]
  simp only
  rw [hzero] at herror ⊢
  rw [herror]
  rfl

theorem Retrieved.sorts (h : Retrieved bucketNumb a numbBuckets s)
    (hhigh : ∀ i, 0 ≤ i → i < (n : ℤ) → bucketNumb (a i) < numbBuckets) : Sorts 0 n a s.1 := by
  have hvalues := h.values
  have hall : (Lib.values a 0 n).filter (bucketNumb · < numbBuckets) = Lib.values a 0 n := by
    rw [Multiset.filter_eq_self]
    intro x hx
    obtain ⟨k, ⟨hk, hkn⟩, rfl⟩ := mem_values.mp hx
    exact hhigh k hk hkn
  rw [hall] at hvalues
  have hcard := congrArg Multiset.card hvalues
  rw [card_values, card_values] at hcard
  have hend : s.2 = n := by
    have hpos := h.pos
    omega
  have hsorted := h.sorted
  rw [hend] at hvalues hsorted
  exact ⟨⟨h.off, hvalues⟩, hsorted⟩

theorem retrieveAll_ok (hmono : Monotone bucketNumb) (hdist : Distributed bucketNumb a n buckets)
    (hnumb : ∀ i, 0 ≤ i → i < (n : ℤ) → 0 ≤ bucketNumb (a i) ∧ bucketNumb (a i) < numbBuckets)
    (hnonneg : 0 ≤ numbBuckets) (h : LastIsLeast bucketNumb a n) :
    ∃ s, forUp 0 numbBuckets (Bucketsort.retrieve buckets) (a, 0) = .ok s ∧ Sorts 0 n a s.1 := by
  obtain ⟨s, hs, hret⟩ := forUp_ok (Bucketsort.retrieve buckets) (Retrieved bucketNumb a) hnonneg
    (retrieved_start a fun i hi hin => (hnumb i hi hin).1) fun i s hi hin hret => by
      refine hret.retrieve hmono hdist hi hin fun hzero x hx y hy => ?_
      obtain ⟨l, hl⟩ := List.head?_eq_some_iff.mp hx
      obtain ⟨⟨k, ⟨hk, hkn⟩, rfl⟩, -⟩ := mem_inBucket.mp hy
      exact h.top_le hl (hret.eq_zero_iff.mp hzero) k hk hkn
  exact ⟨s, hs, hret.sorts fun i hi hin => (hnumb i hi hin).2⟩

theorem retrieveAll_error (hmono : Monotone bucketNumb) (hdist : Distributed bucketNumb a n buckets)
    (hnumb : ∀ i, 0 ≤ i → i < (n : ℤ) → 0 ≤ bucketNumb (a i) ∧ bucketNumb (a i) < numbBuckets)
    (h : ¬ LastIsLeast bucketNumb a n) :
    forUp 0 numbBuckets (Bucketsort.retrieve buckets) (a, 0) = .error .outOfBounds := by
  obtain ⟨m, x, l, ⟨k, ⟨hk, hkn⟩, rfl⟩, hfirst, htop, y, hy, hyx⟩ := exists_lt_top hmono h
  have hm := hnumb k hk hkn
  have hempty : ∀ i, i < bucketNumb (a k) → inBucket bucketNumb a i n = [] := by
    intro i hi
    rw [List.eq_nil_iff_forall_not_mem]
    intro z hz
    obtain ⟨⟨j, ⟨hj, hjn⟩, rfl⟩, hnumbz⟩ := mem_inBucket.mp hz
    have hle := hfirst j hj hjn
    omega
  refine forUp_error (Bucketsort.retrieve buckets) (Retrieved bucketNumb a) hm.1 hm.2
    (retrieved_start a fun i hi hin => (hnumb i hi hin).1) (fun i s hi him hret => ?_) fun s hret => ?_
  · refine hret.retrieve hmono hdist hi (by omega) fun _ z hz => ?_
    rw [hempty i him] at hz
    cases hz
  · exact hret.retrieve_error hmono hdist hm.1 hm.2 (hret.eq_zero_iff.mpr hfirst) htop hy hyx

end retrieval

/-! ### The bucket numbers -/

section hash

variable {value numbBuckets max : ℤ}

theorem hash_mono (hnumb : 0 ≤ numbBuckets) (hmax : 0 < max) : Monotone (hash · numbBuckets max) :=
  fun _ _ h => Int.tdiv_le_tdiv hmax (mul_le_mul_of_nonneg_right h hnumb)

theorem hash_nonneg (hvalue : 0 ≤ value) (hnumb : 0 ≤ numbBuckets) (hmax : 0 ≤ max) :
    0 ≤ hash value numbBuckets max :=
  Int.tdiv_nonneg (mul_nonneg hvalue hnumb) hmax

theorem hash_lt (hvalue : 0 ≤ value) (hlt : value < max) (hnumb : 0 < numbBuckets) :
    hash value numbBuckets max < numbBuckets := by
  rw [hash, Int.tdiv_eq_ediv_of_nonneg (mul_nonneg hvalue hnumb.le)]
  refine Int.ediv_lt_of_lt_mul (hvalue.trans_lt hlt) ?_
  rw [mul_comm]
  exact mul_lt_mul_of_pos_left hlt hnumb

end hash

/-- The sequence is sorted exactly when the last element of those with the smallest bucket number is a smallest
one. -/
theorem bucketsort_sorts_iff (n : ℕ) (hn : 2 ≤ n) (max : ℤ) (seq : Window 0 n ℤ)
    (hseq : ∀ i, 0 ≤ i → i < (n : ℤ) → 0 ≤ seq i ∧ seq i < max)
    (buckets : Window 0 ((n : ℤ).tdiv bucketRatio) (Bucket ℤ)) :
    (∃ b, bucketsort seq n max buckets = .ok b ∧ Sorts 0 n seq b) ↔
      LastIsLeast (hash · ((n : ℤ).tdiv bucketRatio) max) seq n := by
  have hnumb : 0 < (n : ℤ).tdiv bucketRatio := by
    rw [bucketRatio, Int.tdiv_eq_ediv_of_nonneg (Int.natCast_nonneg n)]
    omega
  have hmax : 0 < max := (hseq 0 le_rfl (by omega)).1.trans_lt (hseq 0 le_rfl (by omega)).2
  have hmono := hash_mono hnumb.le hmax
  have hin : ∀ i, 0 ≤ i → i < (n : ℤ) → 0 ≤ hash (seq i) ((n : ℤ).tdiv bucketRatio) max ∧
      hash (seq i) ((n : ℤ).tdiv bucketRatio) max < (n : ℤ).tdiv bucketRatio := fun i hi hin =>
    ⟨hash_nonneg (hseq i hi hin).1 hnumb.le hmax.le, hash_lt (hseq i hi hin).1 (hseq i hi hin).2 hnumb⟩
  obtain ⟨buckets₁, hinit, hempty⟩ :=
    initBuckets_ok (hash · ((n : ℤ).tdiv bucketRatio) max) seq buckets hnumb.le
  obtain ⟨buckets₂, hstore, hdist⟩ := distribute_ok hempty hin
  have hrun : bucketsort seq n max buckets =
      (forUp 0 ((n : ℤ).tdiv bucketRatio) (retrieve buckets₂) (seq, 0) >>= fun s => pure s.1) := by
    rw [bucketsort]
    simp only
    rw [hinit, ok_bind, hstore, ok_bind]
  rw [hrun]
  constructor
  · intro h
    obtain ⟨b, hb, -⟩ := h
    by_contra hnot
    rw [retrieveAll_error hmono hdist hin hnot] at hb
    cases hb
  · intro hlast
    obtain ⟨s, hs, hsorts⟩ := retrieveAll_ok hmono hdist hin hnumb.le hlast
    exact ⟨s.1, by rw [hs]; rfl, hsorts⟩

theorem bucketsort_sorts_iff_two :
    (∃ b, bucketsort (.ofList [1, 0]) (2 : ℕ) 2 (fun _ => ⟨0, []⟩) = .ok b ∧
      Sorts 0 (2 : ℕ) (Window.ofList [1, 0]) b) ↔
      LastIsLeast (hash · (((2 : ℕ) : ℤ).tdiv bucketRatio) 2) (Window.ofList [1, 0]) (2 : ℕ) := by
  refine bucketsort_sorts_iff 2 le_rfl 2 (.ofList [1, 0]) (fun i hi hin => ?_) (fun _ => ⟨0, []⟩)
  obtain rfl | rfl : i = 0 ∨ i = 1 := by omega
  · decide
  · decide

theorem bucketsort_two : bucketsort (.ofList [0, 1]) (2 : ℕ) 2 (fun _ => ⟨0, []⟩) = .error .outOfBounds := rfl

theorem not_bucketsort_sorts_two : ¬ ∃ b, bucketsort (.ofList [0, 1]) (2 : ℕ) 2 (fun _ => ⟨0, []⟩) = .ok b ∧
    Sorts 0 (2 : ℕ) (Window.ofList [0, 1]) b := by
  intro h
  obtain ⟨b, hb, -⟩ := h
  rw [bucketsort_two] at hb
  cases hb

/-! ### 32-bit arithmetic -/

def hash32 (value numbBuckets max : Int32) : Int32 := value * numbBuckets / max

def numbBuckets32 (size : Int32) : Int32 := size / .ofInt bucketRatio

/-- Every element has a bucket number. -/
def NumbersInRange (size max : Int32) (seq : Window 0 size.toInt Int32) : Prop :=
  ∀ i, 0 ≤ i → i < size.toInt → 0 ≤ hash32 (seq i) (numbBuckets32 size) max ∧
    hash32 (seq i) (numbBuckets32 size) max < numbBuckets32 size

theorem numbersInRange_iff_store {size max : Int32} (hsize : 0 ≤ size.toInt) (seq : Window 0 size.toInt Int32)
    (buckets : Window 0 (numbBuckets32 size).toInt (Bucket Int32)) :
    NumbersInRange size max seq ↔ ∃ buckets', forUp 0 size.toInt
      (store (fun value => (hash32 value (numbBuckets32 size) max).toInt) seq) buckets = .ok buckets' := by
  rw [store_inBounds_iff _ _ _ hsize, NumbersInRange]
  simp only [Int32.le_iff_toInt_le, Int32.lt_iff_toInt_lt, Int32.toInt_zero]

section hash32

variable {value numbBuckets max : Int32}

theorem toInt_hash32 (hmax : 1 ≤ max.toInt) : (hash32 value numbBuckets max).toInt =
    ((value.toInt * numbBuckets.toInt).bmod (2 ^ 32)).tdiv max.toInt := by
  have hne : max ≠ -1 := by
    rintro rfl
    revert hmax
    decide
  rw [hash32, Int32.toInt_div_of_ne_right _ _ hne, Int32.toInt_mul]

theorem hash32_exact (hmax : 1 ≤ max.toInt) (hlow : 0 ≤ value.toInt * numbBuckets.toInt)
    (hfits : value.toInt * numbBuckets.toInt < 2 ^ 31) :
    (hash32 value numbBuckets max).toInt = hash value.toInt numbBuckets.toInt max.toInt := by
  rw [toInt_hash32 hmax, hash, Int.bmod_eq_of_le (by omega) (by omega)]

theorem bmod_le_self {p : ℤ} (hp : 0 ≤ p) : p.bmod (2 ^ 32) ≤ p := by
  rw [Int.bmod_def]
  split <;> omega

theorem tdiv_nonneg_iff {p m : ℤ} (hm : 0 < m) : 0 ≤ p.tdiv m ↔ -m < p := by
  constructor
  · intro h
    by_contra hle
    have hone := Int.tdiv_le_tdiv hm (not_lt.mp hle)
    rw [Int.neg_tdiv, Int.tdiv_self hm.ne'] at hone
    omega
  · intro h
    have hzero := Int.tdiv_le_tdiv hm (show -(m - 1) ≤ p by omega)
    rwa [Int.neg_tdiv, Int.tdiv_eq_zero_of_lt (by omega) (by omega), neg_zero] at hzero

theorem hash32_inRange_iff (hvalue : 0 ≤ value.toInt) (hlt : value.toInt < max.toInt)
    (hnumb : 0 ≤ numbBuckets.toInt) :
    0 ≤ hash32 value numbBuckets max ∧ hash32 value numbBuckets max < numbBuckets ↔
      0 < numbBuckets.toInt ∧ -max.toInt < (value.toInt * numbBuckets.toInt).bmod (2 ^ 32) := by
  have hmax : 0 < max.toInt := hvalue.trans_lt hlt
  have hproduct := mul_nonneg hvalue hnumb
  rw [Int32.le_iff_toInt_le, Int32.lt_iff_toInt_lt, Int32.toInt_zero, toInt_hash32 hmax, tdiv_nonneg_iff hmax]
  constructor
  · intro h
    obtain ⟨hlow, hhigh⟩ := h
    have hquot := (tdiv_nonneg_iff hmax).mpr hlow
    exact ⟨hquot.trans_lt hhigh, hlow⟩
  · intro h
    obtain ⟨hpos, hlow⟩ := h
    refine ⟨hlow, ?_⟩
    calc ((value.toInt * numbBuckets.toInt).bmod (2 ^ 32)).tdiv max.toInt
        ≤ (value.toInt * numbBuckets.toInt).tdiv max.toInt := Int.tdiv_le_tdiv hmax (bmod_le_self hproduct)
      _ < numbBuckets.toInt := hash_lt hvalue hlt hpos

end hash32

theorem toInt_numbBuckets32 {size : Int32} (hsize : 1 ≤ size.toInt) :
    (numbBuckets32 size).toInt = size.toInt / 2 := by
  have htwo : (Int32.ofInt bucketRatio).toInt = 2 := by decide
  rw [numbBuckets32, Int32.toInt_div_of_ne_right _ _ (by decide), htwo, Int.tdiv_eq_ediv_of_nonneg (by omega)]

theorem neg_lt_bmod_iff {p m : ℤ} (hm : 0 < m) (hm' : m ≤ 2 ^ 31) :
    -m < p.bmod (2 ^ 32) ↔ p % 2 ^ 32 < 2 ^ 31 ∨ 2 ^ 32 - m < p % 2 ^ 32 := by
  rw [Int.bmod_def]
  split <;> omega

/-- There must be a bucket, and no product may wrap to a value from `-2 ^ 31` to `-max`. -/
theorem numbersInRange_iff (size max : Int32) (hsize : 1 ≤ size) (hmax : 1 ≤ max)
    (seq : Window 0 size.toInt Int32) (hseq : ∀ i, 0 ≤ i → i < size.toInt → 0 ≤ seq i ∧ seq i < max) :
    NumbersInRange size max seq ↔ 2 ≤ size ∧ ∀ i, 0 ≤ i → i < size.toInt →
      (seq i).toInt * (size.toInt / 2) % 2 ^ 32 < 2 ^ 31 ∨
        2 ^ 32 - max.toInt < (seq i).toInt * (size.toInt / 2) % 2 ^ 32 := by
  have hsize' : 1 ≤ size.toInt := Int32.le_iff_toInt_le.mp hsize
  have hmax' : 1 ≤ max.toInt := Int32.le_iff_toInt_le.mp hmax
  have hbelow := max.toInt_lt
  have hnumb := toInt_numbBuckets32 hsize'
  have hiff : ∀ i, 0 ≤ i → i < size.toInt →
      (0 ≤ hash32 (seq i) (numbBuckets32 size) max ∧
        hash32 (seq i) (numbBuckets32 size) max < numbBuckets32 size ↔
      2 ≤ size.toInt ∧ ((seq i).toInt * (size.toInt / 2) % 2 ^ 32 < 2 ^ 31 ∨
        2 ^ 32 - max.toInt < (seq i).toInt * (size.toInt / 2) % 2 ^ 32)) := by
    intro i hi hin
    have hvalue : 0 ≤ (seq i).toInt := Int32.le_iff_toInt_le.mp (hseq i hi hin).1
    have hlt : (seq i).toInt < max.toInt := Int32.lt_iff_toInt_lt.mp (hseq i hi hin).2
    rw [hash32_inRange_iff hvalue hlt (by omega), hnumb, neg_lt_bmod_iff (by omega) (by omega)]
    refine and_congr_left fun _ => ?_
    omega
  have htwo : 2 ≤ size ↔ 2 ≤ size.toInt := Int32.le_iff_toInt_le
  rw [htwo]
  constructor
  · intro h
    exact ⟨((hiff 0 le_rfl (by omega)).mp (h 0 le_rfl (by omega))).1, fun i hi hin =>
      ((hiff i hi hin).mp (h i hi hin)).2⟩
  · rintro ⟨hsize₂, h⟩ i hi hin
    exact (hiff i hi hin).mpr ⟨hsize₂, h i hi hin⟩

theorem numbersInRange_iff_two :
    NumbersInRange 2 2 (.ofList [1, 0]) ↔ (2 : Int32) ≤ 2 ∧ ∀ i, 0 ≤ i → i < (2 : Int32).toInt →
      ((Window.ofList [(1 : Int32), 0]) i).toInt * ((2 : Int32).toInt / 2) % 2 ^ 32 < 2 ^ 31 ∨
        2 ^ 32 - (2 : Int32).toInt < ((Window.ofList [(1 : Int32), 0]) i).toInt * ((2 : Int32).toInt / 2) % 2 ^ 32 := by
  refine numbersInRange_iff 2 2 (by decide) (by decide) (.ofList [1, 0]) fun i hi hin => ?_
  obtain rfl | rfl : i = 0 ∨ i = 1 := by
    rw [show (2 : Int32).toInt = 2 by decide] at hin
    omega
  · decide
  · decide

/-- One element has no bucket, and with two buckets the product of a large element is negative. -/
theorem not_numbersInRange : ¬ NumbersInRange 1 1 (.ofList [0]) ∧
    ¬ NumbersInRange 4 1073741825 (.ofList [1073741824, 0, 0, 0]) := by
  constructor
  · intro h
    exact absurd (h 0 le_rfl (by decide)) (by decide)
  · intro h
    exact absurd (h 0 le_rfl (by decide)) (by decide)

end CodingForFun.Bucketsort
