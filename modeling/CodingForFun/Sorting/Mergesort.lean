import CodingForFun.Lib.Merge
import CodingForFun.Sorting.Basic

/-!
# Merge sort

`merge` merges two sorted parts of `numbers` into `temp` and copies them back, with one cell too many: the
one before the parts. Where the parts are not at the start of the array, this cell is the last one of a part
that was merged before, at least as long as the two parts together, and still in `temp` (`Ready`); so the
copy does not change it. Where they are, the copy goes from `temp[-1]` to `numbers[-1]`
(`mergesort_inBounds_iff`). To see what is left of the array then, the two pointers are taken into blocks
that have one more cell in front (`mSort_sorts`).
-/

namespace CodingForFun.Sorting

open Lib

variable {lo hi size : ℤ}

/-- The arrays `numbers` and `temp`. -/
structure Arrays (lo hi size : ℤ) where
  numbers : Window lo hi ℤ
  temp : Window lo size ℤ

/-- The array `temp` and the variables of the loops of `merge`. -/
structure Merging (lo size : ℤ) where
  temp : Window lo size ℤ
  left : ℤ
  mid : ℤ
  tmpPos : ℤ

def takeLeft (numbers : Window lo hi ℤ) (s : Merging lo size) : Except Fault (Merging lo size) := do
  let temp ← s.temp.write s.tmpPos (← numbers.read s.left)
  pure { s with temp, tmpPos := s.tmpPos + 1, left := s.left + 1 }

def takeMid (numbers : Window lo hi ℤ) (s : Merging lo size) : Except Fault (Merging lo size) := do
  let temp ← s.temp.write s.tmpPos (← numbers.read s.mid)
  pure { s with temp, tmpPos := s.tmpPos + 1, mid := s.mid + 1 }

/-- The body of the first loop. -/
def takeNext (numbers : Window lo hi ℤ) (s : Merging lo size) : Except Fault (Merging lo size) := do
  if (← numbers.read s.left) ≤ (← numbers.read s.mid) then
    takeLeft numbers s
  else
    takeMid numbers s

/-- The first three loops of `merge`, and what they leave in `temp`. -/
def mergeSides (s : Arrays lo hi size) (left mid right : ℤ) : Except Fault (Window lo size ℤ) := do
  let leftEnd := mid - 1
  let fuel := (right - left + 2).toNat
  let t ← whileM .unbounded (fun t => pure (decide (t.left ≤ leftEnd) && decide (t.mid ≤ right)))
    (takeNext s.numbers) fuel (⟨s.temp, left, mid, left⟩ : Merging lo size)
  let t ← whileM .unbounded (fun t => pure (decide (t.left ≤ leftEnd))) (takeLeft s.numbers) fuel t
  let t ← whileM .unbounded (fun t => pure (decide (t.mid ≤ right))) (takeMid s.numbers) fuel t
  pure t.temp

/-- `numbers[right] = temp[right]; right = right - 1;` -/
def copyCell (temp : Window lo size ℤ) (s : Window lo hi ℤ × ℤ) : Except Fault (Window lo hi ℤ × ℤ) := do
  let numbers ← s.1.write s.2 (← temp.read s.2)
  pure (numbers, s.2 - 1)

/-- The last loop of `merge`. -/
def copyBack (s : Arrays lo hi size) (right numElements : ℤ) : Except Fault (Arrays lo hi size) := do
  let (numbers, _) ← forUp 0 (numElements + 1) (fun _ => copyCell s.temp) (s.numbers, right)
  pure ⟨numbers, s.temp⟩

def merge (s : Arrays lo hi size) (left mid right : ℤ) : Except Fault (Arrays lo hi size) := do
  let temp ← mergeSides s left mid right
  copyBack ⟨s.numbers, temp⟩ right (right - left + 1)

/-- `m_sort`. The sum `right + left` is exact, as it is in an `int` for all `size` up to `2 ^ 30`. -/
def mSort (s : Arrays lo hi size) (left right : ℤ) : Except Fault (Arrays lo hi size) :=
  if _h : right > left then do
    let mid := (right + left) / 2
    let s ← mSort s left mid
    let s ← mSort s (mid + 1) right
    merge s left (mid + 1) right
  else
    pure s
termination_by (right - left).toNat
decreasing_by all_goals omega

/-- `mergesort`, where `temp[SIZE]` starts with any contents. -/
def mergesort (temp : Window lo size ℤ) (numbers : Window lo hi ℤ) (arraySize : ℤ) :
    Except Fault (Window lo hi ℤ) := do
  let s ← mSort ⟨numbers, temp⟩ 0 (arraySize - 1)
  pure s.numbers

/-! ### Merging -/

/-- Two parts of `numbers` that are in order, inside both arrays. -/
structure Parts (s : Arrays lo hi size) (l m r : ℤ) : Prop where
  range : lo ≤ l ∧ l < m ∧ m ≤ r ∧ r < hi ∧ r < size
  left : MonotoneOn s.numbers (Set.Ico l m)
  right : MonotoneOn s.numbers (Set.Ico m (r + 1))

/-- What the loops of `merge` have taken of the two parts of `numbers`, and that they have left the rest of
`temp` as it was. -/
structure Taking (s : Arrays lo hi size) (l m r : ℤ) (t : Merging lo size) : Prop where
  merged : Merged s.numbers l m (r + 1) t.temp t.left t.mid
  pos : t.tmpPos = t.left + t.mid - m
  off : ∀ i, i < l ∨ r < i → t.temp i = s.temp i

section merging

variable {s : Arrays lo hi size} {l m r : ℤ} {t : Merging lo size}

theorem Parts.start (hparts : Parts s l m r) : Taking s l m r ⟨s.temp, l, m, l⟩ := by
  have hrange := hparts.range
  exact ⟨.start _ _ (by omega) (by omega), by simp only; omega, fun _ _ => rfl⟩

theorem Taking.takeLeft (h : Taking s l m r t) (hparts : Parts s l m r) (hlt : t.left < m)
    (hle : t.mid ≤ r → s.numbers t.left ≤ s.numbers t.mid) :
    ∃ t', Sorting.takeLeft s.numbers t = .ok t' ∧ Taking s l m r t' ∧ t'.left = t.left + 1 ∧
      t'.mid = t.mid := by
  have hrange := hparts.range
  obtain ⟨hlow, -, hmid, hhigh⟩ := h.merged.range
  have hpos := h.pos
  have htake := h.merged.takeLeft hparts.left hparts.right hlt fun hj => hle (by omega)
  refine ⟨⟨Function.update t.temp t.tmpPos (s.numbers t.left), t.left + 1, t.mid, t.tmpPos + 1⟩, ?_,
    ⟨?_, ?_, ?_⟩, rfl, rfl⟩
  · simp only [Sorting.takeLeft, Window.read_ok (by omega : lo ≤ t.left) (by omega : t.left < hi), ok_bind]
    rw [Window.write_ok (by omega) (by omega), ok_bind]
    rfl
  · rwa [← hpos] at htake
  · simp only
    omega
  · intro i hi
    simp only
    rw [Function.update_of_ne (by omega)]
    exact h.off i hi

theorem Taking.takeMid (h : Taking s l m r t) (hparts : Parts s l m r) (hlt : t.mid ≤ r)
    (hle : t.left < m → s.numbers t.mid ≤ s.numbers t.left) :
    ∃ t', Sorting.takeMid s.numbers t = .ok t' ∧ Taking s l m r t' ∧ t'.left = t.left ∧
      t'.mid = t.mid + 1 := by
  have hrange := hparts.range
  obtain ⟨hlow, hleft, hmid, hhigh⟩ := h.merged.range
  have hpos := h.pos
  have htake := h.merged.takeRight hparts.left hparts.right (by omega) hle
  refine ⟨⟨Function.update t.temp t.tmpPos (s.numbers t.mid), t.left, t.mid + 1, t.tmpPos + 1⟩, ?_,
    ⟨?_, ?_, ?_⟩, rfl, rfl⟩
  · simp only [Sorting.takeMid, Window.read_ok (by omega : lo ≤ t.mid) (by omega : t.mid < hi), ok_bind]
    rw [Window.write_ok (by omega) (by omega), ok_bind]
    rfl
  · rwa [← hpos] at htake
  · simp only
    omega
  · intro i hi
    simp only
    rw [Function.update_of_ne (by omega)]
    exact h.off i hi

theorem Taking.takeNext (h : Taking s l m r t) (hparts : Parts s l m r) (hleft : t.left < m)
    (hmid : t.mid ≤ r) :
    ∃ t', Sorting.takeNext s.numbers t = .ok t' ∧ Taking s l m r t' ∧
      t'.left + t'.mid = t.left + t.mid + 1 := by
  have hrange := hparts.range
  obtain ⟨hlow, -, hmid', -⟩ := h.merged.range
  have hread : s.numbers.read t.left = .ok (s.numbers t.left) := Window.read_ok (by omega) (by omega)
  have hread' : s.numbers.read t.mid = .ok (s.numbers t.mid) := Window.read_ok (by omega) (by omega)
  simp only [Sorting.takeNext, hread, hread', ok_bind]
  by_cases hle : s.numbers t.left ≤ s.numbers t.mid
  · rw [if_pos hle]
    obtain ⟨t', ht', htaking, hleft', hmid'⟩ := h.takeLeft hparts hleft fun _ => hle
    exact ⟨t', ht', htaking, by omega⟩
  · rw [if_neg hle]
    obtain ⟨t', ht', htaking, hleft', hmid'⟩ := h.takeMid hparts hmid fun _ => (not_le.mp hle).le
    exact ⟨t', ht', htaking, by omega⟩

variable (fuel : ℕ)

theorem Taking.both (h : Taking s l m r t) (hparts : Parts s l m r) (hfuel : r - l + 1 < fuel) :
    ∃ t', whileM .unbounded (fun t => pure (decide (t.left ≤ m - 1) && decide (t.mid ≤ r)))
      (Sorting.takeNext s.numbers) fuel t = .ok t' ∧ Taking s l m r t' ∧ (t'.left = m ∨ t'.mid = r + 1) := by
  have hstart := h.merged.range
  refine whileM_ok (Taking s l m r) (fun t => (m + r + 1 - t.left - t.mid).toNat) ?_ _ _ h (by omega)
  intro t h
  obtain ⟨-, hleft, -, hmid⟩ := h.merged.range
  by_cases hgo : t.left ≤ m - 1 ∧ t.mid ≤ r
  · obtain ⟨t', ht', h', hsum⟩ := h.takeNext hparts (by omega) hgo.2
    refine .inl ⟨t', ?_, ht', h', by omega⟩
    rw [decide_eq_true hgo.1, decide_eq_true hgo.2]
    rfl
  · refine .inr ⟨?_, h, by omega⟩
    rw [← Bool.decide_and, decide_eq_false hgo]
    rfl

theorem Taking.restLeft (h : Taking s l m r t) (hparts : Parts s l m r) (hone : t.left = m ∨ t.mid = r + 1)
    (hfuel : r - l + 1 < fuel) :
    ∃ t', whileM .unbounded (fun t => pure (decide (t.left ≤ m - 1))) (Sorting.takeLeft s.numbers) fuel t =
      .ok t' ∧ Taking s l m r t' ∧ t'.left = m := by
  have hrange := hparts.range
  have hstart := h.merged.range
  refine whileM_ok (fun t => Taking s l m r t ∧ (t.left = m ∨ t.mid = r + 1)) (fun t => (m - t.left).toNat)
    ?_ _ _ ⟨h, hone⟩ (by omega)
  rintro t ⟨h, hone⟩
  obtain ⟨-, hleft, -, hmid⟩ := h.merged.range
  by_cases hgo : t.left ≤ m - 1
  · obtain ⟨t', ht', h', hleft', hmid'⟩ := h.takeLeft hparts (by omega) fun hle => by omega
    exact .inl ⟨t', by rw [decide_eq_true hgo]; rfl, ht', ⟨h', by omega⟩, by omega⟩
  · exact .inr ⟨by rw [decide_eq_false hgo]; rfl, h, by omega⟩

theorem Taking.restMid (h : Taking s l m r t) (hparts : Parts s l m r) (hleft : t.left = m)
    (hfuel : r - l + 1 < fuel) :
    ∃ t', whileM .unbounded (fun t => pure (decide (t.mid ≤ r))) (Sorting.takeMid s.numbers) fuel t =
      .ok t' ∧ Taking s l m r t' ∧ t'.left = m ∧ t'.mid = r + 1 := by
  have hrange := hparts.range
  have hstart := h.merged.range
  refine whileM_ok (fun t => Taking s l m r t ∧ t.left = m) (fun t => (r + 1 - t.mid).toNat) ?_ _ _
    ⟨h, hleft⟩ (by omega)
  rintro t ⟨h, hleft⟩
  obtain ⟨-, -, -, hmid⟩ := h.merged.range
  by_cases hgo : t.mid ≤ r
  · obtain ⟨t', ht', h', hleft', hmid'⟩ := h.takeMid hparts hgo fun hlt => by omega
    exact .inl ⟨t', by rw [decide_eq_true hgo]; rfl, ht', ⟨h', by omega⟩, by omega⟩
  · exact .inr ⟨by rw [decide_eq_false hgo]; rfl, h, hleft, by omega⟩

theorem Parts.mergeSides (hparts : Parts s l m r) :
    ∃ temp, mergeSides s l m r = .ok temp ∧ values temp l (r + 1) = values s.numbers l (r + 1) ∧
      MonotoneOn temp (Set.Ico l (r + 1)) ∧ ∀ i, i < l ∨ r < i → temp i = s.temp i := by
  have hrange := hparts.range
  have hfuel : r - l + 1 < (r - l + 2).toNat := by omega
  obtain ⟨t₁, ht₁, h₁, hone⟩ := hparts.start.both _ hparts hfuel
  obtain ⟨t₂, ht₂, h₂, hleft₂⟩ := h₁.restLeft _ hparts hone hfuel
  obtain ⟨t₃, ht₃, h₃, hleft₃, hmid₃⟩ := h₂.restMid _ hparts hleft₂ hfuel
  have hmerged := h₃.merged
  rw [hleft₃, hmid₃] at hmerged
  refine ⟨t₃.temp, ?_, hmerged.finish.1, hmerged.finish.2, h₃.off⟩
  rw [Sorting.mergeSides, ht₁, ok_bind, ht₂, ok_bind, ht₃]
  rfl

end merging

/-! ### The copy back -/

section copying

variable {s : Arrays lo hi size} {r : ℤ}

/-- After `k` rounds of the last loop of `merge`. -/
def Copied (s : Arrays lo hi size) (r k : ℤ) (st : Window lo hi ℤ × ℤ) : Prop :=
  st.2 = r - k ∧ ∀ i, st.1 i = if r - k < i ∧ i ≤ r then s.temp i else s.numbers i

theorem copied_start (s : Arrays lo hi size) (r : ℤ) : Copied s r 0 (s.numbers, r) :=
  ⟨(sub_zero r).symm, fun _ => (if_neg (by omega)).symm⟩

theorem Copied.copyCell {k : ℤ} {st : Window lo hi ℤ × ℤ} (h : Copied s r k st) (hk : 0 ≤ k)
    (hlo : lo ≤ r - k) (hr : r < hi) (hr' : r < size) :
    ∃ st', copyCell s.temp st = .ok st' ∧ Copied s r (k + 1) st' := by
  obtain ⟨hpos, hcells⟩ := h
  refine ⟨(Function.update st.1 st.2 (s.temp st.2), st.2 - 1), ?_, by simp only; omega, fun i => ?_⟩
  · rw [Sorting.copyCell, Window.read_ok (by omega) (by omega), ok_bind,
      Window.write_ok (by omega) (by omega), ok_bind]
    rfl
  · simp only
    by_cases hi : i = st.2
    · rw [hi, Function.update_self, if_pos (by omega)]
    · rw [Function.update_of_ne hi, hcells i]
      exact if_congr (by omega) rfl rfl

theorem copyBack_ok {l : ℤ} (s : Arrays lo hi size) (hl : lo < l) (hlr : l ≤ r) (hr : r < hi) (hr' : r < size) :
    ∃ b, copyBack s r (r - l + 1) = .ok ⟨b, s.temp⟩ ∧
      ∀ i, b i = if l - 1 ≤ i ∧ i ≤ r then s.temp i else s.numbers i := by
  obtain ⟨⟨b, right⟩, hst, -, hb⟩ := forUp_ok (fun _ => copyCell s.temp) (Copied s r)
    (by omega : 0 ≤ r - l + 1 + 1) (copied_start s r) fun k st hk hkn h => h.copyCell hk (by omega) hr hr'
  refine ⟨b, by rw [copyBack, hst]; rfl, fun i => (hb i).trans ?_⟩
  exact if_congr (by omega) rfl rfl

theorem copyBack_error (s : Arrays lo hi size) (hlr : lo ≤ r) (hr : r < hi) (hr' : r < size) :
    copyBack s r (r - lo + 1) = .error .outOfBounds := by
  have hloop : forUp 0 (r - lo + 1 + 1) (fun _ => copyCell s.temp) (s.numbers, r) = .error .outOfBounds := by
    refine forUp_error (fun _ => copyCell s.temp) (Copied s r) (by omega : 0 ≤ r - lo + 1) (by omega)
      (copied_start s r) (fun k st hk hkn h => h.copyCell hk (by omega) hr hr') ?_
    rintro st ⟨hpos, -⟩
    rw [copyCell, Window.read_error (by omega)]
    rfl
  rw [copyBack, hloop]
  rfl

end copying

/-! ### The recursion -/

theorem mSort_of_le (s : Arrays lo hi size) {l r : ℤ} (h : r ≤ l) : mSort s l r = .ok s := by
  rw [mSort, dif_neg (not_lt.mpr h)]
  rfl

section recursion

variable {n size : ℤ} {s s' : Arrays (-1) n size} {l r : ℤ}

/-- The cell before a part, where it is one of the array, is in `temp`. -/
def Ready (s : Arrays (-1) n size) (l r : ℤ) : Prop := l < r → 0 < l → s.temp (l - 1) = s.numbers (l - 1)

/-- The part from `l` up to `r` of `numbers` has been sorted, and no other part of the arrays has been changed.
A part that was merged is in `temp` too. -/
structure PartSorted (s s' : Arrays (-1) n size) (l r : ℤ) : Prop where
  off : ∀ i, 0 ≤ i → i < l ∨ r < i → s'.numbers i = s.numbers i
  tempOff : ∀ i, i < l ∨ r < i → s'.temp i = s.temp i
  values : values s'.numbers l (r + 1) = values s.numbers l (r + 1)
  sorted : MonotoneOn s'.numbers (Set.Ico l (r + 1))
  inTemp : l < r → ∀ i, l ≤ i → i ≤ r → s'.temp i = s'.numbers i

theorem partSorted_of_le (s : Arrays (-1) n size) (h : r ≤ l) : PartSorted s s l r :=
  ⟨fun _ _ _ => rfl, fun _ _ => rfl, rfl, monotoneOn_of_le _ (by omega), fun hlt => by omega⟩

/-- Two parts that `mSort` merges. -/
structure Mergeable (s : Arrays (-1) n size) (l m r : ℤ) : Prop extends Parts s l m r where
  nonneg : 0 ≤ l
  ready : Ready s l r

theorem Mergeable.merge {m : ℤ} (h : Mergeable s l m r) :
    ∃ s', merge s l m r = .ok s' ∧ PartSorted s s' l r := by
  obtain ⟨-, hlm, hmr, hr, hr'⟩ := h.range
  have hl := h.nonneg
  obtain ⟨temp, htemp, hvalues, hsorted, hoff⟩ := h.mergeSides
  obtain ⟨b, hb, hcells⟩ := copyBack_ok ⟨s.numbers, temp⟩ (by omega : -1 < l) (by omega : l ≤ r) hr hr'
  simp only at hcells
  have hpart : ∀ i, l ≤ i → i < r + 1 → b i = temp i := fun i hi hi' => by
    rw [hcells i, if_pos (by omega)]
  refine ⟨⟨b, temp⟩, by rw [Sorting.merge, htemp, ok_bind, hb], ⟨fun i hi hout => ?_, hoff, ?_, ?_, ?_⟩⟩
  · simp only
    rw [hcells i]
    by_cases hbefore : i = l - 1
    · rw [if_pos (by omega), hbefore, hoff (l - 1) (by omega)]
      exact h.ready (by omega) (by omega)
    · exact if_neg (by omega)
  · exact (values_congr hpart).trans hvalues
  · exact hsorted.congr fun i hi => (hpart i hi.1 hi.2).symm
  · exact fun _ i hi hi' => (hpart i hi (by omega)).symm

theorem PartSorted.mergeable {s₁ s₂ : Arrays (-1) n size} {m : ℤ} (h₁ : PartSorted s s₁ l m)
    (h₂ : PartSorted s₁ s₂ (m + 1) r) (hl : 0 ≤ l) (hlm : l ≤ m) (hmr : m < r) (hr : r < n)
    (hr' : r < size) (hready : Ready s l r) : Mergeable s₂ l (m + 1) r := by
  refine ⟨⟨by omega, h₁.sorted.congr fun i hi => ?_, h₂.sorted⟩, hl, fun hlr hpos => ?_⟩
  · exact (h₂.off i (hl.trans hi.1) (.inl hi.2)).symm
  · rw [h₂.tempOff (l - 1) (by omega), h₁.tempOff (l - 1) (by omega), h₂.off (l - 1) (by omega) (by omega),
      h₁.off (l - 1) (by omega) (by omega)]
    exact hready hlr hpos

theorem PartSorted.join {s₁ s₂ s₃ : Arrays (-1) n size} {m : ℤ} (h₁ : PartSorted s s₁ l m)
    (h₂ : PartSorted s₁ s₂ (m + 1) r) (h₃ : PartSorted s₂ s₃ l r) (hl : 0 ≤ l) (hlm : l ≤ m) (hmr : m < r) :
    PartSorted s s₃ l r := by
  refine ⟨fun i hi hout => ?_, fun i hout => ?_, ?_, h₃.sorted, h₃.inTemp⟩
  · rw [h₃.off i hi hout, h₂.off i hi (by omega), h₁.off i hi (by omega)]
  · rw [h₃.tempOff i hout, h₂.tempOff i (by omega), h₁.tempOff i (by omega)]
  · have hfirst : Lib.values s₂.numbers l (m + 1) = Lib.values s₁.numbers l (m + 1) :=
      values_congr fun i hi hi' => h₂.off i (by omega) (.inl hi')
    have hsecond : Lib.values s₁.numbers (m + 1) (r + 1) = Lib.values s.numbers (m + 1) (r + 1) :=
      values_congr fun i hi hi' => h₁.off i (by omega) (by omega)
    rw [h₃.values, ← values_add s₂.numbers (by omega : l ≤ m + 1) (by omega), hfirst, h₁.values, h₂.values,
      hsecond, values_add s.numbers (by omega) (by omega)]

/-- The first half is at least as long as the second one, so the second one finds its last cell in `temp`. -/
theorem PartSorted.ready {s₁ : Arrays (-1) n size} {m : ℤ} (h : PartSorted s s₁ l m) (hm : m = (r + l) / 2) :
    Ready s₁ (m + 1) r := by
  intro hlt _
  rw [add_sub_cancel_right]
  exact h.inTemp (by omega) m (by omega) le_rfl

theorem mSort_ok (s : Arrays (-1) n size) (l r : ℤ) (hl : 0 ≤ l) (hr : r < n) (hr' : r < size)
    (hready : Ready s l r) : ∃ s', mSort s l r = .ok s' ∧ PartSorted s s' l r := by
  induction s, l, r using mSort.induct with
  | case1 s l r hlr mid ihLeft ihRight =>
    obtain ⟨s₁, hs₁, h₁⟩ := ihLeft hl (by omega) (by omega) fun hlt => hready (by omega)
    obtain ⟨s₂, hs₂, h₂⟩ := ihRight s₁ (by omega) hr hr' (h₁.ready rfl)
    obtain ⟨s₃, hs₃, h₃⟩ := (h₁.mergeable h₂ hl (by omega) (by omega) hr hr' hready).merge
    refine ⟨s₃, ?_, h₁.join h₂ h₃ hl (by omega) (by omega)⟩
    rw [mSort, dif_pos hlr]
    simp only
    rw [hs₁, ok_bind, hs₂, ok_bind, hs₃]
  | case2 s l r hrl => exact ⟨s, mSort_of_le s (not_lt.mp hrl), partSorted_of_le s (not_lt.mp hrl)⟩

/-- A call of `merge`, with the arrays at its start. -/
structure Call (n size : ℤ) where
  arrays : Arrays (-1) n size
  left : ℤ
  mid : ℤ
  right : ℤ

/-- The calls of `merge` that `mSort s left right` makes. -/
inductive MergeCall : Arrays (-1) n size → ℤ → ℤ → Call n size → Prop
  | left {s left right c} (h : right > left) (call : MergeCall s left ((right + left) / 2) c) :
    MergeCall s left right c
  | right {s s₁ left right c} (h : right > left) (first : mSort s left ((right + left) / 2) = .ok s₁)
    (call : MergeCall s₁ ((right + left) / 2 + 1) right c) : MergeCall s left right c
  | own {s s₁ s₂ left right} (h : right > left) (first : mSort s left ((right + left) / 2) = .ok s₁)
    (second : mSort s₁ ((right + left) / 2 + 1) right = .ok s₂) :
    MergeCall s left right ⟨s₂, left, (right + left) / 2 + 1, right⟩

theorem MergeCall.mergeable {c : Call n size} (hcall : MergeCall s l r c) (hl : 0 ≤ l) (hr : r < n)
    (hr' : r < size) (hready : Ready s l r) : Mergeable c.arrays c.left c.mid c.right := by
  induction hcall with
  | left h _ ih => exact ih hl (by omega) (by omega) fun _ => hready h
  | @right s s₁ l r c h first _ ih =>
    obtain ⟨s₁', hs₁, h₁⟩ := mSort_ok s l ((r + l) / 2) hl (by omega) (by omega) fun _ => hready h
    obtain rfl : s₁ = s₁' := Except.ok.inj (first.symm.trans hs₁)
    exact ih (by omega) hr hr' (h₁.ready rfl)
  | @own s s₁ s₂ l r h first second =>
    obtain ⟨s₁', hs₁, h₁⟩ := mSort_ok s l ((r + l) / 2) hl (by omega) (by omega) fun _ => hready h
    obtain rfl : s₁ = s₁' := Except.ok.inj (first.symm.trans hs₁)
    obtain ⟨s₂', hs₂, h₂⟩ := mSort_ok s₁ ((r + l) / 2 + 1) r (by omega) hr hr' (h₁.ready rfl)
    obtain rfl : s₂ = s₂' := Except.ok.inj (second.symm.trans hs₂)
    have hmid : (r + l) / 2 < r := by omega
    exact h₁.mergeable h₂ hl (by omega) hmid hr hr' hready

end recursion

/-- Whatever is in `temp`, the array is sorted, and the cell that a merge copies without having merged it
keeps its value, where it is one of the array. -/
theorem mSort_sorts {n : ℕ} {size : ℤ} (h : n ≤ size) (s : Arrays (-1) n size) :
    (∃ s', mSort s 0 (n - 1) = .ok s' ∧ values s'.numbers 0 n = values s.numbers 0 n ∧
      MonotoneOn s'.numbers (Set.Ico 0 n)) ∧
    ∀ c, MergeCall s 0 (n - 1) c → 0 < c.left →
      ∃ t, merge c.arrays c.left c.mid c.right = .ok t ∧
        t.numbers (c.left - 1) = c.arrays.numbers (c.left - 1) := by
  have hready : Ready s 0 (n - 1) := fun _ hpos => by omega
  constructor
  · obtain ⟨s', hs', hpart⟩ := mSort_ok s 0 (n - 1) le_rfl (by omega) (by omega) hready
    have hvalues := hpart.values
    have hsorted := hpart.sorted
    rw [sub_add_cancel] at hvalues hsorted
    exact ⟨s', hs', hvalues, hsorted⟩
  · intro c hc hpos
    obtain ⟨t, ht, hpart⟩ := (hc.mergeable le_rfl (by omega) (by omega) hready).merge
    exact ⟨t, ht, hpart.off (c.left - 1) (by omega) (.inl (by omega))⟩

theorem mSort_sorts_four :
    (∃ s', mSort (⟨.ofList [3, 1, 2, 0], fun _ => 7⟩ : Arrays (-1) (4 : ℕ) 5) 0 ((4 : ℕ) - 1) = .ok s' ∧
      values s'.numbers 0 (4 : ℕ) = values (Window.ofList [3, 1, 2, 0]) 0 (4 : ℕ) ∧
      MonotoneOn s'.numbers (Set.Ico 0 (4 : ℕ))) ∧
    ∀ c, MergeCall (⟨.ofList [3, 1, 2, 0], fun _ => 7⟩ : Arrays (-1) (4 : ℕ) 5) 0 ((4 : ℕ) - 1) c →
      0 < c.left → ∃ t, merge c.arrays c.left c.mid c.right = .ok t ∧
        t.numbers (c.left - 1) = c.arrays.numbers (c.left - 1) :=
  mSort_sorts (by decide) ⟨.ofList [3, 1, 2, 0], fun _ => 7⟩

/-! ### The bounds -/

section bounds

variable {n size : ℤ}

theorem merge_error (s : Arrays 0 n size) (hn : 1 < n) (hsize : 1 < size) :
    merge s 0 1 1 = .error .outOfBounds := by
  have hparts : Parts s 0 1 1 := ⟨by omega, monotoneOn_of_le _ (by omega), monotoneOn_of_le _ (by omega)⟩
  obtain ⟨temp, htemp, -⟩ := hparts.mergeSides
  rw [merge, htemp, ok_bind]
  exact copyBack_error ⟨s.numbers, temp⟩ Int.zero_lt_one.le hn hsize

theorem mSort_error (s : Arrays 0 n size) (r : ℕ) (hpos : 0 < r) (hr : r < n) (hr' : r < size) :
    mSort s 0 r = .error .outOfBounds := by
  induction r using Nat.strong_induction_on with
  | _ r ih =>
    obtain ⟨mid, hmid⟩ : ∃ mid : ℕ, ((r : ℤ) + 0) / 2 = mid := ⟨r / 2, by omega⟩
    rw [mSort, dif_pos (Int.natCast_pos.mpr hpos)]
    simp only
    rw [hmid]
    rcases mid.eq_zero_or_pos with rfl | hmidpos
    · obtain rfl : r = 1 := by omega
      rw [mSort_of_le s (by omega), ok_bind, mSort_of_le s (by omega), ok_bind]
      exact merge_error s (by omega) (by omega)
    · rw [ih mid (by omega) hmidpos (by omega) (by omega)]
      rfl

end bounds

/-- Only an array of at most one value is sorted without an access out of bounds, whatever the size of `temp`. -/
theorem mergesort_inBounds_iff {n : ℕ} {size : ℤ} (h : n ≤ size) (temp : Window 0 size ℤ) (numbers : Window 0 n ℤ) :
    (∃ b, mergesort temp numbers n = .ok b) ↔ n ≤ 1 := by
  constructor
  · rintro ⟨b, hb⟩
    by_contra hn
    obtain ⟨r, hr⟩ : ∃ r : ℕ, (n : ℤ) - 1 = r := ⟨n - 1, by omega⟩
    rw [mergesort, hr, mSort_error _ r (by omega) (by omega) (by omega)] at hb
    cases hb
  · intro hn
    exact ⟨numbers, by rw [mergesort, mSort_of_le _ (by omega)]; rfl⟩

theorem mergesort_inBounds_iff_one :
    (∃ b, @mergesort 0 (1 : ℕ) 1 (fun _ => 7) (.ofList [5]) (1 : ℕ) = .ok b) ↔ 1 ≤ 1 :=
  mergesort_inBounds_iff (by decide) (fun _ => 7) (.ofList [5])

theorem mergesort_two_outOfBounds :
    @mergesort 0 2 2 (fun _ => 7) (.ofList [1, 0]) 2 = .error .outOfBounds := by
  have herror := mSort_error (⟨.ofList [1, 0], fun _ => 7⟩ : Arrays 0 2 2) 1 (by decide) (by decide) (by decide)
  rw [mergesort]
  show (mSort _ 0 (1 : ℕ) >>= _) = _
  rw [herror]
  rfl

end CodingForFun.Sorting
