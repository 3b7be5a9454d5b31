import CodingForFun.Lib.MaxHeap
import CodingForFun.Sorting.Basic

/-!
# Heap sort

The first loop of `heapsort` turns the array into a heap, from the last places to the first, and the second
one takes the root off again and again: the values from `i + 1` on are in place, and the ones up to `i` are
a heap (`Extracting`). `siftDown` is proved once for both, for a heap from any place on.

The places of the children of `root` are computed as `int`, which overflows from `root = 2 ^ 30` on. So arrays of
up to `2 ^ 30` values are sorted, and of any length above there are some that are not (`heapsort_iff`).
-/

namespace CodingForFun.Sorting

open Lib

variable {lo hi : ℤ}

/-- The biggest child, if there is a child. -/
def biggestChild (numbers : Window lo hi ℤ) (root bottom : ℤ) : Except Fault (Option ℤ) := do
  let maxChild ← checked (some (intMax : ℤ)) (root * 2 + 1)
  if maxChild < bottom then
    let otherChild := maxChild + 1
    -- reversed for stability
    pure (some (if (← numbers.read otherChild) > (← numbers.read maxChild) then otherChild else maxChild))
  else
    -- dont overflow
    if maxChild > bottom then pure none else pure (some maxChild)

/-- `siftDown`, cut off after some levels. -/
def siftDown : ℕ → Window lo hi ℤ → ℤ → ℤ → Except Fault (Window lo hi ℤ)
  | 0, _, _, _ => .error .unbounded
  | fuel + 1, numbers, root, bottom => do
    match ← biggestChild numbers root bottom with
    | none => pure numbers
    | some maxChild =>
      -- if we have the correct ordering, we are done
      if (← numbers.read root) ≥ (← numbers.read maxChild) then
        pure numbers
      else
        siftDown fuel (← swap numbers root maxChild) maxChild bottom

def heapsort (numbers : Window lo hi ℤ) (arraySize : ℤ) : Except Fault (Window lo hi ℤ) := do
  let numbers ← forDown (arraySize / 2) 0
    (fun i numbers => siftDown (arraySize.toNat + 1) numbers i (arraySize - 1)) numbers
  forDown (arraySize - 1) 1
    (fun i numbers => do siftDown (arraySize.toNat + 1) (← swap numbers 0 i) 0 (i - 1)) numbers

section heapsort

variable {n r root bottom : ℤ} {b : Window 0 n ℤ}

theorem checked_child (h : root < 1073741824) : checked (some (intMax : ℤ)) (root * 2 + 1) = .ok (root * 2 + 1) :=
  checked_ok (inRange_some.mpr (by unfold intMax; omega))

theorem siftDown_overflow (fuel : ℕ) (b : Window 0 n ℤ) (h : 1073741824 ≤ root) :
    siftDown (fuel + 1) b root bottom = .error .overflow := by
  have hrange : ¬InRange (some (intMax : ℤ)) (root * 2 + 1) := fun hle => by
    have := inRange_some.mp hle
    unfold intMax at this
    omega
  rw [siftDown, biggestChild, checked_overflow hrange]
  rfl

theorem biggestChild_ok (b : Window 0 n ℤ) (hroot : 0 ≤ root) (hsmall : root < 1073741824) (hbottom : bottom < n) :
    (bottom + 1 ≤ 2 * root + 1 ∧ biggestChild b root bottom = .ok none) ∨
      ∃ c, biggestChild b root bottom = .ok (some c) ∧ IsChild c root ∧ c < bottom + 1 ∧
        ∀ d, IsChild d root → d < bottom + 1 → b d ≤ b c := by
  rw [biggestChild, checked_child hsmall, ok_bind]
  rcases lt_trichotomy (root * 2 + 1) bottom with hlt | heq | hgt
  · refine .inr ?_
    have hread : b.read (root * 2 + 1) = .ok (b (root * 2 + 1)) := Window.read_ok (by omega) (by omega)
    have hread' : b.read (root * 2 + 1 + 1) = .ok (b (root * 2 + 1 + 1)) :=
      Window.read_ok (by omega) (by omega)
    rw [if_pos hlt]
    simp only [hread, hread', ok_bind]
    by_cases hother : b (root * 2 + 1 + 1) > b (root * 2 + 1)
    · rw [if_pos hother]
      refine ⟨root * 2 + 1 + 1, rfl, by omega, by omega, fun d hd hdn => ?_⟩
      rcases hd with rfl | rfl
      · rw [mul_comm]
        exact hother.le
      · exact le_of_eq (congrArg b (by omega))
    · rw [if_neg hother]
      refine ⟨root * 2 + 1, rfl, by omega, by omega, fun d hd hdn => ?_⟩
      rcases hd with rfl | rfl
      · exact le_of_eq (congrArg b (by omega))
      · rw [show 2 * root + 2 = root * 2 + 1 + 1 by omega]
        exact not_lt.mp hother
  · refine .inr ⟨root * 2 + 1, ?_, by omega, by omega, fun d hd hdn => ?_⟩
    · rw [if_neg heq.not_lt, if_neg heq.not_gt]
      rfl
    · exact le_of_eq (congrArg b (by omega))
  · refine .inl ⟨by omega, ?_⟩
    rw [if_neg hgt.asymm, if_pos hgt]
    rfl

theorem siftDown_ok (hr : 0 ≤ r) (hbottom : bottom < n) (hn : n ≤ 1073741824) :
    ∀ (fuel : ℕ) (b : Window 0 n ℤ) (root : ℤ), Sifting b r (bottom + 1) root → r ≤ root →
      root < 1073741824 → (bottom - root).toNat < fuel →
      ∃ b', siftDown fuel b root bottom = .ok b' ∧ Rearranged 0 (bottom + 1) b b' ∧
        HeapFrom b' r (bottom + 1) := by
  intro fuel
  induction fuel with
  | zero =>
    intro b root _ _ _ hfuel
    omega
  | succ fuel ih =>
    intro b root h hroot hsmall hfuel
    rw [siftDown]
    rcases biggestChild_ok b (hr.trans hroot) hsmall hbottom with ⟨hnone, hchild⟩ | ⟨c, hchild, hc, hcn, hmax⟩
    · rw [hchild]
      exact ⟨b, rfl, .refl _ _ b, h.finish fun c hc hcn => by omega⟩
    · rw [hchild]
      simp only [ok_bind]
      rw [Window.read_ok (by omega) (by omega), Window.read_ok (by omega) (by omega)]
      simp only [ok_bind]
      by_cases hge : b root ≥ b c
      · rw [if_pos hge]
        exact ⟨b, rfl, .refl _ _ b, h.finish fun d hd hdn => (hmax d hd hdn).trans hge⟩
      · rw [if_neg hge, swap_ok b (by omega) (by omega) (by omega) (by omega), ok_bind]
        have hnext := h.swap hr hroot hc hcn hmax (not_le.mp hge).le
        obtain ⟨b', hb', hrearr, hheap⟩ := ih _ c hnext (by omega) (by omega) (by omega)
        have hswap : Rearranged 0 (bottom + 1) b (b ∘ Equiv.swap root c) :=
          .swap b (by omega) (by omega) (by omega) hcn
        exact ⟨b', hb', hswap.trans hrearr, hheap⟩

/-- The values behind `i` are in place. -/
structure Extracting (n i : ℤ) (b : ℤ → ℤ) : Prop where
  heap : HeapFrom b 0 (i + 1)
  top : ∀ k j, 0 ≤ k → k ≤ j → i < j → j < n → b k ≤ b j

theorem Extracting.step {i : ℤ} (h : Extracting n i b) (hi : 1 ≤ i) (hin : i < n) (hn : n ≤ 1073741824) :
    ∃ b', (swap b 0 i >>= fun b => siftDown (n.toNat + 1) b 0 (i - 1)) = .ok b' ∧
      Rearranged 0 n b b' ∧ Extracting n (i - 1) b' := by
  have hsift : Sifting (b ∘ Equiv.swap 0 i) 0 (i - 1 + 1) 0 := by
    rw [sub_add_cancel]
    exact h.heap.extract
  obtain ⟨b', hb', hrearr, hheap⟩ := siftDown_ok le_rfl (by omega : i - 1 < n) hn (n.toNat + 1) _ 0
    hsift le_rfl (by omega) (by omega)
  rw [sub_add_cancel] at hrearr
  refine ⟨b', ?_, ?_, hheap, ?_⟩
  · rw [swap_ok b le_rfl (by omega) (by omega) hin, ok_bind, hb']
  · exact (Rearranged.swap b le_rfl (by omega) (by omega) hin).trans (hrearr.mono le_rfl hin.le)
  · intro k j hk hkj hij hj
    have hlast : ∀ k, 0 ≤ k → k < i → (b ∘ Equiv.swap 0 i) k ≤ b 0 := by
      intro k hk hki
      rw [Function.comp_apply, Equiv.swap_apply_def]
      split_ifs
      · exact h.heap.le_root (by omega) (by omega)
      · exact le_rfl
      · exact h.heap.le_root hk (by omega)
    have hi' : b' i = b 0 := by
      rw [hrearr.off i (.inr le_rfl), Function.comp_apply, Equiv.swap_apply_right]
    have hbehind : ∀ j, i < j → b' j = b j := by
      intro j hij
      rw [hrearr.off j (.inr hij.le), Function.comp_apply,
        Equiv.swap_apply_of_ne_of_ne (by omega) (by omega)]
    have hfront : ∀ k, 0 ≤ k → k ≤ i → b' k ≤ b' i := by
      intro k hk hki
      rcases hki.eq_or_lt with rfl | hlt
      · exact le_rfl
      · rw [hi']
        exact hrearr.forall_values (· ≤ b 0) hlast k hk hlt
    rcases (show i ≤ j by omega).eq_or_lt with rfl | hij
    · exact hfront k hk hkj
    · rcases le_or_gt k i with hki | hki
      · rw [hbehind j hij]
        refine (hfront k hk hki).trans ?_
        rw [hi']
        exact h.top 0 j le_rfl (by omega) hij hj
      · rw [hbehind j hij, hbehind k hki]
        exact h.top k j hk hkj hij hj

end heapsort

theorem heapsort_ok (n : ℕ) (hn : n ≤ 1073741824) (a : Window 0 n ℤ) : ∃ b, heapsort a n = .ok b ∧ Sorts 0 n a b := by
  obtain ⟨b, hb, hrearr, hheap⟩ := forDown_ok
    (fun i numbers => siftDown ((n : ℤ).toNat + 1) numbers i ((n : ℤ) - 1))
    (fun i (b : Window 0 n ℤ) => Rearranged 0 n a b ∧ HeapFrom b (i + 1) n)
    (by omega : 0 ≤ (n : ℤ) / 2 + 1) ⟨.refl 0 n a, heapFrom_of_le a (by omega)⟩
    fun i b hi hin ⟨hrearr, hheap⟩ => by
      have hsift : Sifting b i ((n : ℤ) - 1 + 1) i := by
        rw [sub_add_cancel]
        exact hheap.sifting hi
      obtain ⟨b', hb', hrearr', hheap'⟩ := siftDown_ok hi (by omega) (by omega) ((n : ℤ).toNat + 1) b i
        hsift le_rfl (by omega) (by omega)
      rw [sub_add_cancel] at hrearr' hheap'
      refine ⟨b', hb', hrearr.trans hrearr', ?_⟩
      rwa [sub_add_cancel]
  rw [heapsort, hb, ok_bind]
  rcases Nat.eq_zero_or_pos n with rfl | hpos
  · refine ⟨b, forDown_of_lt _ (by decide), hrearr, monotoneOn_of_le b (by decide)⟩
  · have hstart : Extracting n (n - 1) b := by
      refine ⟨?_, fun k j _ _ _ _ => by omega⟩
      rwa [sub_add_cancel]
    obtain ⟨c, hc, hrearr', hextr⟩ := forDown_ok
      (fun i numbers => (swap numbers 0 i >>= fun numbers => siftDown ((n : ℤ).toNat + 1) numbers 0 (i - 1)))
      (fun i (b : Window 0 n ℤ) => Rearranged 0 n a b ∧ Extracting n i b)
      (by omega : 1 ≤ (n : ℤ) - 1 + 1) ⟨hrearr, hstart⟩ fun i b hi hin ⟨hrearr, h⟩ => by
        obtain ⟨b', hb', hrearr', h'⟩ := h.step hi (by omega) (by omega)
        exact ⟨b', hb', hrearr.trans hrearr', h'⟩
    refine ⟨c, hc, hrearr', monotoneOn_Ico_iff.mpr fun k j hk hkj hj => ?_⟩
    rcases hkj.eq_or_lt with rfl | hlt
    · exact le_rfl
    · exact hextr.top k j hk hkj (by omega) hj

/-- Zeros and a last 1. -/
def lastOne (n : ℕ) : Window 0 n ℤ := fun i => if i = n - 1 then 1 else 0

theorem heapsort_lastOne (n : ℕ) (hn : 1073741824 < n) : heapsort (lastOne n) n = .error .overflow := by
  have hfuel : (n : ℤ).toNat + 1 = n - 1 + 1 + 1 := by omega
  rw [heapsort, forDown_of_le _ (by omega), hfuel]
  rcases le_or_gt 1073741824 ((n : ℤ) / 2) with hlarge | hsmall
  · rw [siftDown_overflow _ _ hlarge]
    rfl
  have hleaf : biggestChild (lastOne n) ((n : ℤ) / 2) (n - 1) = .ok none := by
    rw [biggestChild, checked_child hsmall, ok_bind, if_neg (by omega), if_pos (by omega)]
    rfl
  have hlast : biggestChild (lastOne n) ((n : ℤ) / 2 - 1) (n - 1) = .ok (some (n - 1)) := by
    rw [biggestChild, checked_child (by omega), ok_bind]
    have hread : (lastOne n).read (n - 1) = .ok 1 := by
      rw [Window.read_ok (by omega) (by omega), lastOne, if_pos rfl]
    rcases Int.emod_two_eq_zero_or_one (n : ℤ) with heven | hodd
    · rw [if_neg (by omega), if_neg (by omega), show ((n : ℤ) / 2 - 1) * 2 + 1 = n - 1 by omega]
      rfl
    · have hother : (lastOne n).read (n - 2) = .ok 0 := by
        rw [Window.read_ok (by omega) (by omega), lastOne, if_neg (by omega)]
      rw [if_pos (by omega), show ((n : ℤ) / 2 - 1) * 2 + 1 = n - 2 by omega,
        show (n : ℤ) - 2 + 1 = n - 1 by omega]
      simp only [hread, hother, ok_bind]
      rfl
  have hread : (lastOne n).read ((n : ℤ) / 2 - 1) = .ok 0 := by
    rw [Window.read_ok (by omega) (by omega), lastOne, if_neg (by omega)]
  have hread' : (lastOne n).read (n - 1) = .ok 1 := by
    rw [Window.read_ok (by omega) (by omega), lastOne, if_pos rfl]
  have hfirst : siftDown (n - 1 + 1 + 1) (lastOne n) ((n : ℤ) / 2) (n - 1) = .ok (lastOne n) := by
    rw [siftDown, hleaf]
    rfl
  have hsecond : siftDown (n - 1 + 1 + 1) (lastOne n) ((n : ℤ) / 2 - 1) (n - 1) = .error .overflow := by
    rw [siftDown, hlast]
    simp only [ok_bind, hread, hread']
    rw [if_neg (by decide), swap_ok _ (by omega) (by omega) (by omega) (by omega), ok_bind,
      siftDown_overflow _ _ (by omega)]
  rw [hfirst, ok_bind, forDown_of_le _ (by omega), hsecond]
  rfl

/-- **Heap sort sorts all arrays of a length exactly if it is at most `2 ^ 30`.** -/
theorem heapsort_iff (n : ℕ) :
    (∀ a : Window 0 n ℤ, ∃ b, heapsort a n = .ok b ∧ Sorts 0 n a b) ↔ n ≤ 1073741824 := by
  refine ⟨fun hall => ?_, heapsort_ok n⟩
  by_contra hlong
  obtain ⟨b, hb, -⟩ := hall (lastOne n)
  rw [heapsort_lastOne n (not_le.mp hlong)] at hb
  cases hb

/-- The shortest of them. -/
theorem not_sorts_lastOne :
    ¬ ∃ b, heapsort (lastOne 1073741825) 1073741825 = .ok b ∧ Sorts 0 1073741825 (lastOne 1073741825) b := by
  rintro ⟨b, hb, -⟩
  have hover : heapsort (lastOne 1073741825) 1073741825 = .error .overflow :=
    heapsort_lastOne 1073741825 (by decide)
  rw [hover] at hb
  cases hb

end CodingForFun.Sorting
