import Mathlib.Data.List.Basic
import Mathlib.Order.Bounds.Basic
import Mathlib.Order.MinMax

/-!
# Longest common subsequences

The lengths of the common subsequences of two lists, and how the greatest one of them is found from those for
shorter lists. When both lists end with the same element, a common subsequence is made longer by it, and
none gets longer than that: without its last element it is one of the lists without theirs.
-/

namespace CodingForFun.Lib

variable {α : Type} {a b s : List α} {x y : α} {k m : ℕ}

def commonLengths (a b : List α) : Set ℕ :=
  {k | ∃ s : List α, s.Sublist a ∧ s.Sublist b ∧ s.length = k}

theorem sublist_concat_iff : s.Sublist (a ++ [x]) ↔ s.Sublist a ∨ ∃ t, s = t ++ [x] ∧ t.Sublist a := by
  rw [List.sublist_append_iff]
  constructor
  · intro h
    obtain ⟨t, u, rfl, ht, hu⟩ := h
    cases hu with
    | cons _ hu =>
      rw [List.sublist_nil.mp hu, List.append_nil]
      exact .inl ht
    | cons_cons _ hu =>
      rw [List.sublist_nil.mp hu]
      exact .inr ⟨t, rfl, ht⟩
  · rintro (hs | ⟨t, rfl, ht⟩)
    · exact ⟨s, [], (List.append_nil s).symm, hs, List.nil_sublist _⟩
    · exact ⟨t, [x], rfl, ht, List.Sublist.refl _⟩

theorem sublist_of_concat (h : (s ++ [y]).Sublist (a ++ [x])) : s.Sublist a := by
  rcases sublist_concat_iff.mp h with h | ⟨t, heq, h⟩
  · exact (List.sublist_append_left s [y]).trans h
  · rwa [(List.append_inj' heq rfl).1]

theorem isGreatest_nil_left (b : List α) : IsGreatest (commonLengths [] b) 0 := by
  refine ⟨⟨[], List.Sublist.refl _, List.nil_sublist _, rfl⟩, ?_⟩
  rintro k ⟨s, hs, -, rfl⟩
  rw [List.sublist_nil.mp hs, List.length_nil]

theorem isGreatest_nil_right (a : List α) : IsGreatest (commonLengths a []) 0 := by
  refine ⟨⟨[], List.nil_sublist _, List.Sublist.refl _, rfl⟩, ?_⟩
  rintro k ⟨s, -, hs, rfl⟩
  rw [List.sublist_nil.mp hs, List.length_nil]

theorem isGreatest_concat_same (h : IsGreatest (commonLengths a b) k) :
    IsGreatest (commonLengths (a ++ [x]) (b ++ [x])) (k + 1) := by
  obtain ⟨⟨s, hsa, hsb, hlen⟩, hmax⟩ := h
  refine ⟨⟨s ++ [x], hsa.append_right _, hsb.append_right _, by rw [List.length_append, hlen]; rfl⟩, ?_⟩
  rintro m ⟨u, hua, hub, rfl⟩
  rcases List.eq_nil_or_concat u with rfl | ⟨t, z, rfl⟩
  · exact Nat.zero_le _
  · rw [List.concat_eq_append] at hua hub ⊢
    rw [List.length_append, List.length_singleton]
    exact Nat.succ_le_succ (hmax ⟨t, sublist_of_concat hua, sublist_of_concat hub, rfl⟩)

theorem isGreatest_concat_ne (hxy : x ≠ y) (ha : IsGreatest (commonLengths a (b ++ [y])) k)
    (hb : IsGreatest (commonLengths (a ++ [x]) b) m) :
    IsGreatest (commonLengths (a ++ [x]) (b ++ [y])) (max k m) := by
  constructor
  · rcases max_choice k m with heq | heq
    · obtain ⟨s, hsa, hsb, hlen⟩ := ha.1
      exact ⟨s, hsa.trans (List.sublist_append_left a [x]), hsb, hlen.trans heq.symm⟩
    · obtain ⟨s, hsa, hsb, hlen⟩ := hb.1
      exact ⟨s, hsa, hsb.trans (List.sublist_append_left b [y]), hlen.trans heq.symm⟩
  · rintro l ⟨u, hua, hub, rfl⟩
    rcases sublist_concat_iff.mp hua with h | ⟨t, rfl, -⟩
    · exact (ha.2 ⟨u, h, hub, rfl⟩).trans (le_max_left k m)
    · rcases sublist_concat_iff.mp hub with h | ⟨t', heq, -⟩
      · exact (hb.2 ⟨_, hua, h, rfl⟩).trans (le_max_right k m)
      · exact absurd (List.cons.inj (List.append_inj' heq rfl).2).1 hxy

end CodingForFun.Lib
