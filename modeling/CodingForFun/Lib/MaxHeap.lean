import CodingForFun.Lib.Rearrangement

/-!
# Max-heaps in an array

In an array on the integers the children of the place `p` are `2 * p + 1` and `2 * p + 2`. `HeapFrom a r n`
says that of the first `n` values none is below a child of its, for the places from `r` on; so a heap is
built from the last places to the first. While a value sifts down, the order may be broken below its place
only (`Sifting`), and exchanging it with its biggest child breaks it one level further down
(`Sifting.swap`).
-/

namespace CodingForFun.Lib

variable {α : Type} [LinearOrder α] {a : ℤ → α} {r n p c : ℤ}

abbrev IsChild (c p : ℤ) : Prop := c = 2 * p + 1 ∨ c = 2 * p + 2

/-- Of the first `n` values none, from the place `r` on, is below a child of its. -/
def HeapFrom (a : ℤ → α) (r n : ℤ) : Prop := ∀ p c, r ≤ p → IsChild c p → c < n → a c ≤ a p

/-- None but the one at `p` is, and the children of `p` are not above the parent of `p`. -/
structure Sifting (a : ℤ → α) (r n p : ℤ) : Prop where
  off : ∀ q c, r ≤ q → IsChild c q → c < n → q ≠ p → a c ≤ a q
  grand : ∀ q c, r ≤ q → IsChild p q → IsChild c p → c < n → a c ≤ a q

theorem heapFrom_of_le (a : ℤ → α) (h : n ≤ 2 * r + 1) : HeapFrom a r n := by
  intro p c hp hc hcn
  omega

theorem HeapFrom.le_root (h : HeapFrom a 0 n) {i : ℤ} (hi : 0 ≤ i) (hin : i < n) : a i ≤ a 0 := by
  induction i using Int.strongRec (m := 1) with
  | lt i hlt => rw [show i = 0 by omega]
  | ge i hge ih =>
    have hparent := ih ((i - 1) / 2) (by omega) (by omega) (by omega)
    exact (h ((i - 1) / 2) i (by omega) (by omega) hin).trans hparent

theorem HeapFrom.sifting (h : HeapFrom a (r + 1) n) (hr : 0 ≤ r) : Sifting a r n r := by
  constructor
  · intro q c hq hc hcn hne
    exact h q c (by omega) hc hcn
  · intro q c hq hrq _ _
    omega

theorem Sifting.swap (h : Sifting a r n p) (hr : 0 ≤ r) (hp : r ≤ p) (hc : IsChild c p) (hcn : c < n)
    (hmax : ∀ d, IsChild d p → d < n → a d ≤ a c) (hle : a p ≤ a c) :
    Sifting (a ∘ Equiv.swap p c) r n c := by
  constructor
  · intro q d hq hd hdn hne
    simp only [Function.comp_apply, Equiv.swap_apply_def]
    by_cases hqp : q = p
    · subst hqp
      rw [if_pos rfl, if_neg (by omega : d ≠ q)]
      split_ifs
      · exact hle
      · exact hmax d hd hdn
    · rw [if_neg hqp, if_neg hne, if_neg (by omega : d ≠ c)]
      split_ifs with hdp
      · subst hdp
        exact h.grand q c hq hd hc hcn
      · exact h.off q d hq hd hdn hqp
  · intro q d hq hcq hd hdn
    obtain rfl : q = p := by omega
    rw [Function.comp_apply, Function.comp_apply, Equiv.swap_apply_left,
      Equiv.swap_apply_of_ne_of_ne (by omega) (by omega)]
    exact h.off c d (by omega) hd hdn (by omega)

theorem Sifting.finish (h : Sifting a r n p) (hstop : ∀ c, IsChild c p → c < n → a c ≤ a p) :
    HeapFrom a r n := by
  intro q c hq hc hcn
  by_cases hqp : q = p
  · subst hqp
    exact hstop c hc hcn
  · exact h.off q c hq hc hcn hqp

theorem HeapFrom.extract (h : HeapFrom a 0 (n + 1)) : Sifting (a ∘ Equiv.swap 0 n) 0 n 0 := by
  constructor
  · intro q c hq hc hcn hne
    rw [Function.comp_apply, Function.comp_apply, Equiv.swap_apply_of_ne_of_ne (by omega) (by omega),
      Equiv.swap_apply_of_ne_of_ne (by omega) (by omega)]
    exact h q c hq hc (by omega)
  · intro q c hq hzero _ _
    omega

end CodingForFun.Lib
