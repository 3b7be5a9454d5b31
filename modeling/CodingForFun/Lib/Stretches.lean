import Mathlib.Data.List.SplitBy

/-!
# Maximal stretches of a list

`stretches p l` splits a list into the longest parts on which `p` does not change. `turned p l` is the list
with each of these parts backwards, in place; backwards as a whole it is the list of the parts in the
opposite order (`reverse_turned`).
-/

namespace CodingForFun.Lib

variable {α : Type} {p : α → Bool} {c : Bool} {l m : List α}

def stretches (p : α → Bool) (l : List α) : List (List α) := l.splitBy fun a b => p a == p b

def turned (p : α → Bool) (l : List α) : List α := ((stretches p l).map List.reverse).flatten

theorem stretches_append (hl : l ≠ []) (hp : ∀ a ∈ l, p a = c) (hm : ∀ b, m.head? = some b → p b ≠ c) :
    stretches p (l ++ m) = l :: stretches p m := by
  have hchain : l.IsChain fun a b => (p a == p b) = true := by
    apply List.Pairwise.isChain
    refine List.pairwise_iff_forall_sublist.mpr fun {a b} hsub => ?_
    rw [hp a (hsub.subset (by simp)), hp b (hsub.subset (by simp)), beq_self_eq_true]
  have hbreak : ∀ a ∈ l.getLast?, ∀ b ∈ m.head?, (p a == p b) = false := by
    intro a ha b hb
    rw [hp a (List.mem_of_getLast? ha)]
    exact beq_false_of_ne (hm b hb).symm
  rw [stretches, List.splitBy_append hbreak, List.splitBy_of_isChain hl hchain]
  rfl

theorem turned_append (hp : ∀ a ∈ l, p a = c) (hm : ∀ b, m.head? = some b → p b ≠ c) :
    turned p (l ++ m) = l.reverse ++ turned p m := by
  by_cases hl : l = []
  · rw [hl]
    rfl
  · rw [turned, stretches_append hl hp hm, List.map_cons, List.flatten_cons]
    rfl

theorem reverse_turned (p : α → Bool) (l : List α) :
    (turned p l).reverse = (stretches p l).reverse.flatten := by
  rw [turned, List.reverse_flatten, List.map_map]
  congr 1
  simp

theorem mem_stretches_flatten (p : α → Bool) (l : List α) {a : α} :
    a ∈ (stretches p l).reverse.flatten ↔ a ∈ l := by
  have hflatten : (stretches p l).flatten = l := List.flatten_splitBy _ l
  conv_rhs => rw [← hflatten]
  simp only [List.mem_flatten, List.mem_reverse]

theorem mem_turned (p : α → Bool) {l : List α} {a : α} : a ∈ turned p l ↔ a ∈ l := by
  rw [← List.mem_reverse, reverse_turned]
  exact mem_stretches_flatten p l

end CodingForFun.Lib
