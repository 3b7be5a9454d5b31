import Mathlib.Data.List.Basic
import Mathlib.Logic.Function.Basic

/-!
# Lists kept in pages

A list of entries is kept in slots, one behind the other up to the last slot of a page. That slot holds
the last entry of the list, or, if there are more, the address of the next page. Whoever reads the list
(`walk`) has to know how many entries there are; whoever writes it moves the entry in the last slot of a
page over to the next page when there turns out to be another one (`Filled.extend`).
-/

namespace CodingForFun.Lib

variable {A : Type} {isEnd : A → Prop} [DecidablePred isEnd] {next : A → A}

section read

variable (isEnd next)

/-- The next `n` entries from the slot `a` on. -/
def walk (mem : A → A) : ℕ → A → List A
  | 0, _ => []
  | n + 1, a =>
    let slot := if n ≠ 0 ∧ isEnd a then mem a else a
    mem slot :: walk mem n (next slot)

/-- The slot of an entry that is not the last one. -/
def slotOf (mem : A → A) (a : A) : A := if isEnd a then mem a else a

/-- The entries `es` are read from the slots `reads` (those in which a page goes on included), and the
next entry is expected in the slot `a`. -/
inductive Linked (mem : A → A) (first : A) : List A → List A → A → Prop
  | nil : Linked mem first [] [] first
  | snoc {reads es : List A} {a : A} (h : Linked mem first reads es a) :
      Linked mem first (a :: slotOf isEnd mem a :: reads) (es ++ [mem (slotOf isEnd mem a)])
        (next (slotOf isEnd mem a))

end read

variable {mem mem' : A → A} {first a p e : A} {reads es : List A}

theorem Linked.frame (h : Linked isEnd next mem first reads es a) (hsame : ∀ x ∈ reads, mem' x = mem x) :
    Linked isEnd next mem' first reads es a := by
  induction h with
  | nil => exact .nil
  | @snoc reads es b h ih =>
    have hslot : slotOf isEnd mem' b = slotOf isEnd mem b := by
      unfold slotOf
      rw [hsame b List.mem_cons_self]
    have hentry := hsame (slotOf isEnd mem b) (List.mem_cons_of_mem _ List.mem_cons_self)
    have hnext := (ih fun x hx =>
      hsame x (List.mem_cons_of_mem _ (List.mem_cons_of_mem _ hx))).snoc
    rwa [hslot, hentry] at hnext

theorem Linked.walk (h : Linked isEnd next mem first reads es a) (k : ℕ) :
    walk isEnd next mem (es.length + (k + 1)) first = es ++ Lib.walk isEnd next mem (k + 1) a := by
  induction h generalizing k with
  | nil => rw [List.length_nil, Nat.zero_add, List.nil_append]
  | @snoc reads es b h ih =>
    rw [List.length_append, List.length_singleton, Nat.add_assoc, Nat.add_comm 1, ih]
    rw [List.append_assoc, Lib.walk]
    simp only [ne_eq, Nat.succ_ne_zero, not_false_eq_true, true_and, List.singleton_append]
    rfl

/-- The list holds `es`, the last of them in the slot `a`; the others are read from `reads`. -/
structure Filled (isEnd : A → Prop) [DecidablePred isEnd] (next : A → A) (mem : A → A) (first : A)
    (reads es : List A) (a : A) : Prop where
  linked : Linked isEnd next mem first reads es.dropLast a
  last : es.getLast? = some (mem a)

theorem Filled.eq_append (h : Filled isEnd next mem first reads es a) : es = es.dropLast ++ [mem a] :=
  (List.dropLast_append_getLast? (mem a) h.last).symm

theorem Filled.walk (h : Filled isEnd next mem first reads es a) :
    walk isEnd next mem es.length first = es := by
  have hlen : es.length = es.dropLast.length + (0 + 1) := by
    conv_lhs => rw [h.eq_append]
    rw [List.length_append, List.length_singleton]
  rw [hlen, h.linked.walk 0]
  conv_rhs => rw [h.eq_append]
  rw [Lib.walk, if_neg (fun hne => hne.1 rfl)]
  rfl

variable [DecidableEq A]

theorem Filled.start (mem : A → A) (first e : A) :
    Filled isEnd next (Function.update mem first e) first [] [e] first := by
  refine ⟨.nil, ?_⟩
  rw [Function.update_self]
  rfl

theorem Filled.append (h : Filled isEnd next mem first reads es a) (hend : ¬ isEnd a)
    (hnext : ∀ x ∈ a :: reads, x ≠ next a) (e : A) :
    Filled isEnd next (Function.update mem (next a) e) first (a :: a :: reads) (es ++ [e]) (next a) := by
  have hslot : slotOf isEnd mem a = a := if_neg hend
  have hlinked := h.linked.snoc
  rw [hslot, ← h.eq_append] at hlinked
  refine ⟨?_, ?_⟩
  · rw [List.dropLast_concat]
    apply hlinked.frame
    intro x hx
    apply Function.update_of_ne
    rcases List.mem_cons.mp hx with rfl | hx
    · exact hnext x List.mem_cons_self
    · exact hnext x hx
  · rw [Function.update_self, List.getLast?_concat]

theorem Filled.extend (h : Filled isEnd next mem first reads es a) (hend : isEnd a) (ha : a ∉ reads)
    (hp : ∀ x ∈ a :: reads, x ≠ p ∧ x ≠ next p) (hpn : p ≠ next p) (e : A) :
    Filled isEnd next
      (Function.update (Function.update (Function.update mem p (mem a)) a p) (next p) e)
      first (a :: p :: reads) (es ++ [e]) (next p) := by
  have hmem : ∀ x ∈ reads, Function.update (Function.update (Function.update mem p (mem a)) a p)
      (next p) e x = mem x := by
    intro x hx
    have hxa : x ≠ a := fun hxa => ha (hxa ▸ hx)
    obtain ⟨hxp, hxn⟩ := hp x (List.mem_cons_of_mem _ hx)
    rw [Function.update_of_ne hxn, Function.update_of_ne hxa, Function.update_of_ne hxp]
  obtain ⟨hap, han⟩ := hp a List.mem_cons_self
  have hlinked := (h.linked.frame hmem).snoc
  have hslot : slotOf isEnd (Function.update (Function.update (Function.update mem p (mem a)) a p)
      (next p) e) a = p := by
    unfold slotOf
    rw [if_pos hend, Function.update_of_ne han, Function.update_self]
  rw [hslot, Function.update_of_ne hpn, Function.update_of_ne hap.symm, Function.update_self,
    ← h.eq_append] at hlinked
  refine ⟨?_, ?_⟩
  · rw [List.dropLast_concat]
    exact hlinked
  · rw [Function.update_self, List.getLast?_concat]

end CodingForFun.Lib
