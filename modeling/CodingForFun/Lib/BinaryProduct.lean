import Mathlib.Algebra.Field.MinimalAxioms
import Mathlib.Data.BitVec

/-!
# Products on words whose sum is the exclusive or

A function of words that goes through the exclusive or is known from what it does to the words with one
bit (`IsLinear.ext`). So a product that does in both arguments is commutative and associative if it is on
the single bits, and with inverses the words are then a field (`BinaryProduct.field`).
-/

namespace CodingForFun.Lib

variable {w v : ℕ}

/-- A function of words that goes through the exclusive or. -/
def IsLinear (f : BitVec w → BitVec v) : Prop := ∀ x y, f (x ^^^ y) = f x ^^^ f y

namespace IsLinear

variable {f g : BitVec w → BitVec v}

theorem map_zero (hf : IsLinear f) : f 0 = 0 := by
  have h := hf 0 0
  rwa [BitVec.xor_self, BitVec.xor_self] at h

theorem comp {u : ℕ} {h : BitVec v → BitVec u} (hh : IsLinear h) (hf : IsLinear f) :
    IsLinear fun x => h (f x) := by
  intro x y
  exact (congrArg h (hf x y)).trans (hh (f x) (f y))

theorem ext (hf : IsLinear f) (hg : IsLinear g)
    (h : ∀ i < w, f (BitVec.twoPow w i) = g (BitVec.twoPow w i)) : f = g := by
  have key : ∀ n ≤ w, ∀ x : BitVec w, (∀ k, n ≤ k → x.getLsbD k = false) → f x = g x := by
    intro n
    induction n with
    | zero =>
      intro _ x hx
      have hzero : x = 0 := by
        apply BitVec.eq_of_getLsbD_eq
        intro k _
        rw [hx k (Nat.zero_le k)]
        exact BitVec.getLsbD_zero.symm
      rw [hzero, hf.map_zero, hg.map_zero]
    | succ n ih =>
      intro hn x hx
      cases hbit : x.getLsbD n with
      | false =>
        apply ih (by omega) x
        intro k hk
        rcases Nat.eq_or_lt_of_le hk with rfl | hlt
        · exact hbit
        · exact hx k hlt
      | true =>
        -- without bit `n` the word is shorter
        have hsplit : x = (x ^^^ BitVec.twoPow w n) ^^^ BitVec.twoPow w n := by
          rw [BitVec.xor_assoc, BitVec.xor_self, BitVec.xor_zero]
        have hshort : ∀ k, n ≤ k → (x ^^^ BitVec.twoPow w n).getLsbD k = false := by
          intro k hk
          rw [BitVec.getLsbD_xor, BitVec.getLsbD_twoPow]
          rcases Nat.eq_or_lt_of_le hk with rfl | hlt
          · simp [hbit, Nat.lt_of_succ_le hn]
          · simp [hx k hlt, Nat.ne_of_lt hlt]
        rw [hsplit, hf, hg, ih (by omega) _ hshort, h n (Nat.lt_of_succ_le hn)]
  funext x
  apply key w (Nat.le_refl w) x
  intro k hk
  exact BitVec.getLsbD_of_ge x k hk

end IsLinear

/-- A product that goes through the exclusive or in both arguments. -/
structure BinaryProduct (w : ℕ) where
  mul : BitVec w → BitVec w → BitVec w
  left : ∀ b, IsLinear fun a => mul a b
  right : ∀ a, IsLinear (mul a)

namespace BinaryProduct

variable (P : BinaryProduct w)

/-- What makes the words a field: the laws on the single bits, and inverses. -/
structure IsField (one : BitVec w) : Prop where
  ne_zero : one ≠ 0
  comm : ∀ i < w, ∀ j < w,
    P.mul (BitVec.twoPow w i) (BitVec.twoPow w j) = P.mul (BitVec.twoPow w j) (BitVec.twoPow w i)
  assoc : ∀ i < w, ∀ j < w, ∀ k < w,
    P.mul (P.mul (BitVec.twoPow w i) (BitVec.twoPow w j)) (BitVec.twoPow w k) =
      P.mul (BitVec.twoPow w i) (P.mul (BitVec.twoPow w j) (BitVec.twoPow w k))
  one_mul : ∀ i < w, P.mul one (BitVec.twoPow w i) = BitVec.twoPow w i
  inv : ∀ a ≠ 0, ∃ b, P.mul a b = one

variable {P} {one : BitVec w}

theorem IsField.mul_comm (h : P.IsField one) (a b : BitVec w) : P.mul a b = P.mul b a := by
  have hbit : ∀ i < w, P.mul (BitVec.twoPow w i) = fun b => P.mul b (BitVec.twoPow w i) :=
    fun i hi => IsLinear.ext (P.right _) (P.left _) (h.comm i hi)
  have hall : (fun a => P.mul a b) = P.mul b :=
    IsLinear.ext (P.left b) (P.right b) fun i hi => congrFun (hbit i hi) b
  exact congrFun hall a

theorem IsField.mul_assoc (h : P.IsField one) (a b c : BitVec w) :
    P.mul (P.mul a b) c = P.mul a (P.mul b c) := by
  have hlast : ∀ i < w, ∀ j < w, P.mul (P.mul (BitVec.twoPow w i) (BitVec.twoPow w j)) =
      fun c => P.mul (BitVec.twoPow w i) (P.mul (BitVec.twoPow w j) c) :=
    fun i hi j hj => IsLinear.ext (P.right _) ((P.right _).comp (P.right _)) (h.assoc i hi j hj)
  have hmiddle : ∀ i < w, (fun b => P.mul (P.mul (BitVec.twoPow w i) b) c) =
      fun b => P.mul (BitVec.twoPow w i) (P.mul b c) :=
    fun i hi => IsLinear.ext ((P.left c).comp (P.right _)) ((P.right _).comp (P.left c))
      fun j hj => congrFun (hlast i hi j hj) c
  have hfirst : (fun a => P.mul (P.mul a b) c) = fun a => P.mul a (P.mul b c) :=
    IsLinear.ext ((P.left c).comp (P.left b)) (P.left _) fun i hi => congrFun (hmiddle i hi) b
  exact congrFun hfirst a

theorem IsField.one_mul' (h : P.IsField one) (a : BitVec w) : P.mul one a = a := by
  have hid : P.mul one = fun a => a := IsLinear.ext (P.right one) (fun _ _ => rfl) h.one_mul
  exact congrFun hid a

/-- A word, as an element of the field. -/
@[ext] structure Element (P : BinaryProduct w) where
  bits : BitVec w

section field

variable (h : P.IsField one)
include h

/-- The words as a field. -/
noncomputable abbrev field : Field P.Element :=
  letI : Add P.Element := ⟨fun a b => ⟨a.bits ^^^ b.bits⟩⟩
  letI : Mul P.Element := ⟨fun a b => ⟨P.mul a.bits b.bits⟩⟩
  letI : Neg P.Element := ⟨fun a => a⟩
  letI : Zero P.Element := ⟨⟨0⟩⟩
  letI : One P.Element := ⟨⟨one⟩⟩
  letI : Inv P.Element := ⟨fun a => if ha : a.bits = 0 then ⟨0⟩ else ⟨(h.inv a.bits ha).choose⟩⟩
  Field.ofMinimalAxioms P.Element
    (fun a b c => Element.ext (BitVec.xor_assoc a.bits b.bits c.bits))
    (fun _ => Element.ext BitVec.zero_xor)
    (fun _ => Element.ext BitVec.xor_self)
    (fun a b c => Element.ext (h.mul_assoc a.bits b.bits c.bits))
    (fun a b => Element.ext (h.mul_comm a.bits b.bits))
    (fun a => Element.ext (h.one_mul' a.bits))
    (fun a ha => by
      have hbits : a.bits ≠ 0 := fun hzero => ha (Element.ext hzero)
      have hinv : a⁻¹ = ⟨(h.inv a.bits hbits).choose⟩ := dif_neg hbits
      rw [hinv]
      exact Element.ext (h.inv a.bits hbits).choose_spec)
    (dif_pos rfl)
    (fun a b c => Element.ext (P.right a.bits b.bits c.bits))
    ⟨⟨0⟩, ⟨one⟩, fun heq => h.ne_zero (congrArg Element.bits heq).symm⟩

end field

end BinaryProduct

end CodingForFun.Lib
