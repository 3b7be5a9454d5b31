import CodingForFun.Lib.BinaryProduct
import Mathlib.Algebra.QuadraticAlgebra.Basic
import Mathlib.Tactic.LinearCombination

/-!
# The arithmetic of the error correction in `mtd_pci_cafe_nand.c`

The controller corrects with a code over the field of 4096 elements. `gf64_mul` multiplies polynomials
modulo `X**6+X+1` bit by bit, `gf4096_mul` multiplies pairs modulo `X**2+X+A**-1`; both are field products
(`gf4096Mul_field`).
-/

namespace CodingForFun.CafeNand

open Lib

/-- The body of the loop in `gf64_mul`, on `a`, `b` and `c`. -/
def gf64Step : BitVec 8 × BitVec 8 × BitVec 8 → BitVec 8 × BitVec 8 × BitVec 8
  | (a, b, c) =>
    let c := if a &&& 1#8 ≠ 0 then c ^^^ b else c
    let a := a >>> 1
    let b := b <<< 1
    let b := if b &&& 0x40#8 ≠ 0 then b ^^^ 0x43#8 else b
    (a, b, c)

/-- `gf64_mul`. -/
def gf64Mul (a b : BitVec 8) : BitVec 8 := (gf64Step^[6] (a, b, 0)).2.2

/-- `gf4096_mul`. -/
def gf4096Mul (a b : BitVec 16) : BitVec 16 :=
  let ah := (a >>> 6).setWidth 8
  let al := (a &&& 0x3f#16).setWidth 8
  let bh := (b >>> 6).setWidth 8
  let bl := (b &&& 0x3f#16).setWidth 8
  let ch := gf64Mul (ah ^^^ al) (bh ^^^ bl) ^^^ gf64Mul al bl
  let cl := gf64Mul (gf64Mul ah bh) 0x21 ^^^ gf64Mul al bl
  ch.setWidth 16 <<< 6 ^^^ cl.setWidth 16

/-! ## The product of 64 elements -/

theorem and_bit_ne_zero {w i : ℕ} (hi : i < w) (a : BitVec w) :
    a &&& BitVec.twoPow w i ≠ 0 ↔ a.getLsbD i = true := by
  rw [BitVec.and_twoPow]
  cases a.getLsbD i with
  | true => simpa using fun h => absurd (congrArg (fun x => x.getLsbD i) h) (by simp [hi])
  | false => simp

/-- A word, if the bit is set. -/
def scale (p : Bool) (b : BitVec 8) : BitVec 8 := bif p then b else 0

theorem scale_xor (p q : Bool) (b : BitVec 8) : scale (p ^^ q) b = scale p b ^^^ scale q b := by
  cases p <;> cases q <;> simp [scale]

theorem scale_xor_right (p : Bool) (b b' : BitVec 8) : scale p (b ^^^ b') = scale p b ^^^ scale p b' := by
  cases p <;> simp [scale]

theorem gf64Step_eq (a b c : BitVec 8) :
    gf64Step (a, b, c) =
      (a >>> 1, b <<< 1 ^^^ scale (b.getLsbD 5) 0x43, c ^^^ scale (a.getLsbD 0) b) := by
  have ha := and_bit_ne_zero (show 0 < 8 by decide) a
  have hb := and_bit_ne_zero (show 6 < 8 by decide) (b <<< 1)
  have hshift : (b <<< 1).getLsbD 6 = b.getLsbD 5 := by
    rw [BitVec.getLsbD_shiftLeft]
    rfl
  have hone : BitVec.twoPow 8 0 = 1#8 := rfl
  have hsix : BitVec.twoPow 8 6 = 0x40#8 := rfl
  rw [hone] at ha
  rw [hsix, hshift] at hb
  unfold gf64Step scale
  simp only [ha, hb]
  cases a.getLsbD 0 <;> cases b.getLsbD 5 <;> simp

theorem iterate_gf64Step_left (n : ℕ) (a a' b c c' : BitVec 8) :
    (gf64Step^[n] (a ^^^ a', b, c ^^^ c')).2.2 =
      (gf64Step^[n] (a, b, c)).2.2 ^^^ (gf64Step^[n] (a', b, c')).2.2 := by
  induction n generalizing a a' b c c' with
  | zero => rfl
  | succ n ih =>
    simp only [Function.iterate_succ_apply, gf64Step_eq]
    rw [← ih, ← BitVec.ushiftRight_xor_distrib, BitVec.getLsbD_xor, scale_xor]
    congr 5
    ac_rfl

theorem iterate_gf64Step_right (n : ℕ) (a b b' c c' : BitVec 8) :
    (gf64Step^[n] (a, b ^^^ b', c ^^^ c')).2.2 =
      (gf64Step^[n] (a, b, c)).2.2 ^^^ (gf64Step^[n] (a, b', c')).2.2 := by
  induction n generalizing a b b' c c' with
  | zero => rfl
  | succ n ih =>
    simp only [Function.iterate_succ_apply, gf64Step_eq]
    rw [← ih, BitVec.shiftLeft_xor_distrib, BitVec.getLsbD_xor, scale_xor, scale_xor_right]
    congr 5
    · ac_rfl
    · ac_rfl

theorem gf64Mul_left (a a' b : BitVec 8) : gf64Mul (a ^^^ a') b = gf64Mul a b ^^^ gf64Mul a' b :=
  iterate_gf64Step_left 6 a a' b 0 0

theorem gf64Mul_right (a b b' : BitVec 8) : gf64Mul a (b ^^^ b') = gf64Mul a b ^^^ gf64Mul a b' :=
  iterate_gf64Step_right 6 a b b' 0 0

theorem iterate_gf64Step_lt (n : ℕ) (a : BitVec 8) {b c : BitVec 8} (hb : b.toNat < 64) (hc : c.toNat < 64) :
    (gf64Step^[n] (a, b, c)).2.2.toNat < 64 := by
  induction n generalizing a b c with
  | zero => exact hc
  | succ n ih =>
    rw [Function.iterate_succ_apply, gf64Step_eq]
    apply ih
    · revert b
      decide +kernel
    · rw [BitVec.toNat_xor]
      apply Nat.xor_lt_two_pow (n := 6) hc
      cases a.getLsbD 0
      · exact Nat.two_pow_pos 6
      · exact hb

theorem gf64Mul_lt (a : BitVec 8) {b : BitVec 8} (hb : b.toNat < 64) : (gf64Mul a b).toNat < 64 :=
  iterate_gf64Step_lt 6 a hb (by decide)

/-- `gf64_mul` on elements of the field. -/
def gf64 : BinaryProduct 6 where
  mul a b := (gf64Mul (a.setWidth 8) (b.setWidth 8)).setWidth 6
  left b x y := by
    simp only [BitVec.setWidth_xor, gf64Mul_left]
  right a x y := by
    simp only [BitVec.setWidth_xor, gf64Mul_right]

theorem setWidth_gf64 (a b : BitVec 6) :
    (gf64.mul a b).setWidth 8 = gf64Mul (a.setWidth 8) (b.setWidth 8) := by
  have hlt := gf64Mul_lt (a.setWidth 8) (b := b.setWidth 8)
    (by rw [BitVec.toNat_setWidth_of_le (by decide)]; exact b.isLt)
  apply BitVec.eq_of_toNat_eq
  change (BitVec.setWidth 8 (BitVec.setWidth 6 _)).toNat = _
  rw [BitVec.toNat_setWidth_of_le (by decide), BitVec.toNat_setWidth, Nat.mod_eq_of_lt hlt]

theorem gf64_isField : gf64.IsField 1 where
  ne_zero := by decide
  comm := by decide +kernel
  assoc := by decide +kernel
  one_mul := by decide +kernel
  inv := by decide +kernel

noncomputable instance : Field gf64.Element := BinaryProduct.field gf64_isField

theorem gf64_generator :
    gf64.mul 2 0x21 = 1 ∧ ∀ a : BitVec 6, a ≠ 0 → ∃ n < 63, (gf64.mul 2)^[n] 1 = a := by
  decide +kernel

/-! ## The product of 4096 elements -/

theorem bits_add (a b : gf64.Element) : (a + b).bits = a.bits ^^^ b.bits := rfl

theorem bits_mul (a b : gf64.Element) : (a * b).bits = gf64.mul a.bits b.bits := rfl

/-- `A**-1`. -/
def invA : gf64.Element := ⟨0x21⟩

/-- `X**2+X+A**-1` has no root. -/
instance : Fact (∀ r : gf64.Element, r ^ 2 ≠ invA + 1 * r) := by
  constructor
  intro r h
  have hall : ∀ x : BitVec 6, gf64.mul x x ≠ 0x21 ^^^ x := by decide +kernel
  apply hall r.bits
  have hbits := congrArg BinaryProduct.Element.bits h
  rwa [pow_two, one_mul, bits_mul, bits_add] at hbits

/-- The field of 4096 elements. -/
abbrev Gf4096 := QuadraticAlgebra gf64.Element invA 1

/-- Twelve bits, from the coefficients of `X` and 1. -/
def pack (h l : BitVec 6) : BitVec 12 := h ++ l

theorem getLsbD_pack (h l : BitVec 6) (k : ℕ) :
    (pack h l).getLsbD k = if k < 6 then l.getLsbD k else h.getLsbD (k - 6) := by
  unfold pack
  exact BitVec.getLsbD_append

/-- The element that 12 bits stand for. -/
def value : BitVec 12 ≃ Gf4096 where
  toFun a := ⟨⟨a.setWidth 6⟩, ⟨(a >>> 6).setWidth 6⟩⟩
  invFun z := pack z.im.bits z.re.bits
  left_inv a := by
    apply BitVec.eq_of_getLsbD_eq
    intro k hk
    rw [getLsbD_pack, BitVec.getLsbD_setWidth, BitVec.getLsbD_setWidth, BitVec.getLsbD_ushiftRight]
    by_cases h6 : k < 6
    · simp [h6]
    · have hlt : k - 6 < 6 := by omega
      have hback : 6 + (k - 6) = k := by omega
      simp [h6, hlt, hback]
  right_inv z := by
    apply QuadraticAlgebra.ext
    · apply BinaryProduct.Element.ext
      apply BitVec.eq_of_getLsbD_eq
      intro k hk
      rw [BitVec.getLsbD_setWidth, getLsbD_pack, if_pos hk, decide_eq_true hk, Bool.true_and]
    · apply BinaryProduct.Element.ext
      apply BitVec.eq_of_getLsbD_eq
      intro k hk
      rw [BitVec.getLsbD_setWidth, BitVec.getLsbD_ushiftRight, getLsbD_pack, if_neg (by omega),
        decide_eq_true hk, Bool.true_and, Nat.add_sub_cancel_left]

theorem value_xor (a b : BitVec 12) : value (a ^^^ b) = value a + value b := by
  apply QuadraticAlgebra.ext
  · apply BinaryProduct.Element.ext
    change (a ^^^ b).setWidth 6 = a.setWidth 6 ^^^ b.setWidth 6
    exact BitVec.setWidth_xor
  · apply BinaryProduct.Element.ext
    change ((a ^^^ b) >>> 6).setWidth 6 = (a >>> 6).setWidth 6 ^^^ (b >>> 6).setWidth 6
    rw [BitVec.ushiftRight_xor_distrib, BitVec.setWidth_xor]

theorem setWidth_low (a : BitVec 12) :
    (a.setWidth 16 &&& 0x3f#16).setWidth 8 = (value a).re.bits.setWidth 8 := by
  have hlt := a.isLt
  apply BitVec.eq_of_toNat_eq
  change _ = (BitVec.setWidth 8 (a.setWidth 6)).toNat
  have hmask : a.toNat &&& 63 = a.toNat % 64 := Nat.and_two_pow_sub_one_eq_mod a.toNat 6
  have hsix : (0x3f#16).toNat = 63 := rfl
  have h16 : a.toNat % 2 ^ 16 = a.toNat := Nat.mod_eq_of_lt (Nat.lt_trans hlt (by decide))
  simp only [BitVec.toNat_setWidth, BitVec.toNat_and, hsix, h16, hmask]

theorem setWidth_high (a : BitVec 12) :
    (a.setWidth 16 >>> 6).setWidth 8 = (value a).im.bits.setWidth 8 := by
  have hlt := a.isLt
  apply BitVec.eq_of_toNat_eq
  change _ = (BitVec.setWidth 8 ((a >>> 6).setWidth 6)).toNat
  simp only [BitVec.toNat_setWidth, BitVec.toNat_ushiftRight, Nat.shiftRight_eq_div_pow]
  omega

theorem setWidth_pair (h l : BitVec 6) :
    (h.setWidth 8).setWidth 16 <<< 6 ^^^ (l.setWidth 8).setWidth 16 = (pack h l).setWidth 16 := by
  apply BitVec.eq_of_getLsbD_eq
  intro k hk
  simp only [BitVec.getLsbD_xor, BitVec.getLsbD_shiftLeft, BitVec.getLsbD_setWidth, getLsbD_pack]
  by_cases h6 : k < 6
  · have h8 : k < 8 := by omega
    simp [h6, hk, h8]
  · have hl : l.getLsbD k = false := BitVec.getLsbD_of_ge l k (by omega)
    have h16 : k - 6 < 16 := by omega
    by_cases h8 : k - 6 < 8
    · simp [h6, hk, hl, h16, h8]
    · have hh : h.getLsbD (k - 6) = false := BitVec.getLsbD_of_ge h (k - 6) (by omega)
      simp [h6, hl, h8, hh]

theorem add_self (x : gf64.Element) : x + x = 0 := BinaryProduct.Element.ext BitVec.xor_self

theorem re_mul_eq (z z' : Gf4096) : (z * z').re = z.im * z'.im * invA + z.re * z'.re := by
  rw [QuadraticAlgebra.re_mul]
  ring

theorem im_mul_eq (z z' : Gf4096) : (z * z').im = (z.im + z.re) * (z'.im + z'.re) + z.re * z'.re := by
  have htwice := add_self (z.re * z'.re)
  rw [QuadraticAlgebra.im_mul]
  linear_combination -htwice

/-- The 12-bit values with the exclusive or and `gf4096_mul` are a field. -/
theorem gf4096Mul_field : ∃ (F : Type) (_ : Field F) (value : BitVec 12 ≃ F),
    (∀ a b, value (a ^^^ b) = value a + value b) ∧
    ∀ a b, gf4096Mul (a.setWidth 16) (b.setWidth 16) = (value.symm (value a * value b)).setWidth 16 := by
  refine ⟨Gf4096, inferInstance, value, value_xor, fun a b => ?_⟩
  change _ = (pack (value a * value b).im.bits (value a * value b).re.bits).setWidth 16
  rw [re_mul_eq, im_mul_eq, ← setWidth_pair]
  unfold gf4096Mul
  simp only [setWidth_low, setWidth_high, bits_add, bits_mul, BitVec.setWidth_xor, setWidth_gf64]
  rfl

end CodingForFun.CafeNand
