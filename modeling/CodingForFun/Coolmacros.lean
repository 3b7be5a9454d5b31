import CodingForFun.BitwiseMacros.Alignment

/-!
# Alignment in `coolmacros.c`

`align` is the one of `bitwise_macros.c` and rounds up as `roundup` does with a division. `isaligned` is a different
test. It clears the bits that it should keep, and so it accepts the addresses below `bytes`.
-/

namespace CodingForFun.Coolmacros

open Lib
open BitwiseMacros (PowerOfTwo)

def align (ptr bytes : BitVec 64) : BitVec 64 := (ptr + bytes - 1) &&& ~~~(bytes - 1)

def isaligned (ptr bytes : BitVec 64) : Bool := ptr &&& ~~~(bytes - 1) == 0

/-- `IS_ALIGNED` -/
def isAligned (x a : BitVec 64) : Bool := x &&& (a - 1) == 0

def roundup (x y : BitVec 64) : BitVec 64 := (x + (y - 1)) / y * y

variable {ptr bytes : BitVec 64}

theorem align_eq (ptr bytes : BitVec 64) : align ptr bytes = BitwiseMacros.align ptr bytes := rfl

/-! ### Rounding up -/

theorem toNat_roundup (h : PowerOfTwo bytes) (hptr : ptr.toNat + bytes.toNat - 1 < 2 ^ 64) :
    (roundup ptr bytes).toNat = (ptr.toNat + bytes.toNat - 1) / bytes.toNat * bytes.toNat := by
  have hsum : ptr + (bytes - 1) = ptr + bytes - 1 := by
    rw [BitVec.sub_eq_add_neg, BitVec.sub_eq_add_neg, BitVec.add_assoc]
  have hle : (ptr.toNat + bytes.toNat - 1) / bytes.toNat * bytes.toNat < 2 ^ 64 :=
    Nat.lt_of_le_of_lt (Nat.div_mul_le_self _ _) hptr
  rw [roundup, hsum, BitVec.toNat_mul, BitVec.toNat_udiv, BitwiseMacros.toNat_add_pred h hptr, Nat.mod_eq_of_lt hle]

/-- Where nothing wraps around, `align` gives the least multiple of `bytes` from `ptr` on. -/
theorem align_roundsUp (h : PowerOfTwo bytes) (hptr : ptr.toNat + bytes.toNat - 1 < 2 ^ 64) :
    IsLeast {m | bytes.toNat ∣ m ∧ ptr.toNat ≤ m} (align ptr bytes).toNat ∧
      align ptr bytes = roundup ptr bytes ∧ BitwiseMacros.isaligned (align ptr bytes) bytes = true := by
  have halign : (align ptr bytes).toNat = (ptr.toNat + bytes.toNat - 1) / bytes.toNat * bytes.toNat := by
    rw [align_eq, BitwiseMacros.toNat_align h, BitwiseMacros.toNat_add_pred h hptr]
  refine ⟨?_, ?_, ?_⟩
  · rw [halign]
    exact isLeast_roundUp _ h.pos
  · apply BitVec.eq_of_toNat_eq
    rw [halign, toNat_roundup h hptr]
  · exact BitwiseMacros.isaligned_align h ptr

theorem align_roundsUp_nine :
    IsLeast {m | (8 : BitVec 64).toNat ∣ m ∧ (9 : BitVec 64).toNat ≤ m} (align 9 8).toNat ∧
      align 9 8 = roundup 9 8 ∧ BitwiseMacros.isaligned (align 9 8) 8 = true :=
  align_roundsUp ⟨3, by decide⟩ (by decide)

/-! ### The tests -/

theorem isAligned_eq (h : PowerOfTwo bytes) (ptr : BitVec 64) :
    isAligned ptr bytes = BitwiseMacros.isaligned ptr bytes := by
  obtain ⟨k, hk⟩ := h
  rw [isAligned, BitwiseMacros.isaligned, Bool.eq_iff_iff, beq_iff_eq, beq_iff_eq, ← BitVec.toNat_inj,
    toNat_and_pred hk, ← BitVec.toNat_inj, BitVec.toNat_umod, hk]

/-- Both tests tell whether `bytes` divides the address. -/
def TestsAgree (ptr bytes : BitVec 64) : Prop :=
  (isaligned ptr bytes = true ↔ BitwiseMacros.isaligned ptr bytes = true) ∧
    (isaligned ptr bytes = true ↔ bytes.toNat ∣ ptr.toNat)

/-- Both tests accept what `align` makes of the address. -/
def TestsAccept (ptr bytes : BitVec 64) : Prop :=
  isaligned (align ptr bytes) bytes = true ∧ BitwiseMacros.isaligned (align ptr bytes) bytes = true

theorem isaligned_iff (h : PowerOfTwo bytes) (ptr : BitVec 64) :
    isaligned ptr bytes = true ↔ ptr.toNat < bytes.toNat := by
  obtain ⟨k, hk⟩ := h
  have hpos := Nat.two_pow_pos k
  have hzero : (0 : BitVec 64).toNat = 0 := rfl
  rw [isaligned, beq_iff_eq, ← BitVec.toNat_inj, toNat_and_not_pred hk, hk, hzero, Nat.mul_eq_zero,
    Nat.div_eq_zero_iff]
  omega

theorem testsAgree_iff (h : PowerOfTwo bytes) (ptr : BitVec 64) :
    TestsAgree ptr bytes ↔ ptr = 0 ∨ bytes.toNat < ptr.toNat ∧ ¬bytes.toNat ∣ ptr.toNat := by
  have hpos := h.pos
  have hzero : ptr = 0 ↔ ptr.toNat = 0 := BitVec.toNat_inj.symm
  rw [TestsAgree, BitwiseMacros.isaligned_iff, and_self, isaligned_iff h, hzero]
  constructor
  · intro hagree
    obtain hlt | heq | hgt := Nat.lt_trichotomy ptr.toNat bytes.toNat
    · exact .inl (Nat.eq_zero_of_dvd_of_lt (hagree.mp hlt) hlt)
    · exact absurd (hagree.mpr (heq ▸ Nat.dvd_refl _)) (by omega)
    · exact .inr ⟨hgt, fun hdvd => absurd (hagree.mpr hdvd) (by omega)⟩
  · intro hptr
    obtain hptr | ⟨hgt, hdvd⟩ := hptr
    · rw [hptr]
      exact iff_of_true hpos (Nat.dvd_zero _)
    · exact iff_of_false (by omega) hdvd

/-- An aligned address passes the test of this file when it is zero, as it is where the sum wraps around. -/
theorem testsAccept_iff (h : PowerOfTwo bytes) (ptr : BitVec 64) :
    TestsAccept ptr bytes ↔ ptr = 0 ∨ 2 ^ 64 < ptr.toNat + bytes.toNat := by
  have hpos := h.pos
  have hzero : ptr = 0 ↔ ptr.toNat = 0 := BitVec.toNat_inj.symm
  have hone : (1 : BitVec 64).toNat = 1 := rfl
  have haccept : TestsAccept ptr bytes ↔ (ptr + bytes - 1).toNat < bytes.toNat := by
    rw [TestsAccept, isaligned_iff h, align_eq, BitwiseMacros.isaligned_align h, BitwiseMacros.toNat_align h,
      and_iff_left rfl, div_mul_lt_iff hpos]
  rw [haccept, hzero, BitVec.toNat_sub, BitVec.toNat_add, hone]
  omega

/-- The tests agree on zero and on the addresses above `bytes` that are not aligned. -/
theorem tests_iff (h : PowerOfTwo bytes) (ptr : BitVec 64) :
    (TestsAgree ptr bytes ↔ ptr = 0 ∨ bytes.toNat < ptr.toNat ∧ ¬bytes.toNat ∣ ptr.toNat) ∧
      (TestsAccept ptr bytes ↔ ptr = 0 ∨ 2 ^ 64 < ptr.toNat + bytes.toNat) :=
  ⟨testsAgree_iff h ptr, testsAccept_iff h ptr⟩

theorem tests_iff_six :
    (TestsAgree 6 4 ↔ (6 : BitVec 64) = 0 ∨ (4 : BitVec 64).toNat < (6 : BitVec 64).toNat ∧
        ¬(4 : BitVec 64).toNat ∣ (6 : BitVec 64).toNat) ∧
      (TestsAccept 6 4 ↔ (6 : BitVec 64) = 0 ∨ 2 ^ 64 < (6 : BitVec 64).toNat + (4 : BitVec 64).toNat) :=
  tests_iff ⟨2, by decide⟩ 6

/-- 4 is aligned to 4. -/
theorem not_testsAgree_four : ¬TestsAgree 4 4 := by
  intro h
  exact absurd (h.2.mpr (Nat.dvd_refl _)) (by decide)

end CodingForFun.Coolmacros
