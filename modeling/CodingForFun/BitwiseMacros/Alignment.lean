import CodingForFun.Lib.Words

/-!
# Alignment in `bitwise_macros.c`

Addresses are words of 64 bits, and `bytes` is a power of two of the same width. `align` clears the low bits of
`ptr + bytes - 1`, and `isaligned` takes a remainder.
-/

namespace CodingForFun.BitwiseMacros

open Lib

def align (ptr bytes : BitVec 64) : BitVec 64 := (ptr + bytes - 1) &&& ~~~(bytes - 1)

def isaligned (ptr bytes : BitVec 64) : Bool := ptr % bytes == 0

/-- One of the sizes that the macros are for. -/
def PowerOfTwo (bytes : BitVec 64) : Prop := ∃ k, bytes.toNat = 2 ^ k

variable {ptr bytes : BitVec 64}

theorem PowerOfTwo.pos (h : PowerOfTwo bytes) : 0 < bytes.toNat := by
  obtain ⟨k, hk⟩ := h
  rw [hk]
  exact Nat.two_pow_pos k

theorem isaligned_iff (ptr bytes : BitVec 64) : isaligned ptr bytes = true ↔ bytes.toNat ∣ ptr.toNat := by
  rw [isaligned, beq_iff_eq, ← BitVec.toNat_inj, BitVec.toNat_umod]
  exact Nat.dvd_iff_mod_eq_zero.symm

theorem toNat_align (h : PowerOfTwo bytes) (ptr : BitVec 64) :
    (align ptr bytes).toNat = (ptr + bytes - 1).toNat / bytes.toNat * bytes.toNat := by
  obtain ⟨k, hk⟩ := h
  rw [align, toNat_and_not_pred hk, hk]

theorem isaligned_align (h : PowerOfTwo bytes) (ptr : BitVec 64) : isaligned (align ptr bytes) bytes = true := by
  rw [isaligned_iff, toNat_align h]
  exact Nat.dvd_mul_left _ _

theorem toNat_add_pred (h : PowerOfTwo bytes) (hptr : ptr.toNat + bytes.toNat - 1 < 2 ^ 64) :
    (ptr + bytes - 1).toNat = ptr.toNat + bytes.toNat - 1 := by
  have hpos := h.pos
  have hone : (1 : BitVec 64).toNat = 1 := rfl
  rw [BitVec.toNat_sub, BitVec.toNat_add, hone]
  omega

end CodingForFun.BitwiseMacros
