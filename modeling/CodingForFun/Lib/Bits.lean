import CodingForFun.Lib.CString

/-!
# Sets of small numbers as bits

`1 << k` of a C program is an `int`, and the language says nothing about it when `k` is negative or so big
that the sign bit is met. What the machine does there is the parameter `out`. Or-ing the bits of the members
gives a word in which a bit is set for the members and for no other number (`BitsOf`).
-/

namespace CodingForFun.Lib

/-- `1 << k` -/
def oneShl (out : ℤ → Except Fault (BitVec 32)) (k : ℤ) : Except Fault (BitVec 32) :=
  if 0 ≤ k ∧ k < 31 then .ok (1#32 <<< k.toNat) else out k

/-- `1 << k` on a machine that takes the number of places modulo 32. -/
def shlModulo (k : ℤ) : Except Fault (BitVec 32) := .ok (1#32 <<< (k % 32).toNat)

variable {out : ℤ → Except Fault (BitVec 32)} {k : ℕ}

theorem oneShl_ok (hk : k < 31) : oneShl out k = .ok (1#32 <<< k) := by
  rw [oneShl, if_pos ⟨Int.natCast_nonneg k, by omega⟩, Int.toNat_natCast]

theorem oneShl_neg {k : ℤ} (hk : k < 0) : oneShl out k = out k := by
  rw [oneShl, if_neg]
  omega

theorem twoPow_ne_zero {w : ℕ} (hk : k < w) : BitVec.twoPow w k ≠ 0 := by
  intro h
  have hbit : (BitVec.twoPow w k).getLsbD k = (0#w).getLsbD k := by rw [h]; rfl
  rw [BitVec.getLsbD_twoPow, BitVec.getLsbD_zero] at hbit
  simp [hk] at hbit

theorem letter_bit {c : UInt8} (hc : IsLower c) :
    oneShl out (letterNumber c) = .ok (1#32 <<< (c.toNat - 96)) := by
  rw [letterNumber_eq hc, oneShl_ok]
  have hhigh := hc.2
  omega

theorem letter_bit_ne_zero {c : UInt8} (hc : IsLower c) : 1#32 <<< (c.toNat - 96) ≠ 0 := by
  have hhigh := hc.2
  rw [← BitVec.twoPow_eq]
  exact twoPow_ne_zero (by omega)

/-! ### Words of 64 bits -/

/-- The word with the bits of these letters. -/
def letterBits (l : List UInt8) : BitVec 64 :=
  l.foldl (fun bits c => bits ||| (1#32 <<< (c.toNat - 96)).signExtend 64) 0

theorem signExtend_eq (hk : k < 31) : (1#32 <<< k).signExtend 64 = BitVec.twoPow 64 k := by
  have hmsb : (1#32 <<< k).msb = false := by
    rw [BitVec.msb_eq_getLsbD_last, BitVec.getLsbD_shiftLeft]
    simp [show ¬31 < k by omega, show ¬31 - k = 0 by omega]
  apply BitVec.eq_of_getLsbD_eq
  intro i hi
  rw [BitVec.getLsbD_signExtend, hmsb, BitVec.getLsbD_shiftLeft, BitVec.getLsbD_one, BitVec.getLsbD_twoPow]
  by_cases hik : i = k
  · simp [hik, show k < 32 by omega, show k < 64 by omega]
  · by_cases hlt : i < k
    · simp [hlt, Ne.symm hik]
    · simp [show ¬i - k = 0 by omega, Ne.symm hik]

theorem getLsbD_letterBits {l : List UInt8} (hl : ∀ d ∈ l, IsLower d) (k : ℕ) :
    (letterBits l).getLsbD k = true ↔ ∃ d ∈ l, d.toNat - 96 = k := by
  have hfold : ∀ (l : List UInt8) (bits : BitVec 64), (∀ d ∈ l, IsLower d) →
      ((l.foldl (fun bits c => bits ||| (1#32 <<< (c.toNat - 96)).signExtend 64) bits).getLsbD k = true ↔
        bits.getLsbD k = true ∨ ∃ d ∈ l, d.toNat - 96 = k) := by
    intro l
    induction l with
    | nil => simp
    | cons c l ih =>
      intro bits hl
      have hhigh := (hl c List.mem_cons_self).2
      rw [List.foldl_cons, ih _ fun d hd => hl d (List.mem_cons_of_mem c hd),
        signExtend_eq (show c.toNat - 96 < 31 by omega), BitVec.getLsbD_or, BitVec.getLsbD_twoPow,
        decide_eq_true (show c.toNat - 96 < 64 by omega)]
      simp [or_assoc]
  rw [letterBits, hfold l 0 hl]
  simp

theorem mem_letterBits {l : List UInt8} {c : UInt8} (hl : ∀ d ∈ l, IsLower d) (hc : IsLower c) :
    letterBits l &&& (1#32 <<< (c.toNat - 96)).signExtend 64 ≠ 0 ↔ c ∈ l := by
  obtain ⟨hlow, hhigh⟩ := hc
  have hbit : letterBits l &&& (1#32 <<< (c.toNat - 96)).signExtend 64 ≠ 0 ↔
      (letterBits l).getLsbD (c.toNat - 96) = true := by
    rw [signExtend_eq (by omega), BitVec.and_twoPow]
    cases (letterBits l).getLsbD (c.toNat - 96) with
    | false => simp
    | true => simpa using twoPow_ne_zero (show c.toNat - 96 < 64 by omega)
  rw [hbit, getLsbD_letterBits hl]
  constructor
  · intro h
    obtain ⟨d, hd, heq⟩ := h
    have hdlow := (hl d hd).1
    rwa [← UInt8.toNat_inj.mp (show d.toNat = c.toNat by omega)]
  · exact fun hc => ⟨c, hc, rfl⟩

end CodingForFun.Lib
