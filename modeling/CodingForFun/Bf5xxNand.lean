import CodingForFun.Lib.IndexParity
import CodingForFun.Lib.Words

/-!
# Error correction in `mtd_platform_bf5xx_nand.c`

The flash controller computes two parity words of 11 bits for every 256 bytes: the parities of the bits
at the positions with a bit set, and at the positions with it clear. `bf5xx_nand_correct_data_256`
compares the words of what was written with those of what was read. An odd number of wrong bits gives
two words that are complements of each other, an even number gives equal ones (`correctData256_eq`).
-/

namespace CodingForFun.Bf5xxNand

open Lib
open scoped symmDiff

/-- What `u_char *` points to. -/
abbrev Bytes := ℕ → BitVec 8

/-- Bit `i` of a block: bit `i & 7` of byte `i >> 3`. -/
def bitAt (dat : Bytes) (i : ℕ) : Bool := (dat (i / 8)).getLsbD (i % 8)

/-- The positions of the bits that are set in 256 bytes. -/
def setBits (dat : Bytes) : Finset ℕ := (Finset.range 2048).filter fun i => bitAt dat i = true

/-- The two parity registers of the controller after 256 bytes have passed through. -/
structure Generates (ecc0 ecc1 : BitVec 16) (dat : Bytes) : Prop where
  direct : ∀ k < 11, ecc0.getLsbD k = parity ((setBits dat).filter fun i => i.testBit k = true)
  inverse : ∀ k < 11, ecc1.getLsbD k = parity ((setBits dat).filter fun i => i.testBit k = false)

instance (ecc0 ecc1 : BitVec 16) (dat : Bytes) : Decidable (Generates ecc0 ecc1 dat) :=
  decidable_of_iff
    ((∀ k < 11, ecc0.getLsbD k = parity ((setBits dat).filter fun i => i.testBit k = true)) ∧
      ∀ k < 11, ecc1.getLsbD k = parity ((setBits dat).filter fun i => i.testBit k = false))
    ⟨fun h => ⟨h.1, h.2⟩, fun h => ⟨h.direct, h.inverse⟩⟩

/-! ## The functions of the driver -/

/-- `code[0]` of `bf5xx_nand_calculate_ecc`. -/
def eccCode (ecc0 ecc1 : BitVec 16) : BitVec 32 :=
  (ecc0 &&& 0x7ff#16).setWidth 32 ||| (ecc1 &&& 0x7ff#16).setWidth 32 <<< 11

/-- `memcpy(ecc_code, p, 3)`. -/
def copyCode (code : BitVec 32) : Bytes := fun k => (code >>> (8 * k)).setWidth 8

/-- `bf5xx_nand_calculate_ecc` with the four registers of the controller: what it leaves in the buffer. -/
def calculateEcc (size : ℕ) (ecc0 ecc1 ecc2 ecc3 : BitVec 16) (buf : Bytes) : Bytes := fun k =>
  if k < 3 then copyCode (eccCode ecc0 ecc1) k
  else if size = 512 ∧ k < 6 then copyCode (eccCode ecc2 ecc3) (k - 3)
  else buf k

/-- `ecc[0] | (ecc[1] << 8) | (ecc[2] << 16)`. -/
def loadCode (ecc : Bytes) : BitVec 32 :=
  (ecc 0).setWidth 32 ||| (ecc 1).setWidth 32 <<< 8 ||| (ecc 2).setWidth 32 <<< 16

/-- `hweight32`. -/
def hweight32 (x : BitVec 32) : ℕ := (ones x).card

/-- `bf5xx_nand_correct_data_256`: what it returns, and the data. -/
def correctData256 (dat readEcc calcEcc : Bytes) : ℕ × Bytes :=
  let calced := loadCode calcEcc
  let stored := loadCode readEcc
  let syndrome0 := calced ^^^ stored
  if syndrome0 = 0 ∨ calced = 0 ∨ stored = 0 then (0, dat)
  else if hweight32 syndrome0 = 1 then (1, dat)
  else
    let syndrome1 := (calced &&& 0x7FF#32) ^^^ (stored &&& 0x7FF#32)
    let syndrome2 := (calced &&& 0x7FF#32) ^^^ ((calced >>> 11) &&& 0x7FF#32)
    let syndrome3 := (stored &&& 0x7FF#32) ^^^ ((stored >>> 11) &&& 0x7FF#32)
    let syndrome4 := syndrome2 ^^^ syndrome3
    if hweight32 syndrome0 = 11 ∧ syndrome4 = 0x7FF#32 then
      let failingBit := (syndrome1 &&& 0x7#32).toNat
      let failingByte := (syndrome1 >>> 3).toNat
      (0, Function.update dat failingByte (dat failingByte ^^^ 1#8 <<< failingBit))
    else (1, dat)

/-- `dat + 256`. -/
def from256 (dat : Bytes) : Bytes := fun k => dat (k + 256)

/-- `read_ecc + 3`. -/
def from3 (ecc : Bytes) : Bytes := fun k => ecc (k + 3)

/-- `bf5xx_nand_correct_data` for a chip with this `ecc.size`. -/
def correctData (size : ℕ) (dat readEcc calcEcc : Bytes) : ℕ × Bytes :=
  let (ret, dat) := correctData256 dat readEcc calcEcc
  if size = 512 then
    let (ret', rest) := correctData256 (from256 dat) (from3 readEcc) (from3 calcEcc)
    (ret ||| ret', fun k => if k < 256 then dat k else rest (k - 256))
  else (ret, dat)

/-! ## Codes -/

theorem getLsbD_eccCode (ecc0 ecc1 : BitVec 16) (k : ℕ) :
    (eccCode ecc0 ecc1).getLsbD k =
      if k < 11 then ecc0.getLsbD k else decide (k < 22) && ecc1.getLsbD (k - 11) := by
  have hmask : ∀ j, (0x7ff#16).getLsbD j = decide (j < 11) := by
    intro j
    have h := getLsbD_mask (w := 16) (k := 11) (by decide) j
    exact h
  unfold eccCode
  simp only [BitVec.getLsbD_or, BitVec.getLsbD_setWidth, BitVec.getLsbD_and, BitVec.getLsbD_shiftLeft,
    hmask]
  split
  case isTrue hk =>
    have h32 : k < 32 := by omega
    simp [hk, h32]
  case isFalse hk =>
    by_cases hk22 : k < 22
    · have h32 : k < 32 := by omega
      have h11 : k - 11 < 11 := by omega
      have hlt : k - 11 < 32 := by omega
      simp [hk, hk22, h32, h11, hlt]
    · have h11 : ¬ k - 11 < 11 := by omega
      simp [hk, hk22, h11]

theorem loadCode_copyCode (ecc0 ecc1 : BitVec 16) :
    loadCode (copyCode (eccCode ecc0 ecc1)) = eccCode ecc0 ecc1 := by
  apply BitVec.eq_of_getLsbD_eq
  intro k hk
  unfold loadCode copyCode
  simp only [BitVec.getLsbD_or, BitVec.getLsbD_setWidth, BitVec.getLsbD_shiftLeft,
    BitVec.getLsbD_ushiftRight]
  by_cases h8 : k < 8
  · have h16 : k < 16 := by omega
    simp [hk, h8, h16]
  · by_cases h16 : k < 16
    · have hsub : k - 8 < 8 := by omega
      have hlt : k - 8 < 32 := by omega
      have hback : 8 + (k - 8) = k := by omega
      simp [hk, h8, h16, hsub, hlt, hback]
    · have hsub : ¬ k - 8 < 8 := by omega
      have hlt : k - 16 < 32 := by omega
      have hback : 16 + (k - 16) = k := by omega
      by_cases h24 : k < 24
      · have hsub' : k - 16 < 8 := by omega
        simp [hk, h8, h16, hsub, hlt, hsub', hback]
      · -- nothing is above the 22 bits
        have hsub' : ¬ k - 16 < 8 := by omega
        have htop : (eccCode ecc0 ecc1).getLsbD k = false := by
          rw [getLsbD_eccCode, if_neg (by omega), decide_eq_false (by omega), Bool.false_and]
        rw [htop]
        simp [h8, hsub, hsub']

theorem loadCode_congr {ecc ecc' : Bytes} (h : ∀ k < 3, ecc k = ecc' k) : loadCode ecc = loadCode ecc' := by
  unfold loadCode
  rw [h 0 (by decide), h 1 (by decide), h 2 (by decide)]

/-- A code with the parity words `x` and `y`. -/
def IsPair (c : BitVec 32) (x y : BitVec 11) : Prop :=
  ∀ k, c.getLsbD k = if k < 11 then x.getLsbD k else decide (k < 22) && y.getLsbD (k - 11)

section pair

variable {c c' : BitVec 32} {x y x' y' : BitVec 11}

theorem IsPair.xor (h : IsPair c x y) (h' : IsPair c' x' y') :
    IsPair (c ^^^ c') (x ^^^ x') (y ^^^ y') := by
  intro k
  rw [BitVec.getLsbD_xor, h k, h' k, BitVec.getLsbD_xor, BitVec.getLsbD_xor]
  split
  · rfl
  · cases decide (k < 22) <;> simp

theorem getLsbD_low (c : BitVec 32) (k : ℕ) :
    (c &&& 0x7FF#32).getLsbD k = (c.getLsbD k && decide (k < 11)) := by
  rw [BitVec.getLsbD_and]
  congr 1
  exact getLsbD_mask (w := 32) (k := 11) (by decide) k

theorem IsPair.low (h : IsPair c x y) : c &&& 0x7FF#32 = x.setWidth 32 := by
  apply BitVec.eq_of_getLsbD_eq
  intro k hk
  rw [getLsbD_low, h k, BitVec.getLsbD_setWidth]
  by_cases h11 : k < 11
  · simp [h11, hk]
  · simp [h11, BitVec.getLsbD_of_ge x k (by omega)]

theorem IsPair.high (h : IsPair c x y) : (c >>> 11) &&& 0x7FF#32 = y.setWidth 32 := by
  apply BitVec.eq_of_getLsbD_eq
  intro k hk
  rw [getLsbD_low, BitVec.getLsbD_ushiftRight, h, BitVec.getLsbD_setWidth]
  by_cases h11 : k < 11
  · have h22 : 11 + k < 22 := by omega
    simp [h11, hk, h22]
  · simp [h11, BitVec.getLsbD_of_ge y k (by omega)]

theorem IsPair.eq_zero_iff (h : IsPair c x y) : c = 0 ↔ x = 0 ∧ y = 0 := by
  constructor
  · rintro rfl
    constructor
    · apply BitVec.eq_of_getLsbD_eq
      intro k hk
      have hbit := h k
      rw [if_pos hk] at hbit
      simpa using hbit.symm
    · apply BitVec.eq_of_getLsbD_eq
      intro k hk
      have hbit := h (k + 11)
      rw [if_neg (by omega), decide_eq_true (by omega), Nat.add_sub_cancel] at hbit
      simpa using hbit.symm
  · rintro ⟨rfl, rfl⟩
    apply BitVec.eq_of_getLsbD_eq
    intro k _
    rw [h k]
    simp

theorem card_ones {w : ℕ} (a : BitVec w) : (ones a).card = ∑ k ∈ Finset.range w, (a.getLsbD k).toNat := by
  unfold ones
  rw [Finset.card_filter]
  apply Finset.sum_congr rfl
  intro k _
  cases a.getLsbD k <;> rfl

theorem IsPair.hweight32 (h : IsPair c x y) : hweight32 c = (ones x).card + (ones y).card := by
  have hrange : Finset.range 32 = Finset.range (11 + (11 + 10)) := rfl
  unfold Bf5xxNand.hweight32
  rw [card_ones, card_ones, card_ones, hrange, Finset.sum_range_add, Finset.sum_range_add]
  have hx : ∀ k ∈ Finset.range 11, (c.getLsbD k).toNat = (x.getLsbD k).toNat := by
    intro k hk
    rw [h k, if_pos (Finset.mem_range.mp hk)]
  have hy : ∀ k ∈ Finset.range 11, (c.getLsbD (11 + k)).toNat = (y.getLsbD k).toNat := by
    intro k hk
    have hk := Finset.mem_range.mp hk
    rw [h, if_neg (by omega), decide_eq_true (by omega), Bool.true_and, Nat.add_sub_cancel_left]
  have hzero : ∀ k ∈ Finset.range 10, (c.getLsbD (11 + (11 + k))).toNat = 0 := by
    intro k _
    rw [h, if_neg (by omega), decide_eq_false (by omega), Bool.false_and, Bool.toNat_false]
  rw [Finset.sum_congr rfl hx, Finset.sum_congr rfl hy, Finset.sum_congr rfl hzero, Finset.sum_const_zero,
    Nat.add_zero]

theorem card_ones_not {w : ℕ} (a : BitVec w) : (ones a).card + (ones (~~~a)).card = w := by
  have hnot : ones (~~~a) = (Finset.range w).filter fun k => ¬ a.getLsbD k = true := by
    apply Finset.filter_congr
    intro k hk
    simp [Finset.mem_range.mp hk]
  rw [hnot]
  unfold ones
  rw [Finset.card_filter_add_card_filter_not, Finset.card_range]

end pair

/-! ## What is corrected -/

theorem Generates.isPair {ecc0 ecc1 : BitVec 16} {dat : Bytes} (h : Generates ecc0 ecc1 dat) :
    IsPair (eccCode ecc0 ecc1) (xorAll 11 (setBits dat))
      (if parity (setBits dat) then ~~~ xorAll 11 (setBits dat) else xorAll 11 (setBits dat)) := by
  intro k
  rw [getLsbD_eccCode]
  split
  case isTrue hk => rw [h.direct k hk, getLsbD_xorAll hk]
  case isFalse hk =>
    by_cases h22 : k < 22
    · rw [h.inverse _ (by omega), parity_filter_testBit_eq_false (show k - 11 < 11 by omega)]
    · rw [decide_eq_false h22, Bool.false_and, Bool.false_and]

/-- The positions of the bits that two blocks do not agree on. -/
def wrong (dat dat' : Bytes) : Finset ℕ := setBits dat' ∆ setBits dat

/-- `*(dat + i / 8) ^= 1 << (i % 8)`. -/
def flipBit (dat : Bytes) (i : ℕ) : Bytes :=
  Function.update dat (i / 8) (dat (i / 8) ^^^ 1#8 <<< (i % 8))

theorem setWidth_xor_eq_iff {x y : BitVec 11} : (x ^^^ y).setWidth 32 = 0x7FF#32 ↔ y = ~~~x := by
  have hmask : ∀ k, (0x7FF#32).getLsbD k = decide (k < 11) :=
    getLsbD_mask (w := 32) (k := 11) (by decide)
  constructor
  · intro h
    apply BitVec.eq_of_getLsbD_eq
    intro k hk
    have hbit := congrArg (fun c => c.getLsbD k) h
    simp only [BitVec.getLsbD_setWidth, BitVec.getLsbD_xor, hmask, hk, decide_true] at hbit
    rw [BitVec.getLsbD_not, decide_eq_true hk]
    revert hbit
    cases x.getLsbD k <;> cases y.getLsbD k <;> simp
  · rintro rfl
    apply BitVec.eq_of_getLsbD_eq
    intro k hk
    rw [hmask, BitVec.getLsbD_setWidth, BitVec.getLsbD_xor, BitVec.getLsbD_not, decide_eq_true hk]
    cases hx : x.getLsbD k with
    | true => simp [BitVec.lt_of_getLsbD hx]
    | false => simp

theorem correctData256_of_pair (dat : Bytes) {readEcc calcEcc : Bytes} {x y cx cy sx sy : BitVec 11}
    (hcalc : IsPair (loadCode calcEcc) cx cy) (hread : IsPair (loadCode readEcc) sx sy)
    (hx : x = cx ^^^ sx) (hy : y = cy ^^^ sy)
    (hcalced : loadCode calcEcc ≠ 0) (hstored : loadCode readEcc ≠ 0) :
    correctData256 dat readEcc calcEcc =
      if x = 0 ∧ y = 0 then (0, dat)
      else if (ones x).card + (ones y).card ≠ 1 ∧ y = ~~~x then (0, flipBit dat x.toNat)
      else (1, dat) := by
  have hdiff : IsPair (loadCode calcEcc ^^^ loadCode readEcc) x y := by
    rw [hx, hy]
    exact hcalc.xor hread
  have hsyndrome1 : (loadCode calcEcc &&& 0x7FF#32) ^^^ (loadCode readEcc &&& 0x7FF#32) = x.setWidth 32 := by
    rw [hcalc.low, hread.low, hx]
    exact (BitVec.setWidth_xor ..).symm
  have hsyndrome4 : ((loadCode calcEcc &&& 0x7FF#32) ^^^ ((loadCode calcEcc >>> 11) &&& 0x7FF#32)) ^^^
      ((loadCode readEcc &&& 0x7FF#32) ^^^ ((loadCode readEcc >>> 11) &&& 0x7FF#32)) =
        (x ^^^ y).setWidth 32 := by
    rw [hcalc.low, hcalc.high, hread.low, hread.high, hx, hy]
    simp only [BitVec.setWidth_xor]
    ac_rfl
  unfold correctData256
  simp only [hsyndrome1, hsyndrome4, hdiff.eq_zero_iff, hdiff.hweight32, hcalced, hstored, or_false,
    setWidth_xor_eq_iff]
  by_cases hzero : x = 0 ∧ y = 0
  · rw [if_pos hzero, if_pos hzero]
  rw [if_neg hzero, if_neg hzero]
  by_cases hone : (ones x).card + (ones y).card = 1
  · rw [if_pos hone, if_neg fun h => h.1 hone]
  rw [if_neg hone]
  by_cases hnot : y = ~~~x
  · have heleven : (ones x).card + (ones y).card = 11 := by
      rw [hnot]
      exact card_ones_not x
    have hbit : (x.setWidth 32 &&& 0x7#32).toNat = x.toNat % 8 := by
      rw [BitVec.toNat_and, BitVec.toNat_setWidth_of_le (by decide)]
      exact Nat.and_two_pow_sub_one_eq_mod x.toNat 3
    have hbyte : (x.setWidth 32 >>> 3).toNat = x.toNat / 8 := by
      rw [BitVec.toNat_ushiftRight, BitVec.toNat_setWidth_of_le (by decide), Nat.shiftRight_eq_div_pow]
    rw [if_pos ⟨heleven, hnot⟩, if_pos ⟨hone, hnot⟩, hbit, hbyte]
    rfl
  · rw [if_neg fun h => hnot h.2, if_neg fun h => hnot h.2]

theorem ne_not_self {w : ℕ} (hw : 0 < w) (x : BitVec w) : x ≠ ~~~x := by
  intro h
  have hbit := congrArg (fun c => c.getLsbD 0) h
  simp only [BitVec.getLsbD_not, hw, decide_true, Bool.true_and] at hbit
  exact Bool.eq_not_self _ |>.mp hbit

/-- What becomes of any two blocks. An even number of wrong bits is noticed unless their positions cancel
out; an odd number makes the function flip the bit at the exclusive or of their positions. But a code
that is zero is taken for an erased page, and then nothing is done. -/
theorem correctData256_eq {dat dat' readEcc calcEcc : Bytes} {ecc0 ecc1 ecc0' ecc1' : BitVec 16}
    (h : Generates ecc0 ecc1 dat) (h' : Generates ecc0' ecc1' dat')
    (hread : loadCode readEcc = eccCode ecc0 ecc1) (hcalc : loadCode calcEcc = eccCode ecc0' ecc1') :
    correctData256 dat' readEcc calcEcc =
      if eccCode ecc0 ecc1 = 0 ∨ eccCode ecc0' ecc1' = 0 then (0, dat')
      else if parity (wrong dat dat') then (0, flipBit dat' (xorAll 11 (wrong dat dat')).toNat)
      else if xorAll 11 (wrong dat dat') = 0 then (0, dat')
      else (1, dat') := by
  by_cases hzero : eccCode ecc0 ecc1 = 0 ∨ eccCode ecc0' ecc1' = 0
  · unfold correctData256
    simp only [hread, hcalc]
    rw [if_pos hzero, if_pos (.inr hzero.symm)]
  · rw [if_neg hzero]
    obtain ⟨hstored, hcalced⟩ := not_or.mp hzero
    obtain ⟨x, hx⟩ : ∃ x, x = xorAll 11 (wrong dat dat') := ⟨_, rfl⟩
    have hxor : x = xorAll 11 (setBits dat') ^^^ xorAll 11 (setBits dat) := by
      rw [hx, wrong, xorAll_symmDiff]
    have hyor : (if parity (wrong dat dat') then ~~~x else x) =
        (if parity (setBits dat') then ~~~ xorAll 11 (setBits dat') else xorAll 11 (setBits dat')) ^^^
          (if parity (setBits dat) then ~~~ xorAll 11 (setBits dat) else xorAll 11 (setBits dat)) := by
      rw [hxor, wrong, parity_symmDiff]
      apply BitVec.eq_of_getLsbD_eq
      intro k hk
      cases parity (setBits dat') <;> cases parity (setBits dat) <;> simp [hk]
    have hpair := correctData256_of_pair dat' (hcalc ▸ h'.isPair) (hread ▸ h.isPair) hxor hyor
      (hcalc ▸ hcalced) (hread ▸ hstored)
    rw [hpair, ← hx]
    cases parity (wrong dat dat') with
    | true =>
      simp only [if_true]
      have hcard : (ones x).card + (ones (~~~x)).card ≠ 1 := by
        rw [card_ones_not]
        decide
      rw [if_neg, if_pos ⟨hcard, trivial⟩]
      rintro ⟨hx0, hy0⟩
      rw [hx0] at hy0
      exact ne_not_self (by decide) 0 hy0.symm
    | false =>
      simp only [Bool.false_eq_true, if_false, and_self]
      by_cases hx0 : x = 0
      · rw [if_pos hx0, if_pos hx0]
      · rw [if_neg hx0, if_neg hx0, if_neg fun hnot => ne_not_self (by decide) x hnot.2]

/-- Zeros, with a byte in each half. -/
def sector (lower upper : BitVec 8) : Bytes := fun k => if k = 2 then lower else if k = 256 then upper else 0

/-- Bit 20 was written and bits 16, 17 and 18 are wrong: bit 19 becomes wrong as well. -/
theorem correctData256_eq_threeWrong :
    (correctData256 (sector 0x17 0) (copyCode (eccCode 20 0x7EB)) (copyCode (eccCode 7 7))).1 = 0 ∧
    (correctData256 (sector 0x17 0) (copyCode (eccCode 20 0x7EB)) (copyCode (eccCode 7 7))).2 2 = 0x1F := by
  have hwritten : Generates 20 0x7EB (sector 0x10 0) := by decide +kernel
  have hpassed : Generates 7 7 (sector 0x17 0) := by decide +kernel
  rw [correctData256_eq hwritten hpassed (loadCode_copyCode ..) (loadCode_copyCode ..)]
  decide +kernel

/-! ## One and two wrong bits -/

theorem bitAt_flipBit (dat : Bytes) (i j : ℕ) :
    bitAt (flipBit dat i) j = (bitAt dat j ^^ decide (j = i)) := by
  unfold bitAt flipBit
  by_cases hbyte : j / 8 = i / 8
  · have hi : i % 8 < 8 := Nat.mod_lt i (by decide)
    have hj : j % 8 < 8 := Nat.mod_lt j (by decide)
    have hbit : (1#8 <<< (i % 8)).getLsbD (j % 8) = decide (j = i) := by
      rw [← BitVec.twoPow_eq, BitVec.getLsbD_twoPow, decide_eq_true hi, Bool.true_and,
        decide_eq_decide]
      omega
    rw [hbyte, Function.update_self, BitVec.getLsbD_xor, hbit]
  · rw [Function.update_of_ne hbyte, decide_eq_false fun h => hbyte (by rw [h]), Bool.xor_false]

theorem setBits_flipBit (dat : Bytes) {i : ℕ} (hi : i < 2048) :
    setBits (flipBit dat i) = setBits dat ∆ {i} := by
  ext j
  simp only [setBits, Finset.mem_symmDiff, Finset.mem_filter, Finset.mem_range, Finset.mem_singleton,
    bitAt_flipBit]
  by_cases hj : j = i
  · subst hj
    cases bitAt dat j <;> simp [hi]
  · simp [hj]

theorem eq_of_setBits_eq {dat dat' : Bytes} (h : setBits dat = setBits dat') {k : ℕ} (hk : k < 256) :
    dat k = dat' k := by
  apply BitVec.eq_of_getLsbD_eq
  intro b hb
  have hmem := Finset.ext_iff.mp h (8 * k + b)
  have hdiv : (8 * k + b) / 8 = k := by omega
  have hmod : (8 * k + b) % 8 = b := by omega
  have hlt : 8 * k + b < 2048 := by omega
  rw [setBits, setBits, Finset.mem_filter, Finset.mem_filter] at hmem
  simp only [Finset.mem_range, hlt, true_and] at hmem
  unfold bitAt at hmem
  rw [hdiv, hmod] at hmem
  exact Bool.eq_iff_iff.mpr hmem

theorem setBits_eq_symmDiff (dat dat' : Bytes) : setBits dat' = setBits dat ∆ wrong dat dat' := by
  unfold wrong
  rw [symmDiff_comm (setBits dat'), symmDiff_symmDiff_cancel_left]

section few

variable {dat dat' readEcc calcEcc : Bytes} {ecc0 ecc1 ecc0' ecc1' : BitVec 16}

theorem wrong_subset (dat dat' : Bytes) {i : ℕ} (hi : i ∈ wrong dat dat') : i < 2048 := by
  rcases Finset.mem_symmDiff.mp hi with ⟨h, _⟩ | ⟨h, _⟩ <;>
    exact Finset.mem_range.mp (Finset.mem_filter.mp h).1

theorem correctData256_one (h : Generates ecc0 ecc1 dat) (h' : Generates ecc0' ecc1' dat')
    (hread : loadCode readEcc = eccCode ecc0 ecc1) (hcalc : loadCode calcEcc = eccCode ecc0' ecc1')
    (hstored : eccCode ecc0 ecc1 ≠ 0) (hcalced : eccCode ecc0' ecc1' ≠ 0)
    (hone : (wrong dat dat').card ≤ 1) :
    (correctData256 dat' readEcc calcEcc).1 = 0 ∧
      ∀ k < 256, (correctData256 dat' readEcc calcEcc).2 k = dat k := by
  rw [correctData256_eq h h' hread hcalc, if_neg (not_or.mpr ⟨hstored, hcalced⟩)]
  have hbits := setBits_eq_symmDiff dat dat'
  rcases Nat.le_one_iff_eq_zero_or_eq_one.mp hone with hcard | hcard
  · rw [Finset.card_eq_zero.mp hcard] at hbits ⊢
    rw [parity_empty, if_neg Bool.false_ne_true, if_pos xorAll_empty]
    refine ⟨rfl, fun k hk => (eq_of_setBits_eq ?_ hk).symm⟩
    rw [hbits]
    exact (symmDiff_bot _).symm
  · obtain ⟨i, hi⟩ := Finset.card_eq_one.mp hcard
    have hlt : i < 2048 := wrong_subset dat dat' (hi ▸ Finset.mem_singleton_self i)
    rw [hi] at hbits ⊢
    have hparity : parity {i} = true := by
      unfold parity
      rw [Finset.card_singleton]
      rfl
    rw [if_pos hparity, xorAll_singleton, BitVec.toNat_ofNat, Nat.mod_eq_of_lt hlt]
    refine ⟨rfl, fun k hk => eq_of_setBits_eq ?_ hk⟩
    rw [setBits_flipBit dat' hlt, hbits, symmDiff_symmDiff_cancel_right]

theorem correctData256_two (h : Generates ecc0 ecc1 dat) (h' : Generates ecc0' ecc1' dat')
    (hread : loadCode readEcc = eccCode ecc0 ecc1) (hcalc : loadCode calcEcc = eccCode ecc0' ecc1')
    (hstored : eccCode ecc0 ecc1 ≠ 0) (hcalced : eccCode ecc0' ecc1' ≠ 0)
    (htwo : (wrong dat dat').card = 2) : correctData256 dat' readEcc calcEcc = (1, dat') := by
  rw [correctData256_eq h h' hread hcalc, if_neg (not_or.mpr ⟨hstored, hcalced⟩)]
  obtain ⟨i, j, hne, hij⟩ := Finset.card_eq_two.mp htwo
  have hi : i < 2048 := wrong_subset dat dat' (hij ▸ Finset.mem_insert_self i {j})
  have hj : j < 2048 := wrong_subset dat dat' (hij ▸ Finset.mem_insert_of_mem (Finset.mem_singleton_self j))
  have hparity : parity (wrong dat dat') = false := by
    unfold parity
    rw [htwo]
    rfl
  rw [hparity, if_neg Bool.false_ne_true, if_neg]
  rw [hij, xorAll_insert (fun hmem => hne (Finset.mem_singleton.mp hmem)), xorAll_singleton]
  intro hzero
  have heq := congrArg BitVec.toNat (BitVec.xor_eq_zero_iff.mp hzero)
  rw [BitVec.toNat_ofNat, BitVec.toNat_ofNat, Nat.mod_eq_of_lt hi, Nat.mod_eq_of_lt hj] at heq
  exact hne heq

theorem correctData256_upToTwo (h : Generates ecc0 ecc1 dat) (h' : Generates ecc0' ecc1' dat')
    (hread : loadCode readEcc = eccCode ecc0 ecc1) (hcalc : loadCode calcEcc = eccCode ecc0' ecc1')
    (hstored : loadCode readEcc ≠ 0) (hcalced : loadCode calcEcc ≠ 0) (hfew : (wrong dat dat').card ≤ 2) :
    (correctData256 dat' readEcc calcEcc).1 = (if (wrong dat dat').card = 2 then 1 else 0) ∧
      ∀ k < 256, (correctData256 dat' readEcc calcEcc).2 k =
        if (wrong dat dat').card = 2 then dat' k else dat k := by
  rw [hread] at hstored
  rw [hcalc] at hcalced
  by_cases htwo : (wrong dat dat').card = 2
  · rw [correctData256_two h h' hread hcalc hstored hcalced htwo]
    simp only [htwo, if_true, implies_true, and_self]
  · simp only [if_neg htwo]
    apply correctData256_one h h' hread hcalc hstored hcalced
    omega

end few

/-! ## Sectors of 512 bytes -/

theorem correctData256_ge (dat readEcc calcEcc : Bytes) {k : ℕ} (hk : 256 ≤ k) :
    (correctData256 dat readEcc calcEcc).2 k = dat k := by
  have hlt : (((loadCode calcEcc &&& 0x7FF#32) ^^^ (loadCode readEcc &&& 0x7FF#32)) >>> 3).toNat < 256 := by
    have hlow : ∀ c : BitVec 32, (c &&& 0x7FF#32).toNat < 2 ^ 11 := by
      intro c
      rw [BitVec.toNat_and]
      exact Nat.lt_of_le_of_lt Nat.and_le_right (by decide)
    have hxor := Nat.xor_lt_two_pow (hlow (loadCode calcEcc)) (hlow (loadCode readEcc))
    rw [BitVec.toNat_ushiftRight, BitVec.toNat_xor, Nat.shiftRight_eq_div_pow]
    omega
  unfold correctData256
  simp only
  split
  · rfl
  split
  · rfl
  split
  · exact Function.update_of_ne (by omega) _ _
  · rfl

/-- The code that the driver computes when these 512 bytes pass through the controller. -/
def IsCode (code dat : Bytes) : Prop :=
  ∃ ecc0 ecc1 ecc2 ecc3 buf, Generates ecc0 ecc1 dat ∧ Generates ecc2 ecc3 (from256 dat) ∧
    code = calculateEcc 512 ecc0 ecc1 ecc2 ecc3 buf

theorem loadCode_calculateEcc (size : ℕ) (ecc0 ecc1 ecc2 ecc3 : BitVec 16) (buf : Bytes) :
    loadCode (calculateEcc size ecc0 ecc1 ecc2 ecc3 buf) = eccCode ecc0 ecc1 := by
  rw [← loadCode_copyCode ecc0 ecc1]
  apply loadCode_congr
  intro k hk
  unfold calculateEcc
  rw [if_pos hk]

theorem loadCode_from3_calculateEcc (ecc0 ecc1 ecc2 ecc3 : BitVec 16) (buf : Bytes) :
    loadCode (from3 (calculateEcc 512 ecc0 ecc1 ecc2 ecc3 buf)) = eccCode ecc2 ecc3 := by
  rw [← loadCode_copyCode ecc2 ecc3]
  apply loadCode_congr
  intro k hk
  unfold from3 calculateEcc
  rw [if_neg (by omega), if_pos ⟨rfl, by omega⟩, Nat.add_sub_cancel]

/-- A sector of 512 bytes whose codes are not blank, with at most two wrong bits in each half: a half
with two is reported and left as it is, and any other half comes back as it was written. -/
theorem correctData_upToTwo {dat dat' readEcc calcEcc : Bytes}
    (h : IsCode readEcc dat) (h' : IsCode calcEcc dat')
    (hread : loadCode readEcc ≠ 0 ∧ loadCode (from3 readEcc) ≠ 0)
    (hcalc : loadCode calcEcc ≠ 0 ∧ loadCode (from3 calcEcc) ≠ 0)
    (hlow : (wrong dat dat').card ≤ 2) (hhigh : (wrong (from256 dat) (from256 dat')).card ≤ 2) :
    ((correctData 512 dat' readEcc calcEcc).1 =
      if (wrong dat dat').card = 2 ∨ (wrong (from256 dat) (from256 dat')).card = 2 then 1 else 0) ∧
    (∀ k < 256, (correctData 512 dat' readEcc calcEcc).2 k =
      if (wrong dat dat').card = 2 then dat' k else dat k) ∧
    ∀ k, 256 ≤ k → k < 512 → (correctData 512 dat' readEcc calcEcc).2 k =
      if (wrong (from256 dat) (from256 dat')).card = 2 then dat' k else dat k := by
  obtain ⟨ecc0, ecc1, ecc2, ecc3, buf, hlower, hupper, rfl⟩ := h
  obtain ⟨ecc0', ecc1', ecc2', ecc3', buf', hlower', hupper', rfl⟩ := h'
  have hfirst := correctData256_upToTwo hlower hlower' (loadCode_calculateEcc ..)
    (loadCode_calculateEcc ..) hread.1 hcalc.1 hlow
  have hsecond := correctData256_upToTwo hupper hupper' (loadCode_from3_calculateEcc ..)
    (loadCode_from3_calculateEcc ..) hread.2 hcalc.2 hhigh
  have hrest : from256 (correctData256 dat' (calculateEcc 512 ecc0 ecc1 ecc2 ecc3 buf)
      (calculateEcc 512 ecc0' ecc1' ecc2' ecc3' buf')).2 = from256 dat' := by
    funext k
    exact correctData256_ge _ _ _ (Nat.le_add_left 256 k)
  unfold correctData
  simp only [if_true, hrest]
  refine ⟨?_, fun k hk => ?_, fun k hk hlt => ?_⟩
  · rw [hfirst.1, hsecond.1]
    by_cases hone : (wrong dat dat').card = 2 <;>
      by_cases htwo : (wrong (from256 dat) (from256 dat')).card = 2 <;> simp [hone, htwo]
  · rw [if_pos hk]
    exact hfirst.2 k hk
  · rw [if_neg (by omega), hsecond.2 (k - 256) (by omega)]
    unfold from256
    rw [Nat.sub_add_cancel hk]

/-- One wrong bit in the lower half, two in the upper. -/
theorem correctData_upToTwo_threeWrong :
    (correctData 512 (sector 0x18 0x83) (calculateEcc 512 20 0x7EB 7 0x7F8 fun _ => 0)
      (calculateEcc 512 7 7 6 0x7F9 fun _ => 0)).1 = 1 := by
  have hwritten : IsCode (calculateEcc 512 20 0x7EB 7 0x7F8 fun _ => 0) (sector 0x10 0x80) :=
    ⟨20, 0x7EB, 7, 0x7F8, fun _ => 0, by decide +kernel, by decide +kernel, rfl⟩
  have hpassed : IsCode (calculateEcc 512 7 7 6 0x7F9 fun _ => 0) (sector 0x18 0x83) :=
    ⟨7, 7, 6, 0x7F9, fun _ => 0, by decide +kernel, by decide +kernel, rfl⟩
  rw [(correctData_upToTwo hwritten hpassed (by decide +kernel) (by decide +kernel) (by decide +kernel)
    (by decide +kernel)).1]
  decide +kernel

end CodingForFun.Bf5xxNand
