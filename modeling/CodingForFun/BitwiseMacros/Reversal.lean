import CodingForFun.Lib.Bits
import CodingForFun.Lib.Words

/-!
# Reversing bits and bytes

The macros that swap neighbouring fields of a word and the functions that reverse its bits or its bytes, from
`bitwise_macros.c`, and the instructions of `ByteSwap` from `armassembly/inline.c`. All of them move bits. A swap of
fields of `s` bits takes bit `i` from place `i ^ s`, the bytes are reversed by `i ^ 24`, and all bits by `i ^ 31`.
-/

namespace CodingForFun.BitwiseMacros

open Lib

/-- `(((a & hi) >> s) | ((a & lo) << s))` -/
def swapFields (hi lo : BitVec 32) (s : ℕ) (a : BitVec 32) : BitVec 32 := ((a &&& hi) >>> s) ||| ((a &&& lo) <<< s)

def swapbitsuint32 : BitVec 32 → BitVec 32 := swapFields 0xAAAAAAAA#32 0x55555555#32 1

def swap2bitsuint32 : BitVec 32 → BitVec 32 := swapFields 0xCCCCCCCC#32 0x33333333#32 2

def swap4bitsuint32 : BitVec 32 → BitVec 32 := swapFields 0xF0F0F0F0#32 0x0F0F0F0F#32 4

def changeendiannesuint32 (a : BitVec 32) : BitVec 32 :=
  ((a &&& 0xFF#32) <<< 24) ||| ((a &&& 0xFF00#32) <<< 8) ||| ((a &&& 0xFF0000#32) >>> 8) |||
    ((a &&& 0xFF000000#32) >>> 24)

def changeendianessint (a : BitVec 32) : BitVec 32 :=
  ((a >>> 24) &&& 0xFF#32) ||| ((a >>> 8) &&& 0xFF00#32) ||| ((a <<< 8) &&& 0xFF0000#32) |||
    ((a <<< 24) &&& 0xFF000000#32)

def byteSwap (val : BitVec 32) : BitVec 32 :=
  -- eor r3, val, val, ror #16
  let r3 := val ^^^ val.rotateRight 16
  -- bic r3, r3, #0x00FF0000
  let r3 := r3 &&& ~~~0x00FF0000#32
  -- mov val, val, ror #8
  let val := val.rotateRight 8
  -- eor val, val, r3, lsr #8
  val ^^^ (r3 >>> 8)

/-- `if (a & 1<<i) swapped |= (1<<((sizeof(int) * 8) - i - 1));` -/
def swaporderRound (a : BitVec 32) (i : ℤ) (swapped : BitVec 32) : Except BadShift (BitVec 32) := do
  if a &&& (← shl 1#32 i) ≠ 0 then pure (swapped ||| (← shl 1#32 (32 - i - 1))) else pure swapped

def swaporderbits (a : BitVec 32) : Except BadShift (BitVec 32) := forUp 0 32 (swaporderRound a) 0

/-! ### Fields -/

/-- The masks have the fields of `s` bits by turns, the one on the left being in `hi`. -/
def FieldMasks (hi lo : BitVec 32) (s : ℕ) : Prop :=
  ∀ i < 32, i ^^^ s < 32 ∧
    (i ^^^ s = s + i ∧ hi.getLsbD (s + i) = true ∧ (i < s ∨ lo.getLsbD (i - s) = false) ∨
      s ≤ i ∧ i ^^^ s = i - s ∧ hi.getLsbD (s + i) = false ∧ lo.getLsbD (i - s) = true)

instance (hi lo : BitVec 32) (s : ℕ) : Decidable (FieldMasks hi lo s) := Nat.decidableBallLT ..

variable {hi lo : BitVec 32} {s : ℕ}

theorem moves_swapFields (h : FieldMasks hi lo s) : Moves (swapFields hi lo s) (· ^^^ s) where
  lt i hi := (h i hi).1
  bit a i hi := by
    unfold swapFields
    rw [BitVec.getLsbD_or, BitVec.getLsbD_ushiftRight, BitVec.getLsbD_shiftLeft, BitVec.getLsbD_and,
      BitVec.getLsbD_and]
    obtain ⟨-, ⟨hplace, hhi, hlo⟩ | ⟨hle, hplace, hhi, hlo⟩⟩ := h i hi
    · rw [hplace, hhi, Bool.and_true]
      obtain hlt | hlo := hlo
      · simp [hlt]
      · simp [hlo]
    · rw [hplace, hhi, hlo]
      simp [hi, Nat.not_lt.mpr hle]

theorem moves_swapbitsuint32 : Moves swapbitsuint32 (· ^^^ 1) := moves_swapFields (by decide)

theorem moves_swap2bitsuint32 : Moves swap2bitsuint32 (· ^^^ 2) := moves_swapFields (by decide)

theorem moves_swap4bitsuint32 : Moves swap4bitsuint32 (· ^^^ 4) := moves_swapFields (by decide)

/-! ### Bytes -/

theorem getLsbD_and_mask {m : BitVec 32} {keep : ℕ → Bool} (hm : ∀ p < 32, m.getLsbD p = keep p) (a : BitVec 32)
    (p : ℕ) : (a &&& m).getLsbD p = (keep p && a.getLsbD p) := by
  rw [BitVec.getLsbD_and, Bool.and_comm]
  by_cases hp : p < 32
  · rw [hm p hp]
  · rw [BitVec.getLsbD_of_ge a p (Nat.not_lt.mp hp), Bool.and_false, Bool.and_false]

section bytes

variable (a : BitVec 32) (p : ℕ)

theorem byte_zero : (a &&& 0xFF#32).getLsbD p = (decide (p / 8 = 0) && a.getLsbD p) :=
  @getLsbD_and_mask 0xFF#32 (fun p => decide (p / 8 = 0)) (by decide) a p

theorem byte_one : (a &&& 0xFF00#32).getLsbD p = (decide (p / 8 = 1) && a.getLsbD p) :=
  @getLsbD_and_mask 0xFF00#32 (fun p => decide (p / 8 = 1)) (by decide) a p

theorem byte_two : (a &&& 0xFF0000#32).getLsbD p = (decide (p / 8 = 2) && a.getLsbD p) :=
  @getLsbD_and_mask 0xFF0000#32 (fun p => decide (p / 8 = 2)) (by decide) a p

theorem byte_three : (a &&& 0xFF000000#32).getLsbD p = (decide (p / 8 = 3) && a.getLsbD p) :=
  @getLsbD_and_mask 0xFF000000#32 (fun p => decide (p / 8 = 3)) (by decide) a p

theorem byte_not_two : (a &&& ~~~0x00FF0000#32).getLsbD p = (decide (p / 8 ≠ 2) && a.getLsbD p) :=
  @getLsbD_and_mask (~~~0x00FF0000#32) (fun p => decide (p / 8 ≠ 2)) (by decide) a p

end bytes

theorem xor_bytes : ∀ i < 32, i ^^^ 24 = 8 * (3 - i / 8) + i % 8 := by decide

theorem xor_bytes_lt : ∀ i < 32, i ^^^ 24 < 32 := by decide

theorem moves_changeendiannesuint32 : Moves changeendiannesuint32 (· ^^^ 24) where
  lt := xor_bytes_lt
  bit a i hi := by
    unfold changeendiannesuint32
    simp only [BitVec.getLsbD_or, BitVec.getLsbD_shiftLeft, BitVec.getLsbD_ushiftRight, byte_zero, byte_one,
      byte_two, byte_three]
    rw [xor_bytes i hi]
    grind

theorem moves_changeendianessint : Moves changeendianessint (· ^^^ 24) where
  lt := xor_bytes_lt
  bit a i hi := by
    unfold changeendianessint
    simp only [BitVec.getLsbD_or, BitVec.getLsbD_shiftLeft, BitVec.getLsbD_ushiftRight, byte_zero, byte_one,
      byte_two, byte_three]
    rw [xor_bytes i hi]
    grind

/-- The rotated word and the bits of `r3` agree in two of the bytes that they both have, and cancel there. -/
theorem moves_byteSwap : Moves byteSwap (· ^^^ 24) where
  lt := xor_bytes_lt
  bit a i hi := by
    unfold byteSwap
    simp only [BitVec.getLsbD_xor, BitVec.getLsbD_ushiftRight, byte_not_two, BitVec.getLsbD_rotateRight]
    rw [xor_bytes i hi]
    grind

theorem xor_xor_self (i : ℕ) : i ^^^ 24 ^^^ 24 = i := by rw [Nat.xor_assoc, Nat.xor_self, Nat.xor_zero]

/-- The ways to reverse the bytes. -/
def byteReversals : List (BitVec 32 → BitVec 32) := [changeendiannesuint32, changeendianessint, byteSwap]

theorem moves_of_mem {f : BitVec 32 → BitVec 32} (hf : f ∈ byteReversals) : Moves f (· ^^^ 24) := by
  obtain rfl | rfl | rfl : f = changeendiannesuint32 ∨ f = changeendianessint ∨ f = byteSwap := by
    simpa [byteReversals] using hf
  · exact moves_changeendiannesuint32
  · exact moves_changeendianessint
  · exact moves_byteSwap

/-- All of them do the same, and each undoes each. -/
theorem byteReversals_agree (a : BitVec 32) :
    changeendiannesuint32 a = changeendianessint a ∧ changeendiannesuint32 a = byteSwap a ∧
      ∀ f ∈ byteReversals, ∀ g ∈ byteReversals, f (g a) = a := by
  refine ⟨?_, ?_, ?_⟩
  · exact moves_changeendiannesuint32.eq moves_changeendianessint (fun _ _ => rfl) a
  · exact moves_changeendiannesuint32.eq moves_byteSwap (fun _ _ => rfl) a
  · intro f hf g hg
    exact (moves_of_mem hf).cancel (moves_of_mem hg) (fun i _ => xor_xor_self i) a

/-! ### All bits -/

/-- The reversal by four swaps. -/
def reverseBits (a : BitVec 32) : BitVec 32 :=
  changeendiannesuint32 (swap4bitsuint32 (swap2bitsuint32 (swapbitsuint32 a)))

theorem getLsbD_reverseBits (a : BitVec 32) {i : ℕ} (hi : i < 32) :
    (reverseBits a).getLsbD i = a.getLsbD (31 - i) := by
  have hmoves := moves_changeendiannesuint32.comp
    (moves_swap4bitsuint32.comp (moves_swap2bitsuint32.comp moves_swapbitsuint32))
  have hplace : ∀ i < 32, i ^^^ 24 ^^^ 4 ^^^ 2 ^^^ 1 = 31 - i := by decide
  rw [← hplace i hi]
  exact hmoves.bit a i hi

theorem reverseBits_reverseBits (a : BitVec 32) : reverseBits (reverseBits a) = a := by
  apply BitVec.eq_of_getLsbD_eq
  intro i hi
  rw [getLsbD_reverseBits _ hi, getLsbD_reverseBits _ (by omega), Nat.sub_sub_self (by omega)]

theorem and_bit_ne_zero (a : BitVec 32) {k : ℕ} (hk : k < 32) : a &&& 1#32 <<< k ≠ 0 ↔ a.getLsbD k = true := by
  rw [← BitVec.twoPow_eq, BitVec.and_twoPow]
  cases a.getLsbD k with
  | false => simp
  | true => simpa using twoPow_ne_zero hk

theorem swaporderRound_ok (a swapped : BitVec 32) {k : ℕ} (hk : k < 32) :
    ∃ r, swaporderRound a k swapped = .ok r ∧
      ∀ p < 32, r.getLsbD p = (swapped.getLsbD p || decide (31 - p = k) && a.getLsbD (31 - p)) := by
  have hshift : shl 1#32 (32 - (k : ℤ) - 1) = .ok (1#32 <<< (31 - k)) := by
    rw [show (32 - (k : ℤ) - 1) = (31 - k : ℕ) by omega, shl_ok _ (by omega)]
  rw [swaporderRound, shl_ok _ hk, ok_bind]
  by_cases hbit : a.getLsbD k = true
  · rw [if_pos ((and_bit_ne_zero a hk).mpr hbit), hshift, ok_bind]
    refine ⟨_, rfl, ?_⟩
    intro p hp
    rw [BitVec.getLsbD_or, ← BitVec.twoPow_eq, BitVec.getLsbD_twoPow, decide_eq_true (show 31 - k < 32 by omega),
      Bool.true_and]
    by_cases hpk : 31 - p = k
    · rw [hpk, hbit, decide_eq_true rfl, decide_eq_true (show 31 - k = p by omega)]
      rfl
    · rw [decide_eq_false hpk, decide_eq_false (show ¬31 - k = p by omega)]
      rfl
  · rw [if_neg (mt (and_bit_ne_zero a hk).mp hbit)]
    refine ⟨_, rfl, ?_⟩
    intro p _
    by_cases hpk : 31 - p = k
    · rw [hpk, Bool.eq_false_of_not_eq_true hbit, Bool.and_false, Bool.or_false]
    · rw [decide_eq_false hpk, Bool.false_and, Bool.or_false]

theorem swaporderbits_eq_reverseBits (a : BitVec 32) : swaporderbits a = .ok (reverseBits a) := by
  obtain ⟨r, hr, hbits⟩ := @forUp_ok _ _ (swaporderRound a) 0 32 0
    (fun i swapped => ∀ p < 32, swapped.getLsbD p = (decide (((31 - p : ℕ) : ℤ) < i) && a.getLsbD (31 - p)))
    (by decide) (by simp) (by
      intro i swapped hlow hhigh hswapped
      obtain ⟨k, rfl⟩ := Int.eq_ofNat_of_zero_le hlow
      obtain ⟨r, hr, hbits⟩ := swaporderRound_ok a swapped (show k < 32 by omega)
      refine ⟨r, hr, ?_⟩
      intro p hp
      rw [hbits p hp, hswapped p hp, ← Bool.and_or_distrib_right, ← Bool.decide_or]
      congr 2
      rw [eq_iff_iff]
      omega)
  rw [swaporderbits, hr]
  congr 1
  apply BitVec.eq_of_getLsbD_eq
  intro p hp
  rw [hbits p hp, getLsbD_reverseBits a hp, decide_eq_true (by omega), Bool.true_and]

/-- The loop and the four swaps turn the bits round, and doing it again turns them back. -/
theorem swaporderbits_eq (a : BitVec 32) :
    swaporderbits a = .ok (changeendiannesuint32 (swap4bitsuint32 (swap2bitsuint32 (swapbitsuint32 a)))) ∧
      (∀ r, swaporderbits a = .ok r → ∀ i < 32, r.getLsbD i = a.getLsbD (31 - i)) ∧
        (do swaporderbits (← swaporderbits a)) = .ok a := by
  have hr := swaporderbits_eq_reverseBits a
  refine ⟨hr, ?_, ?_⟩
  · intro r h i hi
    rw [← Except.ok.inj (hr.symm.trans h), getLsbD_reverseBits a hi]
  · rw [hr, ok_bind, swaporderbits_eq_reverseBits, reverseBits_reverseBits]

end CodingForFun.BitwiseMacros
