import CodingForFun.Lib.Cells
import CodingForFun.Lib.Words

/-!
# Counting the bits that are set

The two counters and the power test of `bitwise_macros.c`, with `int` as a word of 32 bits in two's complement, in
which arithmetic wraps around and the shift to the right is arithmetic. That shift never clears a sign bit, so
`numberbitssettoone` does not end for a negative number. The power test has the opposite sense of its name.
-/

namespace CodingForFun.BitwiseMacros

open Lib

/-- The variables `a` and `cont` (or `i`). -/
structure Count where
  a : BitVec 32
  cont : ℕ

/-- `while (a)` -/
def Count.more (s : Count) : Except Fault Bool := pure (s.a != 0)

/-- `if (a & 1) cont++; a = a>>1;` -/
def shiftRound (s : Count) : Except Fault Count :=
  let cont := if s.a &&& 1 ≠ 0 then s.cont + 1 else s.cont
  pure ⟨s.a.sshiftRight 1, cont⟩

/-- `a &= a-1; i++;` -/
def clearRound (s : Count) : Except Fault Count := pure ⟨s.a &&& (s.a - 1), s.cont + 1⟩

/-- The loop is cut off after `fuel` tests. -/
def numberbitssettoone (fuel : ℕ) (a : BitVec 32) : Except Fault ℕ := do
  let s ← whileM .unbounded Count.more shiftRound fuel ⟨a, 0⟩
  pure s.cont

/-- `numberbitssettoone_b`, cut off in the same way -/
def numberbitssettooneB (fuel : ℕ) (a : BitVec 32) : Except Fault ℕ := do
  let s ← whileM .unbounded Count.more clearRound fuel ⟨a, 0⟩
  pure s.cont

def ispoweroftwo (a : BitVec 32) : ℤ := if a &&& (a - 1) = 0 then 0 else 1

/-- A function with a loop returns `n`. -/
def Returns (f : ℕ → BitVec 32 → Except Fault ℕ) (a : BitVec 32) (n : ℕ) : Prop := ∃ fuel, f fuel a = .ok n

/-- Both counters return the number of one bits. -/
def CountOnes (a : BitVec 32) : Prop :=
  Returns numberbitssettoone a (ones a).card ∧ Returns numberbitssettooneB a (ones a).card

variable {a : BitVec 32}

theorem more_zero (n : ℕ) : Count.more ⟨0, n⟩ = .ok false := rfl

theorem more_of_ne {s : Count} (h : s.a ≠ 0) : s.more = .ok true := by
  rw [Count.more, bne_iff_ne.mpr h, pure_eq_ok]

theorem countLoop_ok {round : Count → Except Fault Count} (inv : BitVec 32 → Prop) (measure : BitVec 32 → ℕ)
    (hround : ∀ x n, inv x → x ≠ 0 → ∃ y m, round ⟨x, n⟩ = .ok ⟨y, n + m⟩ ∧
      m + (ones y).card = (ones x).card ∧ inv y ∧ measure y < measure x)
    {fuel : ℕ} (ha : inv a) (hfuel : measure a < fuel) :
    whileM .unbounded Count.more round fuel ⟨a, 0⟩ = .ok ⟨0, (ones a).card⟩ := by
  obtain ⟨s, hs, hpost⟩ := @whileM_ok _ _ Fault.unbounded Count.more round
    (fun s => inv s.a ∧ s.cont + (ones s.a).card = (ones a).card) (fun s => measure s.a)
    (fun s => s = ⟨0, (ones a).card⟩) (by
      intro s hs
      obtain ⟨x, n⟩ := s
      obtain ⟨hx, hcount⟩ := hs
      by_cases hzero : x = 0
      · subst hzero
        rw [ones_zero, Finset.card_empty, Nat.add_zero] at hcount
        exact .inr ⟨more_zero n, by rw [← hcount]⟩
      · obtain ⟨y, m, hy, hcard, hinv, hlt⟩ := hround x n hx hzero
        refine .inl ⟨_, more_of_ne hzero, hy, ⟨hinv, ?_⟩, hlt⟩
        rw [Nat.add_assoc, hcard, hcount]) fuel ⟨a, 0⟩ ⟨ha, Nat.zero_add _⟩ hfuel
  rw [hs, hpost]

/-! ### Clearing bits -/

theorem numberbitssettooneB_eq (a : BitVec 32) {fuel : ℕ} (hfuel : (ones a).card < fuel) :
    numberbitssettooneB fuel a = .ok (ones a).card := by
  have hloop := @countLoop_ok a clearRound (fun _ => True) (fun x => (ones x).card) (by
    intro x n _ hx
    have hclear := card_ones_clear hx
    refine ⟨_, 1, rfl, ?_, trivial, ?_⟩
    · rw [Nat.add_comm, hclear]
    · rw [← hclear]
      exact Nat.lt_succ_self _) fuel trivial hfuel
  rw [numberbitssettooneB, hloop, ok_bind, pure_eq_ok]

theorem numberbitssettooneB_unique {fuel n : ℕ} (h : numberbitssettooneB fuel a = .ok n) : n = (ones a).card := by
  have hcard := numberbitssettooneB_eq a (Nat.lt_succ_self _)
  unfold numberbitssettooneB at h hcard
  obtain ⟨s, hs, hn⟩ := exists_of_bind_eq_ok h
  obtain ⟨s', hs', hn'⟩ := exists_of_bind_eq_ok hcard
  rw [← Except.ok.inj hn, ← Except.ok.inj hn', whileM_unique hs hs']

theorem returns_b (a : BitVec 32) (n : ℕ) : Returns numberbitssettooneB a n ↔ n = (ones a).card := by
  constructor
  · intro h
    obtain ⟨fuel, h⟩ := h
    exact numberbitssettooneB_unique h
  · intro h
    subst h
    exact ⟨_, numberbitssettooneB_eq a (Nat.lt_succ_self _)⟩

/-! ### Shifting them out -/

theorem shiftRound_eq (x : BitVec 32) (n : ℕ) :
    shiftRound ⟨x, n⟩ = .ok ⟨x.sshiftRight 1, n + (x.getLsbD 0).toNat⟩ := by
  unfold shiftRound
  have hbit : x &&& 1 = if x.getLsbD 0 then 1 else 0 := BitVec.and_twoPow x 0
  simp only [hbit]
  cases x.getLsbD 0 <;> rfl

theorem numberbitssettoone_eq (ha : a.msb = false) {fuel : ℕ} (hfuel : a.toNat < fuel) :
    numberbitssettoone fuel a = .ok (ones a).card := by
  have hloop := @countLoop_ok a shiftRound (fun x => x.msb = false) BitVec.toNat (by
    intro x n hmsb hx
    have hpos : 0 < x.toNat := Nat.pos_of_ne_zero fun h => hx (BitVec.eq_of_toNat_eq h)
    refine ⟨_, _, shiftRound_eq x n, ?_, BitVec.msb_sshiftRight.trans hmsb, ?_⟩
    · rw [BitVec.sshiftRight_eq_of_msb_false hmsb, card_ones_ushiftRight x]
    · rw [BitVec.sshiftRight_eq_of_msb_false hmsb, BitVec.toNat_ushiftRight]
      exact Nat.div_lt_self hpos (by decide)) fuel ha hfuel
  rw [numberbitssettoone, hloop, ok_bind, pure_eq_ok]

theorem numberbitssettoone_forever (ha : a.msb = true) (fuel : ℕ) :
    numberbitssettoone fuel a = .error .unbounded := by
  have hloop := @whileM_forever _ _ Fault.unbounded Count.more shiftRound (fun s => s.a.msb = true) (by
    intro s hs
    obtain ⟨x, n⟩ := s
    refine ⟨_, more_of_ne ?_, shiftRound_eq x n, BitVec.msb_sshiftRight.trans hs⟩
    intro hx
    simp only at hs hx
    rw [hx] at hs
    exact absurd hs (by decide)) fuel ⟨a, 0⟩ ha
  rw [numberbitssettoone, hloop, error_bind]

/-- Both count the bits of the numbers that are not negative, and of no other ones. -/
theorem countOnes_iff (a : BitVec 32) : CountOnes a ↔ 0 ≤ a.toInt := by
  constructor
  · intro h
    obtain ⟨⟨fuel, h⟩, -⟩ := h
    by_contra hneg
    have hmsb : a.msb = true := by
      rw [BitVec.msb_eq_toInt, decide_eq_true (Int.not_le.mp hneg)]
    rw [numberbitssettoone_forever hmsb] at h
    cases h
  · intro h
    have hmsb : a.msb = false := by
      rw [BitVec.msb_eq_toInt, decide_eq_false (Int.not_lt.mpr h)]
    exact ⟨⟨_, numberbitssettoone_eq hmsb (Nat.lt_succ_self _)⟩, (returns_b a _).mpr rfl⟩

/-- `-1` -/
theorem not_countOnes_minusOne : ¬CountOnes (-1) := by
  intro h
  obtain ⟨⟨fuel, h⟩, -⟩ := h
  rw [numberbitssettoone_forever (by decide)] at h
  cases h

/-! ### Powers of two -/

theorem ispoweroftwo_ne_zero (a : BitVec 32) : ispoweroftwo a ≠ 0 ↔ ¬(ones a).card ≤ 1 := by
  rw [← clear_eq_zero]
  unfold ispoweroftwo
  split_ifs with hclear
  · exact iff_of_false (fun h => h rfl) (fun h => h hclear)
  · exact iff_of_true Int.one_ne_zero hclear

theorem card_le_one_iff (ha : 0 < a.toInt) : (ones a).card ≤ 1 ↔ (ones a).card = 1 := by
  have hne : (ones a).card ≠ 0 := by
    rw [Ne, Finset.card_eq_zero, ones_eq_empty]
    intro h
    rw [h] at ha
    exact absurd ha (by decide)
  omega

theorem exists_pow_iff (ha : 0 < a.toInt) : (∃ k : ℕ, a.toInt = 2 ^ k) ↔ (ones a).card = 1 := by
  have hmsb : a.msb = false := by
    rw [BitVec.msb_eq_toInt, decide_eq_false (by omega)]
  rw [card_ones_eq_one, BitVec.toInt_eq_toNat_of_msb hmsb]
  constructor
  · intro h
    obtain ⟨k, hk⟩ := h
    have hk : a.toNat = 2 ^ k := by exact_mod_cast hk
    exact ⟨k, (Nat.pow_lt_pow_iff_right (by decide)).mp (hk ▸ a.isLt), hk⟩
  · intro h
    obtain ⟨k, -, hk⟩ := h
    exact ⟨k, by exact_mod_cast hk⟩

theorem ispoweroftwo_opposite (ha : 0 < a.toInt) : ispoweroftwo a ≠ 0 ↔ ¬∃ k : ℕ, a.toInt = 2 ^ k := by
  rw [exists_pow_iff ha, ispoweroftwo_ne_zero, card_le_one_iff ha]

/-- `ispoweroftwo` agrees with the number of bits for no positive number, nor with being a power of two. -/
theorem ispoweroftwo_never (ha : 0 < a.toInt) :
    ¬(ispoweroftwo a ≠ 0 ↔ Returns numberbitssettooneB a 1) ∧
      ¬(ispoweroftwo a ≠ 0 ↔ ∃ k : ℕ, a.toInt = 2 ^ k) := by
  rw [returns_b, eq_comm, ← exists_pow_iff ha, ispoweroftwo_opposite ha]
  exact ⟨not_iff_self, not_iff_self⟩

theorem ispoweroftwo_never_four :
    ¬(ispoweroftwo 4 ≠ 0 ↔ Returns numberbitssettooneB 4 1) ∧
      ¬(ispoweroftwo 4 ≠ 0 ↔ ∃ k : ℕ, (4 : BitVec 32).toInt = 2 ^ k) :=
  ispoweroftwo_never (by decide)

/-- `4 & 3` is zero. -/
theorem not_ispoweroftwo_four :
    ¬((ispoweroftwo 4 ≠ 0 ↔ Returns numberbitssettooneB 4 1) ∧
      (ispoweroftwo 4 ≠ 0 ↔ ∃ k : ℕ, (4 : BitVec 32).toInt = 2 ^ k)) := by
  intro h
  have hzero : ispoweroftwo 4 = 0 := by decide
  exact h.2.mpr ⟨2, by decide⟩ hzero

end CodingForFun.BitwiseMacros
