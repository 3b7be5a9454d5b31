import CodingForFun.Lib.Loop
import CodingForFun.Lib.Words

/-!
# Ranges of bits

The macros of `bitwise_macros.c` on the bits between two places, and `merge_m_into_n`. Their masks come from
`1 << (i+1)` and `1 << (i-j+1)`, for which a word has no room when all of its bits are meant. `int` is a word in
two's complement, in which arithmetic wraps around. `merge_m_into_n` sets the field of `n` that it should clear.
-/

namespace CodingForFun.BitwiseMacros

open Lib

/-- `((1<<n)-1)` -/
def lowBits (n : ℤ) : Except BadShift (BitVec 32) := do pure ((← shl 1#32 n) - 1)

/-- `(((1<<(i-j+1))-1)<<j)` -/
def bitsbetweenij (i j : ℤ) : Except BadShift (BitVec 32) := do shl (← lowBits (i - j + 1)) j

def getLSbitstoi (v : BitVec 32) (i : ℤ) : Except BadShift (BitVec 32) := do pure (v &&& (← lowBits (i + 1)))

def getMSbitsfromi (v : BitVec 32) (i : ℤ) : Except BadShift (BitVec 32) := do pure (v &&& ~~~(← lowBits (i + 1)))

def setbitsbetweenij (v : BitVec 32) (i j : ℤ) : Except BadShift (BitVec 32) := do
  pure (v ||| (← bitsbetweenij i j))

def clearbitsbetweenij (v : BitVec 32) (i j : ℤ) : Except BadShift (BitVec 32) := do
  pure (v &&& ~~~(← bitsbetweenij i j))

/-- `merge_m_into_n` -/
def mergeMIntoN (m n : BitVec 32) (i j : ℤ) : Except BadShift (BitVec 32) := do
  let mask ← bitsbetweenij i j
  let nClear := n ||| mask
  let m := m &&& (← lowBits (i - j + 1))
  let m ← shl m j
  pure (m ||| nClear)

/-- No shift fails, and the bits of the result are these. -/
def Gives (x : Except BadShift (BitVec 32)) (bit : ℕ → Bool) : Prop :=
  ∃ r, x = .ok r ∧ ∀ p < 32, r.getLsbD p = bit p

/-- What the four macros are for. -/
structure RangeMacros (v : BitVec 32) (i j : ℕ) : Prop where
  getLS : Gives (getLSbitstoi v i) fun p => decide (p ≤ i) && v.getLsbD p
  getMS : Gives (getMSbitsfromi v i) fun p => !decide (p ≤ i) && v.getLsbD p
  setBetween : Gives (setbitsbetweenij v i j) fun p => decide (j ≤ p ∧ p ≤ i) || v.getLsbD p
  clearBetween : Gives (clearbitsbetweenij v i j) fun p => !decide (j ≤ p ∧ p ≤ i) && v.getLsbD p

/-- What `merge_m_into_n` is for. -/
def MergesField (m n : BitVec 32) (i j : ℕ) : Prop :=
  Gives (mergeMIntoN m n i j) fun p => if j ≤ p ∧ p ≤ i then m.getLsbD (p - j) else n.getLsbD p

variable {m n v : BitVec 32} {i j k : ℕ} {x : Except BadShift (BitVec 32)} {bit bit' : ℕ → Bool}

theorem gives_congr (h : ∀ p < 32, bit p = bit' p) (hx : Gives x bit) : Gives x bit' := by
  obtain ⟨r, hr, hbits⟩ := hx
  exact ⟨r, hr, fun p hp => (hbits p hp).trans (h p hp)⟩

theorem gives_unique (hx : Gives x bit) (hx' : Gives x bit') : ∀ p < 32, bit p = bit' p := by
  obtain ⟨r, hr, hbits⟩ := hx
  obtain ⟨r', hr', hbits'⟩ := hx'
  intro p hp
  rw [← hbits p hp, ← hbits' p hp, Except.ok.inj (hr.symm.trans hr')]

theorem not_gives_error {n : ℤ} : ¬Gives (.error ⟨n⟩) bit := by
  intro h
  obtain ⟨r, hr, -⟩ := h
  cases hr

/-! ### Masks -/

theorem lowBits_ok (hk : k < 32) : lowBits k = .ok ((1#32 <<< k) - 1) := by rw [lowBits, shl_ok _ hk]; rfl

theorem lowBits_gives (hk : k < 32) : Gives (lowBits k) fun p => decide (p < k) :=
  ⟨_, lowBits_ok hk, fun p _ => getLsbD_mask hk p⟩

theorem lowBits_error {n : ℤ} (hn : 32 ≤ n) : lowBits n = .error ⟨n⟩ := by rw [lowBits, shl_error _ hn]; rfl

theorem bitsbetweenij_gives (hij : j ≤ i) (hi : i < 32) (hwidth : i - j < 31) :
    Gives (bitsbetweenij i j) fun p => decide (j ≤ p ∧ p ≤ i) := by
  have hcount : (i - j + 1 : ℤ) = (i - j + 1 : ℕ) := by omega
  rw [bitsbetweenij, hcount, lowBits_ok (by omega), ok_bind, shl_ok _ (by omega)]
  refine ⟨_, rfl, ?_⟩
  intro p hp
  rw [BitVec.getLsbD_shiftLeft, getLsbD_mask (by omega), decide_eq_true hp, Bool.true_and, ← decide_not,
    ← Bool.decide_and, decide_eq_decide]
  omega

theorem bitsbetweenij_error (hwidth : (31 : ℤ) ≤ i - j) : bitsbetweenij i j = .error ⟨i - j + 1⟩ := by
  rw [bitsbetweenij, lowBits_error (by omega)]
  rfl

/-! ### The macros -/

theorem gives_bind {mask : Except BadShift (BitVec 32)} {f : BitVec 32 → BitVec 32} {g : Bool → ℕ → Bool}
    (hf : ∀ r, ∀ p < 32, (f r).getLsbD p = g (r.getLsbD p) p) (hmask : Gives mask bit) :
    Gives (do pure (f (← mask))) fun p => g (bit p) p := by
  obtain ⟨r, rfl, hbits⟩ := hmask
  refine ⟨f r, rfl, ?_⟩
  intro p hp
  rw [hf r p hp, hbits p hp]

section macros

variable {f : BitVec 32 → BitVec 32} {g : Bool → ℕ → Bool} (hf : ∀ r, ∀ p < 32, (f r).getLsbD p = g (r.getLsbD p) p)
include hf

theorem lowMacro_iff (i : ℕ) :
    (Gives (do pure (f (← lowBits (i + 1)))) fun p => g (decide (p ≤ i)) p) ↔ i ≤ 30 := by
  constructor
  · intro h
    by_contra hi
    rw [lowBits_error (by omega)] at h
    exact not_gives_error h
  · intro hi
    apply gives_bind hf
    apply gives_congr _ (lowBits_gives (show i + 1 < 32 by omega))
    intro p _
    exact decide_eq_decide.mpr Nat.lt_succ_iff

theorem fieldMacro_iff (hij : j ≤ i) (hi : i ≤ 31) :
    (Gives (do pure (f (← bitsbetweenij i j))) fun p => g (decide (j ≤ p ∧ p ≤ i)) p) ↔ i - j ≤ 30 := by
  constructor
  · intro h
    by_contra hwidth
    rw [bitsbetweenij_error (by omega)] at h
    exact not_gives_error h
  · intro hwidth
    exact gives_bind hf (bitsbetweenij_gives hij (by omega) (by omega))

end macros

theorem getLsbD_and_not (v r : BitVec 32) {p : ℕ} (hp : p < 32) :
    (v &&& ~~~r).getLsbD p = (!r.getLsbD p && v.getLsbD p) := by
  rw [BitVec.getLsbD_and, BitVec.getLsbD_not, decide_eq_true hp, Bool.true_and, Bool.and_comm]

theorem getLSbitstoi_iff (v : BitVec 32) (i : ℕ) :
    (Gives (getLSbitstoi v i) fun p => decide (p ≤ i) && v.getLsbD p) ↔ i ≤ 30 :=
  @lowMacro_iff (v &&& ·) (fun b p => b && v.getLsbD p) (fun r p _ => by rw [BitVec.getLsbD_and, Bool.and_comm]) i

theorem getMSbitsfromi_iff (v : BitVec 32) (i : ℕ) :
    (Gives (getMSbitsfromi v i) fun p => !decide (p ≤ i) && v.getLsbD p) ↔ i ≤ 30 :=
  @lowMacro_iff (v &&& ~~~·) (fun b p => !b && v.getLsbD p)
    (fun r _ hp => getLsbD_and_not v r hp) i

theorem setbitsbetweenij_iff (v : BitVec 32) (hij : j ≤ i) (hi : i ≤ 31) :
    (Gives (setbitsbetweenij v i j) fun p => decide (j ≤ p ∧ p ≤ i) || v.getLsbD p) ↔ i - j ≤ 30 :=
  @fieldMacro_iff i j (v ||| ·) (fun b p => b || v.getLsbD p)
    (fun r p _ => by rw [BitVec.getLsbD_or, Bool.or_comm]) hij hi

theorem clearbitsbetweenij_iff (v : BitVec 32) (hij : j ≤ i) (hi : i ≤ 31) :
    (Gives (clearbitsbetweenij v i j) fun p => !decide (j ≤ p ∧ p ≤ i) && v.getLsbD p) ↔ i - j ≤ 30 :=
  @fieldMacro_iff i j (v &&& ~~~·) (fun b p => !b && v.getLsbD p)
    (fun r _ hp => getLsbD_and_not v r hp) hij hi

/-- The last place is the only one for which a shift fails. -/
theorem rangeMacros_iff (v : BitVec 32) (hij : j ≤ i) (hi : i ≤ 31) : RangeMacros v i j ↔ i ≤ 30 := by
  constructor
  · intro h
    exact (getLSbitstoi_iff v i).mp h.getLS
  · intro hle
    exact {
      getLS := (getLSbitstoi_iff v i).mpr hle
      getMS := (getMSbitsfromi_iff v i).mpr hle
      setBetween := (setbitsbetweenij_iff v hij hi).mpr (by omega)
      clearBetween := (clearbitsbetweenij_iff v hij hi).mpr (by omega) }

theorem rangeMacros_iff_thirty : RangeMacros 5 30 2 ↔ 30 ≤ 30 := rangeMacros_iff 5 (by decide) (by decide)

/-- `1 << 32` -/
theorem not_rangeMacros_last : ¬RangeMacros 0 31 0 := by
  intro hall
  have h := hall.getLS
  have hshift : getLSbitstoi 0 (31 : ℕ) = .error ⟨32⟩ := by decide
  rw [hshift] at h
  exact not_gives_error h

/-! ### Merging -/

theorem mergeMIntoN_gives (m n : BitVec 32) (hij : j ≤ i) (hi : i ≤ 30) :
    Gives (mergeMIntoN m n i j) fun p => decide (j ≤ p ∧ p ≤ i) || n.getLsbD p := by
  have hcount : (i - j + 1 : ℤ) = (i - j + 1 : ℕ) := by omega
  obtain ⟨mask, hmask, hbits⟩ := bitsbetweenij_gives hij (by omega) (by omega)
  rw [mergeMIntoN, hmask, hcount, lowBits_ok (by omega)]
  simp only [ok_bind]
  rw [shl_ok _ (by omega)]
  refine ⟨_, rfl, ?_⟩
  intro p hp
  have hbit : mask.getLsbD p = decide (j ≤ p ∧ p ≤ i) := hbits p hp
  rw [BitVec.getLsbD_or, BitVec.getLsbD_or, hbit, BitVec.getLsbD_shiftLeft, BitVec.getLsbD_and,
    getLsbD_mask (by omega)]
  by_cases hfield : j ≤ p ∧ p ≤ i
  · simp [hfield]
  · -- a bit of `m` that is left lies in the field
    have hout : p < j ∨ ¬p - j < i - j + 1 := by omega
    obtain hout | hout := hout
    · simp [hfield, hout]
    · simp [hfield, hout]

/-- The result has the bits of `m` when they are all set. -/
theorem mergesField_iff (m n : BitVec 32) (hij : j ≤ i) (hi : i ≤ 30) :
    MergesField m n i j ↔ ∀ k ≤ i - j, m.getLsbD k = true := by
  have hmerge := mergeMIntoN_gives m n hij hi
  constructor
  · intro h k hk
    have hbit := gives_unique h hmerge (k + j) (by omega)
    have hfield : j ≤ k + j ∧ k + j ≤ i := by omega
    rwa [if_pos hfield, decide_eq_true hfield, Bool.true_or, Nat.add_sub_cancel] at hbit
  · intro h
    apply gives_congr _ hmerge
    intro p _
    by_cases hfield : j ≤ p ∧ p ≤ i
    · rw [if_pos hfield, decide_eq_true hfield, Bool.true_or, h _ (by omega)]
    · rw [if_neg hfield, decide_eq_false hfield, Bool.false_or]

theorem mergesField_iff_one : MergesField 1 0 0 0 ↔ ∀ k ≤ 0 - 0, (1 : BitVec 32).getLsbD k = true :=
  mergesField_iff 1 0 (by decide) (by decide)

/-- A zero merged into a zero gives one. -/
theorem not_mergesField_zero : ¬MergesField 0 0 0 0 := by
  intro h
  obtain ⟨r, hr, hbits⟩ := h
  have hone : mergeMIntoN 0 0 0 0 = .ok 1 := by decide
  rw [← Except.ok.inj (hone.symm.trans hr)] at hbits
  exact absurd (hbits 0 (by decide)) (by decide)

end CodingForFun.BitwiseMacros
