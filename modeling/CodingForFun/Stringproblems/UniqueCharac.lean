import CodingForFun.Lib.Bits
import CodingForFun.Lib.CString

/-!
# `uniqueCharac1` and `uniqueCharac2`

The two tests of `src/stringproblems.c` for a letter that is repeated. Both move the pointer in the condition
of the loop, so the first letter is never looked at, and the last round looks at the terminator. Besides,
`uniqueCharac2` tests the bit with `&&` where `&` is meant: from the second round on it always takes the
letter for a repeated one.
-/

namespace CodingForFun.Stringproblems

open Lib

/-- The inner loop of `uniqueCharac1`, from `ptr2` on: whether `*ptr1` is not met. -/
def notRepeated (s : CString) (ptr1 : ℤ) : ℕ → ℤ → Except Fault Bool
  | 0, _ => .error .unbounded
  | fuel + 1, ptr2 => do
    if (← s.read ptr2) ≠ 0 then
      let ptr2 := ptr2 + 1
      if (← s.read ptr2) = (← s.read ptr1) then pure false else notRepeated s ptr1 fuel ptr2
    else
      pure true

/-- The outer loop. -/
def uniqueCharac1Loop (s : CString) : ℕ → ℤ → Except Fault Bool
  | 0, _ => .error .unbounded
  | fuel + 1, ptr1 => do
    if (← s.read ptr1) ≠ 0 then
      let ptr1 := ptr1 + 1
      if ← notRepeated s ptr1 (s.length + 1) ptr1 then uniqueCharac1Loop s fuel ptr1 else pure false
    else
      pure true

def uniqueCharac1 (s : CString) : Except Fault Bool := uniqueCharac1Loop s (s.length + 1) 0

/-- `bit_field && (1<<character)`; the second operand is left out when the first one is 0. -/
def bitSet (out : ℤ → Except Fault (BitVec 32)) (bitField : BitVec 32) (character : ℤ) :
    Except Fault Bool := do
  if bitField ≠ 0 then pure ((← oneShl out character) != 0) else pure false

/-- The loop of `uniqueCharac2`. -/
def uniqueCharac2Loop (out : ℤ → Except Fault (BitVec 32)) (s : CString) :
    ℕ → ℤ → BitVec 32 → Except Fault Bool
  | 0, _, _ => .error .unbounded
  | fuel + 1, ptr, bitField => do
    if (← s.read ptr) ≠ 0 then
      let ptr := ptr + 1
      let character := letterNumber (← s.read ptr)
      if ← bitSet out bitField character then
        pure false
      else
        uniqueCharac2Loop out s fuel ptr (bitField ||| (← oneShl out character))
    else
      pure true

def uniqueCharac2 (out : ℤ → Except Fault (BitVec 32)) (s : CString) : Except Fault Bool :=
  uniqueCharac2Loop out s (s.length + 1) 0 0

section

variable {s : CString} {c : UInt8} {out : ℤ → Except Fault (BitVec 32)}

/-! ### The pairs of letters -/

theorem notRepeated_eq {ptr1 : ℤ} (hptr1 : s.read ptr1 = .ok c) (hc : c ≠ 0) :
    ∀ (back front : List UInt8) (fuel : ℕ), front ++ back = s.chars → back.length < fuel →
      notRepeated s ptr1 fuel front.length = .ok (decide (c ∉ back.tail)) := by
  intro back
  induction back with
  | nil =>
    intro front fuel h hfuel
    obtain ⟨fuel, rfl⟩ := Nat.exists_eq_add_of_lt hfuel
    simp only [notRepeated, CString.read_headD h, ok_bind, List.headD_nil]
    simp
  | cons d back ih =>
    intro front fuel h hfuel
    obtain ⟨fuel, rfl⟩ := Nat.exists_eq_add_of_lt hfuel
    have hrest := ih (front ++ [d]) (back.length + 1 + fuel) (CString.concat_append h) (by omega)
    rw [CString.length_concat] at hrest
    simp only [List.length_cons, notRepeated, CString.read_cons h, ok_bind, CString.read_succ h, hptr1,
      if_pos (CString.ne_zero h), hrest, List.tail_cons, pure_eq_ok]
    cases back with
    | nil => simp [hc.symm]
    | cons e back =>
      by_cases he : e = c
      · simp [he]
      · by_cases hc : c ∈ back <;> simp [he, Ne.symm he, hc]

theorem uniqueCharac1Loop_eq :
    ∀ (back front : List UInt8) (fuel : ℕ), front ++ back = s.chars → back.length < fuel →
      uniqueCharac1Loop s fuel front.length = .ok (decide back.tail.Nodup) := by
  intro back
  induction back with
  | nil =>
    intro front fuel h hfuel
    obtain ⟨fuel, rfl⟩ := Nat.exists_eq_add_of_lt hfuel
    simp only [uniqueCharac1Loop, CString.read_headD h, ok_bind, List.headD_nil]
    simp
  | cons d back ih =>
    intro front fuel h hfuel
    obtain ⟨fuel, rfl⟩ := Nat.exists_eq_add_of_lt hfuel
    have hfront := CString.concat_append h
    have hrest := ih (front ++ [d]) (back.length + 1 + fuel) hfront (by omega)
    rw [CString.length_concat] at hrest
    have hinner : notRepeated s (front.length + 1) (s.length + 1) (front.length + 1) =
        .ok (decide (back.headD 0 ∉ back.tail)) := by
      cases back with
      | nil => simp only [notRepeated, CString.read_succ h, ok_bind, List.headD_nil]; simp
      | cons e back =>
        have heq := notRepeated_eq (CString.read_succ h) (CString.ne_zero hfront) (e :: back) (front ++ [d])
          (s.length + 1) hfront (CString.length_lt hfront)
        rwa [CString.length_concat] at heq
    simp only [List.length_cons, uniqueCharac1Loop, CString.read_cons h, ok_bind, if_pos (CString.ne_zero h),
      hrest, hinner, List.tail_cons, pure_eq_ok]
    cases back with
    | nil => simp
    | cons e back =>
      by_cases he : e ∈ back
      · simp [he]
      · by_cases hback : back.Nodup <;> simp [he, hback]

theorem uniqueCharac1_eq (s : CString) : uniqueCharac1 s = .ok (decide s.chars.tail.Nodup) :=
  uniqueCharac1Loop_eq s.chars [] (s.length + 1) rfl (Nat.lt_succ_self _)

/-! ### The bits -/

theorem bitSet_zero (character : ℤ) : bitSet out 0 character = .ok false := rfl

theorem bitSet_letter {bitField : BitVec 32} (hbit : bitField ≠ 0) (hc : IsLower c) :
    bitSet out bitField (letterNumber c) = .ok true := by
  rw [bitSet, if_pos hbit, letter_bit hc, ok_bind, bne_iff_ne.mpr (letter_bit_ne_zero hc), pure_eq_ok]

theorem uniqueCharac2Loop_cons {front back : List UInt8} (h : front ++ c :: back = s.chars) (fuel : ℕ)
    (bitField : BitVec 32) :
    uniqueCharac2Loop out s (fuel + 1) front.length bitField = (do
      if ← bitSet out bitField (letterNumber (back.headD 0)) then
        pure false
      else
        uniqueCharac2Loop out s fuel (front ++ [c]).length
          (bitField ||| (← oneShl out (letterNumber (back.headD 0))))) := by
  rw [CString.length_concat]
  simp only [uniqueCharac2Loop, CString.read_cons h, CString.read_succ h, ok_bind, if_pos (CString.ne_zero h)]

theorem uniqueCharac2Loop_nil {front : List UInt8} (h : front = s.chars) (fuel : ℕ) (bitField : BitVec 32) :
    uniqueCharac2Loop out s (fuel + 1) front.length bitField = .ok true := by
  have hread := CString.read_headD (show front ++ [] = s.chars by rw [List.append_nil, h])
  simp [uniqueCharac2Loop, hread]

/-- After the first round there is one letter in the set, the second one, or what stands for the
terminator. -/
theorem uniqueCharac2_first {back : List UInt8} (h : c :: back = s.chars) :
    uniqueCharac2 out s = (do
      let bit ← oneShl out (letterNumber (back.headD 0))
      uniqueCharac2Loop out s (back.length + 1) [c].length bit) := by
  have hlen : s.length = back.length + 1 := by rw [CString.length, ← h, List.length_cons]
  rw [uniqueCharac2, hlen, ← Int.natCast_zero, ← List.length_nil (α := UInt8), uniqueCharac2Loop_cons h,
    bitSet_zero]
  simp

theorem uniqueCharac2_nil (h : [] = s.chars) : uniqueCharac2 out s = .ok true :=
  uniqueCharac2Loop_nil h _ _

theorem uniqueCharac2_one (h : [c] = s.chars) :
    uniqueCharac2 out s = (do let _ ← out (-96); pure true) := by
  rw [uniqueCharac2_first h, List.headD_nil, letterNumber_zero, oneShl_neg (by decide)]
  cases out (-96) with
  | error e => rfl
  | ok bit => simp only [ok_bind, uniqueCharac2Loop_nil h, pure_eq_ok]

theorem uniqueCharac2_two {d : UInt8} (h : [c, d] = s.chars) (hd : IsLower d) :
    uniqueCharac2 out s = (do let bit ← out (-96); pure (bit == 0)) := by
  have htest : bitSet out (1#32 <<< (d.toNat - 96)) (-96) = (do let bit ← out (-96); pure (bit != 0)) := by
    rw [bitSet, if_pos (letter_bit_ne_zero hd), oneShl_neg (by decide)]
  rw [uniqueCharac2_first h, List.headD_cons, letter_bit hd, ok_bind,
    uniqueCharac2Loop_cons (show [c] ++ _ = s.chars from h), List.headD_nil, letterNumber_zero, htest,
    oneShl_neg (by decide)]
  cases out (-96) with
  | error e => rfl
  | ok bit =>
    by_cases hbit : bit = 0
    · simp only [ok_bind, pure_eq_ok, hbit, bne_self_eq_false, Bool.false_eq_true, if_false, beq_self_eq_true]
      exact uniqueCharac2Loop_nil h _ _
    · simp only [ok_bind, pure_eq_ok, bne_iff_ne.mpr hbit, beq_false_of_ne hbit, if_true]

theorem uniqueCharac2_more {d e : UInt8} {back : List UInt8} (h : c :: d :: e :: back = s.chars)
    (hd : IsLower d) (he : IsLower e) : uniqueCharac2 out s = .ok false := by
  rw [uniqueCharac2_first h, List.headD_cons, letter_bit hd, ok_bind,
    uniqueCharac2Loop_cons (show [c] ++ _ = s.chars from h), List.headD_cons,
    bitSet_letter (letter_bit_ne_zero hd) he]
  rfl

/-- The two functions return the same answer, whether no letter is repeated, exactly when the string is
empty, when a letter is repeated behind the first one, or when the string is so short that
`uniqueCharac2` takes the terminator for a letter and its bit for an empty set. -/
theorem uniqueCharac_iff (hlower : ∀ c ∈ s.chars, IsLower c) :
    (∃ answer, uniqueCharac1 s = .ok answer ∧ uniqueCharac2 out s = .ok answer ∧
      (answer = true ↔ s.chars.Nodup)) ↔
      s.chars = [] ∨ ¬s.chars.tail.Nodup ∨ (s.length = 1 ∧ ∃ bit, out (-96) = .ok bit) ∨
        (s.length = 2 ∧ s.chars.Nodup ∧ out (-96) = .ok 0) := by
  rw [uniqueCharac1_eq, CString.length]
  rcases h : s.chars with _ | ⟨c, _ | ⟨d, _ | ⟨e, back⟩⟩⟩
  · rw [uniqueCharac2_nil h.symm]
    simp
  · rw [uniqueCharac2_one h.symm]
    cases hout : out (-96) <;> simp
  · have hd : IsLower d := hlower d (by rw [h]; simp)
    rw [uniqueCharac2_two h.symm hd]
    cases hout : out (-96) with
    | error e => simp
    | ok bit => simp [and_comm]
  · have hd : IsLower d := hlower d (by rw [h]; simp)
    have he : IsLower e := hlower e (by rw [h]; simp)
    rw [uniqueCharac2_more h.symm hd he]
    constructor
    · rintro ⟨answer, hone, htwo, -⟩
      rw [← Except.ok.inj htwo] at hone
      exact .inr (.inl (of_decide_eq_false (Except.ok.inj hone)))
    · rintro (hnil | hrepeated | ⟨hlen, -⟩ | ⟨hlen, -⟩)
      · exact absurd hnil (List.cons_ne_nil _ _)
      · refine ⟨false, congrArg Except.ok (decide_eq_false hrepeated), rfl, ?_⟩
        exact iff_of_false Bool.false_ne_true fun hnodup => hrepeated hnodup.tail
      · simp at hlen
      · simp at hlen

end

/-- `"abc"` -/
def abc : CString := ⟨[97, 98, 99], by decide +kernel⟩

theorem uniqueCharac_iff_abc :
    (∃ answer, uniqueCharac1 abc = .ok answer ∧ uniqueCharac2 shlModulo abc = .ok answer ∧
      (answer = true ↔ abc.chars.Nodup)) ↔
      abc.chars = [] ∨ ¬abc.chars.tail.Nodup ∨ (abc.length = 1 ∧ ∃ bit, shlModulo (-96) = .ok bit) ∨
        (abc.length = 2 ∧ abc.chars.Nodup ∧ shlModulo (-96) = .ok 0) :=
  uniqueCharac_iff (by decide +kernel)

/-- No letter of `"abc"` is repeated, and `uniqueCharac2` says that one is. -/
theorem uniqueCharac_differ : (∀ c ∈ abc.chars, IsLower c) ∧
    ¬∃ answer, uniqueCharac1 abc = .ok answer ∧ uniqueCharac2 shlModulo abc = .ok answer ∧
      (answer = true ↔ abc.chars.Nodup) := by
  refine ⟨by decide +kernel, ?_⟩
  intro h
  obtain ⟨answer, hone, htwo, -⟩ := h
  have hone' : uniqueCharac1 abc = .ok true := rfl
  have htwo' : uniqueCharac2 shlModulo abc = .ok false := rfl
  rw [hone'] at hone
  rw [htwo', ← Except.ok.inj hone] at htwo
  exact Bool.false_ne_true (Except.ok.inj htwo)

end CodingForFun.Stringproblems
