import CodingForFun.Lib.Bits
import CodingForFun.Lib.CString
import Mathlib.Algebra.GroupWithZero.Nat
import Mathlib.Data.List.Basic

/-!
# `solution_nsquare` and `solution_linear`

The two functions of `src/cproblems/commonchar.c` for the characters that are in both strings.
`solution_nsquare` stores a character of `a` once for every place of `b` where it is, in as many bytes as
`a` has characters; `solution_linear` stores it once, in as many bytes as `b` has. Neither has a byte for the
terminator. So what each of them leaves is known together with the condition under which it fits
(`solutionNsquare_eq`, `solutionLinear_eq`).
-/

namespace CodingForFun.Commonchar

open Lib

/-- `*s` -/
def charGoesOn (s : CString) (p : ℤ) : Except Fault Bool := do
  pure ((← s.read p) != 0)

def getlenght2 (s : CString) : Except Fault ℤ := do
  let p ← whileM .unbounded (charGoesOn s) (fun p => pure (p + 1)) (s.length + 1) 0
  -- the test that ends the loop moves the pointer too
  let p := p + 1
  pure (p - 0 - 1)

/-- The body of the inner loop of `solution_nsquare`, with `common` and `k`. -/
def compareChar (a b : CString) (i j : ℤ) (s : Cells UInt8 × ℕ) : Except Fault (Cells UInt8 × ℕ) := do
  if (← b.read j) = (← a.read i) then Cells.push s (← a.read i) else pure s

def solutionNsquare (a b : CString) : Except Fault (Cells UInt8) := do
  let na ← getlenght2 a
  let nb ← getlenght2 b
  let (common, k) ← forUp 0 na (fun i => forUp 0 nb (compareChar a b i)) (Cells.malloc na.toNat, 0)
  common.write k 0

/-- `bitarray |= 0x1<<letter`; the `int` is converted to the width of `bitarray`. -/
def setBit (out : ℤ → Except Fault (BitVec 32)) (bitarray : BitVec 64) (c : UInt8) :
    Except Fault (BitVec 64) := do
  let bit ← oneShl out (letterNumber c)
  pure (bitarray ||| bit.signExtend 64)

/-- The body of the second loop of `solution_linear`. -/
def storeIfSet (out : ℤ → Except Fault (BitVec 32)) (bitarray : BitVec 64) (s : Cells UInt8 × ℕ)
    (c : UInt8) : Except Fault (Cells UInt8 × ℕ) := do
  let bit ← oneShl out (letterNumber c)
  if bitarray &&& bit.signExtend 64 ≠ 0 then Cells.push s c else pure s

def solutionLinear (out : ℤ → Except Fault (BitVec 32)) (a b : CString) : Except Fault (Cells UInt8) := do
  -- scan b string
  let (i, bitarray) ← b.scan (setBit out) 0
  -- now scan a, so common letters are saved in same order as a
  let (_, common, k) ← a.scan (storeIfSet out bitarray) (Cells.malloc i.toNat, 0)
  common.write k 0

variable {a b s : CString} {l m : List UInt8} {n : ℕ} {out : ℤ → Except Fault (BitVec 32)}

/-! ### What is stored -/

/-- The characters of `l` and the terminator in a new block of `n` bytes. -/
def stored (l : List UInt8) (n : ℕ) : Except Fault (Cells UInt8) :=
  if l.length < n then .ok (l.map some ++ some 0 :: List.replicate (n - l.length - 1) none)
  else .error .outOfBounds

/-- The block holds the string, up to the terminator. -/
def HoldsString (blk : Cells UInt8) (l : List UInt8) : Prop :=
  (∀ c ∈ l, c ≠ 0) ∧ ∃ rest, blk = l.map some ++ some 0 :: rest

theorem push_terminator (l : List UInt8) (n : ℕ) :
    (do
      let s ← l.foldlM Cells.push (Cells.malloc n, 0)
      s.1.write s.2 0) = stored l n := by
  have hpush := Cells.push_all l [] (Cells.malloc n)
  rw [List.map_nil, List.nil_append, List.nil_append, List.length_nil, Cells.length_malloc] at hpush
  rw [hpush, stored]
  rcases Nat.lt_trichotomy l.length n with hlt | rfl | hgt
  · obtain ⟨m, hm⟩ := Nat.exists_eq_add_of_lt hlt
    have hdrop : (Cells.malloc n : Cells UInt8).drop l.length = none :: List.replicate m none := by
      rw [Cells.malloc, List.drop_replicate, show n - l.length = m + 1 by omega, List.replicate_succ]
    rw [if_pos hlt.le, if_pos hlt, ok_bind, hdrop, Cells.write_append _ _ _ _ (List.length_map _).symm,
      show n - l.length - 1 = m by omega]
  · rw [if_pos le_rfl, if_neg (lt_irrefl _), ok_bind, Cells.write_error]
    simp
  · rw [if_neg (by omega), if_neg (by omega), error_bind]

theorem HoldsString.takeWhile_eq {blk : Cells UInt8} (h : HoldsString blk l) :
    blk.takeWhile (fun cell => cell != some 0) = l.map some := by
  obtain ⟨hl, rest, rfl⟩ := h
  rw [List.takeWhile_append_of_pos, List.takeWhile_cons_of_neg (by simp), List.append_nil]
  intro cell hcell
  obtain ⟨c, hc, rfl⟩ := List.mem_map.mp hcell
  simpa using hl c hc

theorem HoldsString.unique {blk : Cells UInt8} (hl : HoldsString blk l) (hm : HoldsString blk m) : l = m := by
  apply List.map_injective_iff.mpr (Option.some_injective UInt8)
  rw [← hl.takeWhile_eq, hm.takeWhile_eq]

theorem stored_ok (hl : ∀ c ∈ l, c ≠ 0) (hlt : l.length < n) :
    ∃ blk, stored l n = .ok blk ∧ HoldsString blk l :=
  ⟨_, if_pos hlt, hl, _, rfl⟩

theorem stored_error (h : ¬l.length < n) : stored l n = .error .outOfBounds := if_neg h

theorem exists_stored_iff : (∃ blk, stored l n = .ok blk) ↔ l.length < n := by
  constructor
  · rintro ⟨blk, h⟩
    by_contra hlt
    rw [stored_error hlt] at h
    exact absurd h (by simp)
  · exact fun hlt => ⟨_, if_pos hlt⟩

/-! ### The two functions -/

theorem getlenght2_eq (s : CString) : getlenght2 s = .ok s.length := by
  have hloop : whileM .unbounded (charGoesOn s) (fun p => pure (p + 1)) (s.length + 1) 0 =
      .ok (s.length : ℤ) := by
    refine whileM_states (fun k : ℕ => (k : ℤ)) s.length (fun k hk => ⟨?_, rfl⟩) ?_ (Nat.lt_succ_self _)
    · obtain ⟨front, c, back, h, rfl⟩ := CString.exists_split hk
      rw [charGoesOn, CString.read_cons h, ok_bind, bne_iff_ne.mpr (CString.ne_zero h), pure_eq_ok]
    · rw [charGoesOn, CString.read_length]
      rfl
  rw [getlenght2, hloop, ok_bind, pure_eq_ok, Int.sub_zero, Int.add_sub_cancel]

/-- The characters of `l`, each of them as often as it is in `m`. -/
def eachMatch (l m : List UInt8) : List UInt8 := l.flatMap fun c => List.replicate (m.count c) c

theorem eachMatch_cons (c : UInt8) (l m : List UInt8) :
    eachMatch (c :: l) m = List.replicate (m.count c) c ++ eachMatch l m := List.flatMap_cons

theorem foldlM_eachMatch (l m : List UInt8) (x : Cells UInt8 × ℕ) :
    (eachMatch l m).foldlM Cells.push x =
      l.foldlM (fun x c => (List.replicate (m.count c) c).foldlM Cells.push x) x := by
  induction l generalizing x with
  | nil => rfl
  | cons c l ih =>
    rw [eachMatch_cons, List.foldlM_append, List.foldlM_cons]
    congr 1
    funext y
    exact ih y

theorem solutionNsquare_eq (a b : CString) :
    solutionNsquare a b = stored (eachMatch a.chars b.chars) a.length := by
  have hinner : ∀ (i : ℤ) (x : Cells UInt8 × ℕ) (c : UInt8), a.read i = .ok c →
      forUp 0 b.length (compareChar a b i) x = (List.replicate (b.chars.count c) c).foldlM Cells.push x := by
    intro i x c hread
    have hbody : ∀ j x d, b.read j = .ok d →
        compareChar a b i j x = if d == c then Cells.push x d else pure x := by
      intro j x d hd
      simp only [compareChar, hd, hread, ok_bind, beq_iff_eq]
      by_cases hdc : d = c
      · rw [if_pos hdc, if_pos hdc, hdc]
      · rw [if_neg hdc, if_neg hdc]
    rw [CString.forUp_eq hbody, ← List.foldlM_filter, List.filter_beq]
  rw [solutionNsquare, getlenght2_eq, getlenght2_eq, ok_bind, ok_bind, CString.forUp_eq hinner,
    ← foldlM_eachMatch, Int.toNat_natCast]
  exact push_terminator _ _

theorem setBit_all (hl : ∀ c ∈ l, IsLower c) : l.foldlM (setBit out) 0 = .ok (letterBits l) := by
  have hbit : ∀ bits, ∀ c ∈ l,
      setBit out bits c = pure (bits ||| (1#32 <<< (c.toNat - 96)).signExtend 64) := by
    intro bits c hc
    rw [setBit, letter_bit (hl c hc), ok_bind]
  rw [foldlM_congr hbit, List.foldlM_pure, letterBits, pure_eq_ok]

theorem storeIfSet_all (hl : ∀ c ∈ l, IsLower c) (hm : ∀ c ∈ m, IsLower c) (x : Cells UInt8 × ℕ) :
    l.foldlM (storeIfSet out (letterBits m)) x = (l.filter (· ∈ m)).foldlM Cells.push x := by
  have hstore : ∀ x, ∀ c ∈ l, storeIfSet out (letterBits m) x c =
      if decide (c ∈ m) then Cells.push x c else pure x := by
    intro x c hc
    rw [storeIfSet, letter_bit (hl c hc), ok_bind]
    simp only [mem_letterBits hm (hl c hc), decide_eq_true_eq]
  rw [foldlM_congr hstore, List.foldlM_filter]

theorem solutionLinear_eq (ha : ∀ c ∈ a.chars, IsLower c) (hb : ∀ c ∈ b.chars, IsLower c) :
    solutionLinear out a b = stored (a.chars.filter (· ∈ b.chars)) b.length := by
  simp only [solutionLinear, CString.scan_eq, setBit_all hb, ok_bind, pure_eq_ok, Int.toNat_natCast,
    storeIfSet_all ha hb]
  rw [← push_terminator]
  cases (a.chars.filter (· ∈ b.chars)).foldlM Cells.push (Cells.malloc b.length, 0) with
  | error e => rfl
  | ok x => rfl

theorem length_eachMatch (l m : List UInt8) : (eachMatch l m).length = (l.map fun c => m.count c).sum := by
  rw [eachMatch, List.length_flatMap]
  simp

theorem count_eachMatch (l m : List UInt8) (c : UInt8) :
    (eachMatch l m).count c = l.count c * m.count c := by
  induction l with
  | nil => rw [List.count_nil, Nat.zero_mul, eachMatch, List.flatMap_nil, List.count_nil]
  | cons d l ih =>
    rw [eachMatch_cons, List.count_append, ih, List.count_replicate, List.count_cons]
    by_cases hd : d = c
    · rw [hd, beq_self_eq_true, if_pos rfl, if_pos rfl, Nat.succ_mul, Nat.add_comm]
    · rw [beq_false_of_ne hd, if_neg Bool.false_ne_true, if_neg Bool.false_ne_true, Nat.zero_add, Nat.add_zero]

theorem mem_of_mem_eachMatch {c : UInt8} (h : c ∈ eachMatch l m) : c ∈ l := by
  obtain ⟨d, hd, hc⟩ := List.mem_flatMap.mp h
  rwa [List.eq_of_mem_replicate hc]

theorem eachMatch_eq_filter_iff (l m : List UInt8) :
    eachMatch l m = l.filter (· ∈ m) ↔ ∀ c ∈ l, m.count c ≤ 1 := by
  constructor
  · intro heq c hc
    by_cases hm : c ∈ m
    · have hcount := count_eachMatch l m c
      rw [heq, List.count_filter (by simpa using hm)] at hcount
      have hpos := List.count_pos_iff.mpr hc
      exact ((Nat.mul_eq_left hpos.ne').mp hcount.symm).le
    · rw [List.count_eq_zero.mpr hm]
      exact Nat.zero_le 1
  · intro hle
    induction l with
    | nil => rfl
    | cons c l ih =>
      rw [eachMatch_cons, ih fun d hd => hle d (List.mem_cons_of_mem c hd)]
      by_cases hm : c ∈ m
      · have hone : m.count c = 1 :=
          le_antisymm (hle c List.mem_cons_self) (List.count_pos_iff.mpr hm)
        rw [hone, List.filter_cons_of_pos (by simpa using hm)]
        rfl
      · rw [List.count_eq_zero.mpr hm, List.filter_cons_of_neg (by simpa using hm)]
        rfl

/-- `"xya"`, `"aa"` and `"ab"` -/
def xya : CString := ⟨[120, 121, 97], by decide +kernel⟩

def aa : CString := ⟨[97, 97], by decide +kernel⟩

def ab : CString := ⟨[97, 98], by decide +kernel⟩

end CodingForFun.Commonchar
