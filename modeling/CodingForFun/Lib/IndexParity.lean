import Mathlib.Data.Finset.Card
import Mathlib.Data.Finset.Fold
import Mathlib.Data.Finset.SymmDiff
import Mathlib.Data.BitVec

/-!
# Parities over the bits of positions

The exclusive or of the positions in a set has in bit `k` the parity of the positions with bit `k`
(`getLsbD_xorAll`). Two sets of set bits give codes that differ by the code of the places where they
differ (`xorAll_symmDiff`): what is wrong between two blocks of data can be told from their codes.
-/

namespace CodingForFun.Lib

open scoped symmDiff

variable {w k i : ℕ}

theorem odd_add (a b : ℕ) :
    decide ((a + b) % 2 = 1) = (decide (a % 2 = 1) ^^ decide (b % 2 = 1)) := by
  rcases Nat.mod_two_eq_zero_or_one a with ha | ha <;>
    rcases Nat.mod_two_eq_zero_or_one b with hb | hb <;> simp [Nat.add_mod, ha, hb]

/-- The number of positions is odd. -/
def parity (E : Finset ℕ) : Bool := decide (E.card % 2 = 1)

@[simp] theorem parity_empty : parity ∅ = false := rfl

theorem parity_insert {E : Finset ℕ} (hi : i ∉ E) : parity (insert i E) = !parity E := by
  unfold parity
  rw [Finset.card_insert_of_notMem hi, odd_add]
  simp

theorem parity_symmDiff (A B : Finset ℕ) : parity (A ∆ B) = (parity A ^^ parity B) := by
  have hA := Finset.card_sdiff_add_card_inter A B
  have hB := Finset.card_sdiff_add_card_inter B A
  have hdisj : Disjoint (A \ B) (B \ A) := disjoint_sdiff_sdiff
  have hcard : (A ∆ B).card = (A \ B).card + (B \ A).card := by
    rw [symmDiff_def, Finset.sup_eq_union, Finset.card_union_of_disjoint hdisj]
  rw [Finset.inter_comm B A] at hB
  unfold parity
  rw [hcard, ← hA, ← hB, odd_add, odd_add, odd_add]
  cases decide ((A ∩ B).card % 2 = 1) <;> simp

theorem parity_filter_not (p : ℕ → Prop) [DecidablePred p] (E : Finset ℕ) :
    parity (E.filter fun i => ¬ p i) = (parity E ^^ parity (E.filter p)) := by
  have hcard := Finset.card_filter_add_card_filter_not (s := E) p
  unfold parity
  rw [← hcard, odd_add]
  cases decide ((E.filter p).card % 2 = 1) <;> simp

theorem filter_symmDiff_eq (p : ℕ → Prop) [DecidablePred p] (A B : Finset ℕ) :
    (A ∆ B).filter p = A.filter p ∆ B.filter p := by
  ext i
  simp only [Finset.mem_filter, Finset.mem_symmDiff]
  tauto

/-- The exclusive or of the positions. -/
def xorAll (w : ℕ) (E : Finset ℕ) : BitVec w := E.fold (· ^^^ ·) 0 (BitVec.ofNat w)

theorem xorAll_empty : xorAll w ∅ = 0 := Finset.fold_empty

theorem xorAll_singleton (i : ℕ) : xorAll w {i} = BitVec.ofNat w i := by
  unfold xorAll
  rw [Finset.fold_singleton]
  exact BitVec.xor_zero

theorem xorAll_insert {E : Finset ℕ} (hi : i ∉ E) :
    xorAll w (insert i E) = BitVec.ofNat w i ^^^ xorAll w E :=
  Finset.fold_insert hi

theorem getLsbD_xorAll (hk : k < w) (E : Finset ℕ) :
    (xorAll w E).getLsbD k = parity (E.filter fun i => i.testBit k = true) := by
  induction E using Finset.induction_on with
  | empty =>
    rw [xorAll_empty, Finset.filter_empty]
    exact BitVec.getLsbD_zero
  | insert i E hi ih =>
    rw [xorAll_insert hi, BitVec.getLsbD_xor, ih, BitVec.getLsbD_ofNat, decide_eq_true hk, Bool.true_and,
      Finset.filter_insert]
    cases hbit : i.testBit k with
    | true =>
      rw [if_pos rfl, parity_insert fun hmem => hi (Finset.mem_of_mem_filter i hmem), Bool.true_xor]
    | false =>
      rw [if_neg (by simp), Bool.false_xor]

theorem xorAll_symmDiff (A B : Finset ℕ) : xorAll w (A ∆ B) = xorAll w A ^^^ xorAll w B := by
  apply BitVec.eq_of_getLsbD_eq
  intro k hk
  rw [BitVec.getLsbD_xor, getLsbD_xorAll hk, getLsbD_xorAll hk, getLsbD_xorAll hk,
    filter_symmDiff_eq, parity_symmDiff]

/-- The parities of the positions without the bits: the same code for an even number of positions, the
complement for an odd number. -/
theorem parity_filter_testBit_eq_false (hk : k < w) (E : Finset ℕ) :
    parity (E.filter fun i => i.testBit k = false) =
      (if parity E then ~~~ xorAll w E else xorAll w E).getLsbD k := by
  have hnot : (E.filter fun i => i.testBit k = false) = E.filter fun i => ¬ i.testBit k = true := by
    simp
  rw [hnot, parity_filter_not, ← getLsbD_xorAll hk]
  cases parity E <;> simp [hk]

end CodingForFun.Lib
