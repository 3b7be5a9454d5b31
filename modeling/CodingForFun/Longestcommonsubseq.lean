import CodingForFun.Lib.CommonSubsequence
import CodingForFun.Lib.Sequence

/-!
# `lcs`

The function of `src/dynamic/longestcommonsubseq.py`. Its text has `||` where `or` is meant, and lacks the
last closing parenthesis; it is read with these two put right.
-/

namespace CodingForFun.Longestcommonsubseq

open Lib Lib.Sequence

variable {α : Type} [DecidableEq α]

def lcs (a b : List α) (n m : ℕ) : Except PyError ℕ := do
  if h : m = 0 ∨ n = 0 then
    pure 0
  else if (← index a (n - 1)) = (← index b (m - 1)) then
    pure ((← lcs a b (n - 1) (m - 1)) + 1)
  else
    pure (max (← lcs a b (n - 1) m) (← lcs a b n (m - 1)))
termination_by n + m

variable {a b : List α} {n m : ℕ}

theorem lcs_zero_left (a b : List α) (m : ℕ) : lcs a b 0 m = .ok 0 := by
  rw [lcs, dif_pos (.inr rfl), pure_eq_ok]

theorem lcs_zero_right (a b : List α) (n : ℕ) : lcs a b n 0 = .ok 0 := by
  rw [lcs, dif_pos (.inl rfl), pure_eq_ok]

theorem lcs_succ (hn : n < a.length) (hm : m < b.length) :
    lcs a b (n + 1) (m + 1) =
      if a[n] = b[m] then (do pure ((← lcs a b n m) + 1))
      else (do pure (max (← lcs a b n (m + 1)) (← lcs a b (n + 1) m))) := by
  have hread : ∀ k : ℕ, ((k + 1 : ℕ) : ℤ) - 1 = (k : ℤ) := fun k => by omega
  rw [lcs, dif_neg (by omega), hread, hread, index_ok hn, index_ok hm]
  rfl

theorem lcs_take (hn : n ≤ a.length) (hm : m ≤ b.length) :
    ∃ k, lcs a b n m = .ok k ∧ IsGreatest (commonLengths (a.take n) (b.take m)) k := by
  induction n generalizing m with
  | zero => exact ⟨0, lcs_zero_left a b m, isGreatest_nil_left _⟩
  | succ n ihn =>
    induction m with
    | zero => exact ⟨0, lcs_zero_right a b _, isGreatest_nil_right _⟩
    | succ m ihm =>
      have hn' := Nat.le_of_succ_le hn
      have hm' := Nat.le_of_succ_le hm
      rw [lcs_succ hn hm, List.take_succ_eq_append_getElem hn, List.take_succ_eq_append_getElem hm]
      by_cases hsame : a[n] = b[m]
      · obtain ⟨k, hk, hgreatest⟩ := ihn hn' hm'
        refine ⟨k + 1, by rw [if_pos hsame, hk]; rfl, ?_⟩
        rw [hsame]
        exact isGreatest_concat_same hgreatest
      · obtain ⟨k, hk, hleft⟩ := ihn hn' hm
        obtain ⟨l, hl, hright⟩ := ihm hm'
        rw [List.take_succ_eq_append_getElem hm] at hleft
        rw [List.take_succ_eq_append_getElem hn] at hright
        exact ⟨max k l, by rw [if_neg hsame, hk, hl]; rfl, isGreatest_concat_ne hsame hleft hright⟩

/-- `lcs` returns, and its result is the greatest length of a common subsequence. -/
theorem lcs_isGreatest (a b : List α) :
    ∃ k, lcs a b a.length b.length = .ok k ∧
      IsGreatest {k | ∃ s : List α, s.Sublist a ∧ s.Sublist b ∧ s.length = k} k := by
  obtain ⟨k, hk, hgreatest⟩ := lcs_take (le_refl a.length) (le_refl b.length)
  rw [List.take_length, List.take_length] at hgreatest
  exact ⟨k, hk, hgreatest⟩

end CodingForFun.Longestcommonsubseq
