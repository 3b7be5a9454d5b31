import CodingForFun.Stringproblems.Reversewords

/-!
# `rev`

`revword` and `rev` of `src/cproblems/reverseorderwords.c`. Behind each word `rev` goes one character on
without a look at it. Where the word is followed by a space the rounds are those of `reversewords`; where
it ends the string, that character was the terminator, and the next look is behind it. So `rev` does what
`reversewords` does when the string ends with a space (`rev_eq_reversewords_iff`), and leaves the string
otherwise.
-/

namespace CodingForFun.Reverseorderwords

open Lib Stringproblems

variable {lo hi : ℤ}

/-- `*l && *r && l < r` -/
def revwordGoesOn (s : Window lo hi UInt8 × ℤ × ℤ) : Except Fault Bool := do
  let (str, l, r) := s
  if (← str.read l) = 0 then pure false
  else if (← str.read r) = 0 then pure false
  else pure (decide (l < r))

/-- The body of the loop is the one of `reversestring`. -/
def revword (str : Window lo hi UInt8) (l r : ℤ) : Except Fault (Window lo hi UInt8) := do
  let (str, _) ← whileM .unbounded revwordGoesOn reverseStep ((r - l + 1).toNat + 1) (str, l, r)
  pure str

/-- `*r == ' '` -/
def atSpace (str : Window lo hi UInt8) (r : ℤ) : Except Fault Bool := do
  pure (isSpace (← str.read r))

/-- `*r`, with the variables `l` and `r` -/
def revGoesOn (s : Window lo hi UInt8 × ℤ × ℤ) : Except Fault Bool := do
  pure ((← s.1.read s.2.2) != 0)

/-- The body of the outer loop of `rev`. -/
def revStep (s : Window lo hi UInt8 × ℤ × ℤ) : Except Fault (Window lo hi UInt8 × ℤ × ℤ) := do
  let (str, l, r) := s
  let r ← skip (inWord str) ((hi - lo).toNat + 1) r
  let str ← revword str l (r - 1)
  let r := r + 1
  let r ← skip (atSpace str) ((hi - lo).toNat + 1) r
  pure (str, r, r)

def rev (str : Window lo hi UInt8) : Except Fault (Window lo hi UInt8) := do
  let r ← skip (atSpace str) ((hi - lo).toNat + 1) 0
  let (str, _, r) ← whileM .unbounded revGoesOn revStep ((hi - lo).toNat + 1) (str, r, r)
  revword str 0 (r - 1)

theorem atSpace_eq (str : Window lo hi UInt8) : atSpace str = inGap str := by
  funext r
  simp only [atSpace, inGap, gapChar_eq]

theorem revword_ok {str : Window lo hi UInt8} {l r : ℤ} (hlo : lo ≤ l) (hle : l ≤ r) (hhi : r < hi)
    (hchars : ∀ i, l ≤ i → i ≤ r → str i ≠ 0) :
    ∃ t, revword str l r = .ok t ∧
      ∀ i, t i = if l ≤ i ∧ i ≤ r then str (l + r - i) else str i := by
  have hgo : ∀ s, Exchanged str l r s → revwordGoesOn s = .ok (decide (s.2.2 > s.2.1)) := by
    rintro ⟨t, a, b⟩ ⟨hsum, hlow, hnear, hcell⟩
    simp only at hsum hlow hnear hcell
    have hne : ∀ i, l ≤ i → i ≤ r → t i ≠ 0 := by
      intro i hil hir
      rw [hcell i]
      split
      · exact hchars _ (by omega) (by omega)
      · exact hchars i hil hir
    simp only [revwordGoesOn, Window.read_ok (show lo ≤ a by omega) (show a < hi by omega),
      Window.read_ok (show lo ≤ b by omega) (show b < hi by omega), ok_bind,
      if_neg (hne a (by omega) (by omega)), if_neg (hne b (by omega) (by omega)), pure_eq_ok, gt_iff_lt]
  obtain ⟨⟨t, ptrs⟩, hrun, ht⟩ := exchange_ok hgo hlo (by omega) hhi
  exact ⟨t, by rw [revword, hrun]; rfl, ht⟩

section words

variable {n p k j : ℕ} {str t : Window 0 (n + 1) UInt8} {s : List UInt8}

theorem revGoesOn_eq (t : Window 0 (n + 1) UInt8) (p : ℕ) (hp : p ≤ n) :
    revGoesOn (t, (p : ℤ), (p : ℤ)) = .ok (t p != 0) := by
  simp only [revGoesOn]
  rw [Window.read_ok (by omega) (by omega), ok_bind, pure_eq_ok]

theorem revword_word (h : Turning str t p) (hchars : ∀ i : ℕ, i < n → str i ≠ 0)
    (hw : WordAt str p k j) :
    ∃ t', revword t p (((p + k : ℕ) : ℤ) - 1) = .ok t' ∧ Turning str t' (p + k + j) ∧
      ∀ i : ℤ, p + k ≤ i → t' i = str i := by
  have hpos := hw.pos
  have hle := hw.le
  obtain ⟨t', ht', hturn⟩ := @revword_ok 0 (n + 1) t p (((p + k : ℕ) : ℤ) - 1) (by omega) (by omega)
    (by omega) fun i hpi hik => by
      obtain ⟨i, rfl⟩ := Int.eq_ofNat_of_zero_le (show 0 ≤ i by omega)
      rw [h.ahead _ hpi]
      exact hchars i (by omega)
  refine ⟨t', ht', h.word hw hturn, fun i hi => ?_⟩
  rw [hturn i, if_neg (by omega), h.ahead i (by omega)]

theorem revStep_ok (h : Turning str t p) (hchars : ∀ i : ℕ, i < n → str i ≠ 0) (hnull : str n = 0)
    (hw : WordAt str p k j) (hj : 0 < j) :
    ∃ t', revStep (t, (p : ℤ), (p : ℤ)) = .ok (t', ((p + k + j : ℕ) : ℤ), ((p + k + j : ℕ) : ℤ)) ∧
      Turning str t' (p + k + j) := by
  have hle := hw.le
  obtain ⟨t', ht', hturning, hahead⟩ := revword_word h hchars hw
  obtain ⟨j, rfl⟩ := Nat.exists_eq_succ_of_ne_zero hj.ne'
  have hgap : skip (inGap t') ((((n : ℤ) + 1) - 0).toNat + 1) ((p + k + 1 : ℕ) : ℤ) =
      .ok ((p + k + 1 + j : ℕ) : ℤ) := by
    have hend : p + k + 1 + j = p + k + (j + 1) := by omega
    refine skip_eq (fun i hi => ?_) ?_ (by omega)
    · rw [inGap_eq (by omega), hahead _ (by omega), gapChar_eq]
      have hspace := hw.gap (1 + i) (by omega)
      rw [← Nat.add_assoc] at hspace
      rw [hspace]
    · rw [hend]
      exact inGap_stop hle hnull hw.stop (hahead _ (by omega))
  have hend : p + k + 1 + j = p + k + (j + 1) := by omega
  rw [hend, Int.natCast_succ] at hgap
  refine ⟨t', ?_, hturning⟩
  simp only [revStep, hw.skip_word hchars hnull h.ahead, ok_bind, ht', atSpace_eq, hgap, pure_eq_ok]

theorem revStep_error (h : Turning str t p) (hchars : ∀ i : ℕ, i < n → str i ≠ 0) (hnull : str n = 0)
    (hw : WordAt str p k j) (hend : p + k = n) :
    revStep (t, (p : ℤ), (p : ℤ)) = .error .outOfBounds := by
  obtain ⟨t', ht', -, -⟩ := revword_word h hchars hw
  have hread : inGap t' (((p + k : ℕ) : ℤ) + 1) = .error .outOfBounds := by
    rw [inGap, Window.read_error (by omega), error_bind]
  have hskip : skip (inGap t') ((((n : ℤ) + 1) - 0).toNat + 1) (((p + k : ℕ) : ℤ) + 1) =
      .error .outOfBounds := whileM_cond_error _ hread
  simp only [revStep, hw.skip_word hchars hnull h.ahead, ok_bind, ht', atSpace_eq, hskip, error_bind]

theorem rev_eq (h : IsString str s) {k : ℕ} (hg : GapAtStart str k) :
    rev str = (do
      let (str, _, r) ← whileM .unbounded revGoesOn revStep ((((n : ℤ) + 1) - 0).toNat + 1)
        (str, (k : ℤ), (k : ℤ))
      revword str 0 (r - 1)) := by
  rw [rev, atSpace_eq, hg.skip_gap h.terminator, ok_bind]

theorem pos_of_last (h : IsString str s) (hlast : s.getLast? = some space) (hw : WordAt str p k j) :
    0 < j := by
  have hpos := hw.pos
  have hle := hw.le
  rw [h.getLast?_eq_space_iff (by omega)] at hlast
  rcases Nat.eq_zero_or_pos j with rfl | hj
  · have hend : ¬p + k < n := fun hlt => absurd (hw.apart hlt) (lt_irrefl 0)
    have hchar := hw.word (k - 1) (by omega)
    rw [show p + (k - 1) = n - 1 by omega, hlast] at hchar
    exact absurd hchar Bool.true_eq_false.mp
  · exact hj

theorem lt_of_last (h : IsString str s) (hlast : s.getLast? ≠ some space) (hw : WordAt str p k j)
    (hj : 0 < j) : p + k + j < n := by
  have hle := hw.le
  by_contra hend
  apply hlast
  rw [h.getLast?_eq_space_iff (by omega), show n - 1 = p + k + (j - 1) by omega]
  exact hw.gap (j - 1) (by omega)

theorem char_ne_of_turning (h : IsString str s) (ht : Turning str t n) {i : ℤ} (hi : 0 ≤ i) (hin : i < n) :
    t i ≠ 0 := by
  apply h.nonzero
  rw [← mem_turned isSpace, ← ht.whole h]
  exact mem_cellList.mpr ⟨i.toNat, by omega, by rw [Int.zero_add, Int.toNat_of_nonneg hi]⟩

theorem rev_runs (h : IsString str s) (hlast : s.getLast? = some space) :
    ∃ str', rev str = .ok str' ∧ IsString str' (stretches isSpace s).reverse.flatten := by
  have hchars := h.char_ne
  have hpos : 0 < n := by
    rw [← h.length_eq]
    apply List.length_pos_of_ne_nil
    rintro rfl
    simp at hlast
  obtain ⟨k, hg⟩ := exists_gapAtStart str
  obtain ⟨t, hrun, ht⟩ := (Turning.begin hg).words hchars h.terminator revGoesOn_eq
    fun t p k j ht hw => revStep_ok ht hchars h.terminator hw (pos_of_last h hlast hw)
  obtain ⟨t', ht', hturn⟩ := @revword_ok 0 (n + 1) t 0 ((n : ℤ) - 1) le_rfl (by omega) (by omega)
    fun i hi hin => char_ne_of_turning h ht hi (by omega)
  refine ⟨t', ?_, ht.isString h hturn⟩
  rw [rev_eq h hg, hrun, ok_bind]
  exact ht'

theorem rev_overrun (h : IsString str s) (hne : s ≠ []) (hlast : s.getLast? ≠ some space) :
    rev str = .error .outOfBounds := by
  have hchars := h.char_ne
  have hpos : 0 < n := by
    rw [← h.length_eq]
    exact List.length_pos_of_ne_nil hne
  obtain ⟨k, hg⟩ := exists_gapAtStart str
  have hk : k < n := by
    by_contra hend
    have hle := hg.le
    apply hlast
    rw [h.getLast?_eq_space_iff hpos]
    exact hg.gap _ (by omega)
  have hrun : whileM .unbounded revGoesOn revStep ((((n : ℤ) + 1) - 0).toNat + 1)
      (str, (k : ℤ), (k : ℤ)) = .error .outOfBounds := by
    refine whileM_rule (fun x : Window 0 (n + 1) UInt8 × ℤ × ℤ =>
        ∃ p : ℕ, x.2 = ((p : ℤ), (p : ℤ)) ∧ p < n ∧ Turning str x.1 p)
      (fun x => n - x.2.1.toNat) (fun r => r = .error Fault.outOfBounds) ?_ _ _
      ⟨k, rfl, hk, Turning.begin hg⟩ (by simp only; omega)
    rintro ⟨t, ptrs⟩ ⟨p, hptrs, hp, ht⟩
    simp only at hptrs ht
    subst hptrs
    have hgo : revGoesOn (t, (p : ℤ), (p : ℤ)) = .ok true := by
      rw [revGoesOn_eq t p hp.le, ht.ahead p le_rfl, bne_iff_ne.mpr (hchars p hp)]
    obtain ⟨k, j, hw⟩ := exists_wordAt hp (ht.start hp)
    have hkpos := hw.pos
    rcases Nat.eq_zero_or_pos j with rfl | hj
    · have hend : p + k = n := by
        have hle := hw.le
        by_contra hne
        exact absurd (hw.apart (by omega)) (lt_irrefl 0)
      exact .fault _ hgo (revStep_error ht hchars h.terminator hw hend) rfl
    · obtain ⟨t', hstep, ht'⟩ := revStep_ok ht hchars h.terminator hw hj
      refine .next _ hgo hstep ⟨_, rfl, lt_of_last h hlast hw hj, ht'⟩ ?_
      simp only [Int.toNat_natCast]
      omega
  rw [rev_eq h hg, hrun, error_bind]

/-- `rev` stays inside the string and leaves it as `reversewords` does, with the runs of spaces and of
other characters in the opposite order, exactly when the string ends with a space. -/
theorem rev_eq_reversewords_iff (h : IsString str s) (hne : s ≠ []) :
    (∃ t t', rev str = .ok t ∧ reversewords str = .ok t' ∧
      IsString t (stretches isSpace s).reverse.flatten ∧
      IsString t' (stretches isSpace s).reverse.flatten) ↔ s.getLast? = some space := by
  constructor
  · rintro ⟨t, t', ht, -⟩
    by_contra hlast
    rw [rev_overrun h hne hlast] at ht
    exact absurd ht (by simp)
  · intro hlast
    obtain ⟨t, ht, hstring⟩ := rev_runs h hlast
    obtain ⟨t', ht', hstring'⟩ := reversewords_runs h hne
    exact ⟨t, t', ht, ht', hstring, hstring'⟩

end words

theorem rev_eq_reversewords_example :
    (∃ t t', rev (ofList sentence) = .ok t ∧ reversewords (ofList sentence) = .ok t' ∧
      IsString t (stretches isSpace sentence).reverse.flatten ∧
      IsString t' (stretches isSpace sentence).reverse.flatten) ↔ sentence.getLast? = some space :=
  rev_eq_reversewords_iff (ofList_isString (by decide +kernel)) (List.cons_ne_nil _ _)

/-- The bytes of `"  helo   test jay"`. -/
def mainString : List UInt8 := [32, 32, 104, 101, 108, 111, 32, 32, 32, 116, 101, 115, 116, 32, 106, 97, 121]

/-- The string of `main` ends with a word. -/
theorem rev_overruns : IsString (ofList mainString) mainString ∧ mainString ≠ [] ∧
    ¬∃ t t', rev (ofList mainString) = .ok t ∧ reversewords (ofList mainString) = .ok t' ∧
      IsString t (stretches isSpace mainString).reverse.flatten ∧
      IsString t' (stretches isSpace mainString).reverse.flatten := by
  refine ⟨ofList_isString (by decide +kernel), List.cons_ne_nil _ _, ?_⟩
  intro h
  obtain ⟨t, t', ht, -⟩ := h
  have herror : rev (ofList mainString) = .error .outOfBounds := rfl
  rw [herror] at ht
  exact absurd ht (by simp)

end CodingForFun.Reverseorderwords
