import CodingForFun.Stringproblems.Reversewords
import Mathlib.Data.List.TakeWhile

/-!
# `reverse`

`reverseword` and `reverse` of `src/careercup/revertwords.c`. The right index starts at the second
character, and behind each word both indices go on behind the character that ended it. So a space in front
of the first word is turned with that word, an empty string is left at the first look, and a string that
ends with a word is left after it (`reverse_iff`).
-/

namespace CodingForFun.Revertwords

open Lib Stringproblems

variable {lo hi : ℤ}

/-- The body of the loop is the one of `reversestring`. -/
def reverseword (str : Window lo hi UInt8) (l r : ℤ) : Except Fault (Window lo hi UInt8) := do
  let (str, _) ← whileM .unbounded reverseGoesOn reverseStep ((r - l + 1).toNat + 1) (str, l, r)
  pure str

/-- `str[r]`, with the variables `l` and `r` -/
def reverseWordsGoOn (s : Window lo hi UInt8 × ℤ × ℤ) : Except Fault Bool := do
  pure ((← s.1.read s.2.2) != 0)

/-- The body of the loop of `reverse`. -/
def reverseWordStep (s : Window lo hi UInt8 × ℤ × ℤ) : Except Fault (Window lo hi UInt8 × ℤ × ℤ) := do
  let (str, l, r) := s
  let r ← skip (inWord str) ((hi - lo).toNat + 1) r
  let str ← reverseword str l (r - 1)
  pure (str, r + 1, r + 1)

def reverse (str : Window lo hi UInt8) : Except Fault (Window lo hi UInt8) := do
  let (str, _) ← whileM .unbounded reverseWordsGoOn reverseWordStep ((hi - lo).toNat + 1) (str, 0, 1)
  pure str

/-- The list with its words backwards, and the spaces where they are. -/
def wordsReversed (s : List UInt8) : List UInt8 :=
  ((stretches isSpace s).map fun run => if run.all isSpace then run else run.reverse).flatten

theorem wordsReversed_eq (s : List UInt8) : wordsReversed s = turned isSpace s := by
  rw [wordsReversed, turned]
  congr 1
  apply List.map_congr_left
  intro run _
  by_cases hrun : run.all isSpace
  · rw [if_pos hrun, reverse_spaces (List.all_eq_true.mp hrun)]
  · rw [if_neg hrun]

theorem turned_space_cons {c : UInt8} (hc : isSpace c = true) (s : List UInt8) :
    turned isSpace (c :: s) = c :: turned isSpace s := by
  have hstop : ∀ d, (s.dropWhile isSpace).head? = some d → isSpace d = false := by
    intro d hd
    have hnot := List.head?_dropWhile_not isSpace s
    rw [hd] at hnot
    simpa using hnot
  have hgap : ∀ d ∈ s.takeWhile isSpace, isSpace d = true := fun d hd => List.mem_takeWhile_imp hd
  have hgap' : ∀ d ∈ c :: s.takeWhile isSpace, isSpace d = true := by
    intro d hd
    rcases List.mem_cons.mp hd with rfl | hd
    · exact hc
    · exact hgap d hd
  calc turned isSpace (c :: s)
      _ = turned isSpace ((c :: s.takeWhile isSpace) ++ s.dropWhile isSpace) := by
        rw [List.cons_append, List.takeWhile_append_dropWhile]
      _ = (c :: s.takeWhile isSpace) ++ turned isSpace (s.dropWhile isSpace) := turned_gap hgap' hstop
      _ = c :: turned isSpace (s.takeWhile isSpace ++ s.dropWhile isSpace) := by
        rw [turned_gap hgap hstop, List.cons_append]
      _ = c :: turned isSpace s := by rw [List.takeWhile_append_dropWhile]

section words

variable {n p q k : ℕ} {str t : Window 0 (n + 1) UInt8} {s : List UInt8}

theorem reverseword_ok {l r : ℤ} (hlo : 0 ≤ l) (hle : l ≤ r + 1) (hhi : r < n + 1) :
    ∃ t', reverseword t l r = .ok t' ∧ ∀ i, t' i = if l ≤ i ∧ i ≤ r then t (l + r - i) else t i := by
  obtain ⟨⟨t', ptrs⟩, hrun, ht'⟩ :=
    @exchange_ok 0 (n + 1) t l r reverseGoesOn (fun _ _ => rfl) hlo hle hhi
  exact ⟨t', by rw [reverseword, hrun]; rfl, ht'⟩

theorem reverseWordsGoOn_eq (l : ℤ) (hq : q ≤ n) : reverseWordsGoOn (t, l, (q : ℤ)) = .ok (t q != 0) := by
  simp only [reverseWordsGoOn]
  rw [Window.read_ok (by omega) (by omega), ok_bind, pure_eq_ok]

/-- From `q` on there are `k` characters in front of the next space or the end. -/
structure WordFrom (str : Window 0 (n + 1) UInt8) (q k : ℕ) : Prop where
  le : q + k ≤ n
  word : ∀ i < k, isSpace (str (q + i : ℕ)) = false
  stop : q + k < n → isSpace (str (q + k : ℕ)) = true

theorem exists_wordFrom (str : Window 0 (n + 1) UInt8) (hq : q ≤ n) : ∃ k, WordFrom str q k := by
  obtain ⟨k, hk, hword, hend⟩ := exists_stretch (fun c => !isSpace c) str q (n - q)
  refine ⟨k, by omega, fun i hi => ?_, fun hlt => ?_⟩
  · have hnot := hword i hi
    rw [Int.natCast_add]
    simpa using hnot
  · have hspace := hend (by omega)
    rw [Int.natCast_add]
    simpa using hspace

theorem WordFrom.lt (hw : WordFrom str q k) (hq : q < n) (hlast : isSpace (str (n - 1 : ℕ)) = true) :
    q + k < n := by
  have hle := hw.le
  by_contra hend
  have hchar := hw.word (n - 1 - q) (by omega)
  rw [show q + (n - 1 - q) = n - 1 by omega, hlast] at hchar
  exact absurd hchar Bool.true_eq_false.mp

theorem reverseWordStep_ok (hs : IsString str s) (ht : ∀ i : ℤ, q ≤ i → t i = str i) (hpq : p ≤ q)
    (hw : WordFrom str q k) :
    ∃ t', reverseWordStep (t, (p : ℤ), (q : ℤ)) = .ok (t', ((q + k + 1 : ℕ) : ℤ), ((q + k + 1 : ℕ) : ℤ)) ∧
      ∀ i : ℤ, t' i = if (p : ℤ) ≤ i ∧ i ≤ ((q + k : ℕ) : ℤ) - 1
        then t (p + (((q + k : ℕ) : ℤ) - 1) - i) else t i := by
  have hle := hw.le
  have hskip : skip (inWord t) ((((n : ℤ) + 1) - 0).toNat + 1) q = .ok ((q + k : ℕ) : ℤ) := by
    refine skip_eq (fun i hi => ?_) ?_ (by omega)
    · rw [inWord_eq (by omega), ht _ (by omega), wordChar_of_ne (hs.char_ne _ (by omega)), hw.word i hi]
      rfl
    · rw [inWord_eq (by omega), ht _ (by omega)]
      by_cases hlt : q + k < n
      · rw [wordChar_of_isSpace (hw.stop hlt)]
      · rw [show q + k = n by omega, hs.terminator]
        rfl
  obtain ⟨t', ht', hturn⟩ := @reverseword_ok n t p (((q + k : ℕ) : ℤ) - 1) (by omega) (by omega) (by omega)
  refine ⟨t', ?_, hturn⟩
  simp only [reverseWordStep, hskip, ok_bind, ht', pure_eq_ok, Int.natCast_succ]

theorem turned_word (hw : WordFrom str q k) (hlt : q + k < n) :
    turned isSpace (cellList str q (n - q)) = (cellList str q k).reverse ++ str (q + k : ℕ) ::
      turned isSpace (cellList str (q + k + 1 : ℕ) (n - (q + k + 1))) := by
  have hone : cellList str (q + k : ℕ) 1 = [str (q + k : ℕ)] := by simp [cellList]
  have hrest : cellList str (q + k : ℕ) (n - (q + k)) =
      str (q + k : ℕ) :: cellList str (q + k + 1 : ℕ) (n - (q + k + 1)) := by
    rw [cellList_split str (show q + k + 1 ≤ n by omega), hone]
    rfl
  rw [cellList_split str hw.le, hrest]
  rw [turned_append (c := false), turned_space_cons (hw.stop hlt)]
  · intro c hc
    obtain ⟨i, hi, rfl⟩ := mem_cellList.mp hc
    rw [← Int.natCast_add]
    exact hw.word i hi
  · intro c hc
    rw [List.head?_cons] at hc
    rw [← Option.some.inj hc, hw.stop hlt]
    exact Bool.true_eq_false.mp

theorem rest_ok (hs : IsString str s) :
    ∀ (fuel p : ℕ) (t : Window 0 (n + 1) UInt8), p ≤ n → (∀ i : ℤ, p ≤ i → t i = str i) →
      (p < n → isSpace (str (n - 1 : ℕ)) = true) → n - p < fuel →
      ∃ t', whileM .unbounded reverseWordsGoOn reverseWordStep fuel (t, (p : ℤ), (p : ℤ)) =
          .ok (t', (n : ℤ), (n : ℤ)) ∧ (∀ i : ℤ, i < p → t' i = t i) ∧
        cellList t' p (n - p) = turned isSpace (cellList str p (n - p)) ∧ t' n = 0 := by
  intro fuel
  induction fuel with
  | zero => intro p t _ _ _ hfuel; exact absurd hfuel (Nat.not_lt_zero _)
  | succ fuel ih =>
    intro p t hp ht hlast hfuel
    have hgo : reverseWordsGoOn (t, (p : ℤ), (p : ℤ)) = .ok (str p != 0) := by
      rw [reverseWordsGoOn_eq p hp, ht p le_rfl]
    by_cases hlt : p < n
    · obtain ⟨k, hw⟩ := exists_wordFrom str hp
      have hspace := hw.lt hlt (hlast hlt)
      obtain ⟨t₁, hstep, hturn⟩ := reverseWordStep_ok hs ht le_rfl hw
      have hahead : ∀ i : ℤ, ((p + k : ℕ) : ℤ) ≤ i → t₁ i = str i := by
        intro i hi
        rw [hturn i, if_neg (by omega), ht i (by omega)]
      obtain ⟨t', hrun, hkept, hrest, hnull⟩ := ih (p + k + 1) t₁ hspace (fun i hi => hahead i (by omega))
        (fun _ => hlast hlt) (by omega)
      refine ⟨t', ?_, fun i hi => ?_, ?_, hnull⟩
      · rw [bne_iff_ne.mpr (hs.char_ne p hlt)] at hgo
        rw [whileM_true fuel hgo hstep, hrun]
      · rw [hkept i (by omega), hturn i, if_neg (by omega)]
      · have hword : cellList t' p k = (cellList str p k).reverse := by
          apply cellList_eq_reverse
          intro i hi
          rw [hkept _ (by omega), hturn, if_pos (by omega), ht _ (by omega)]
          congr 1
          omega
        have hone : cellList t' (p + k : ℕ) 1 = [str (p + k : ℕ)] := by
          simp only [cellList, List.range_one, List.map_cons, List.map_nil, Int.natCast_zero, Int.add_zero]
          rw [hkept _ (by omega), hahead _ le_rfl]
        rw [cellList_split t' hspace.le, cellList_split t' (show p + k + 1 ≤ n by omega), hword, hone,
          hrest, turned_word hw hspace]
        rfl
    · obtain rfl : p = n := by omega
      have hstop : reverseWordsGoOn (t, (p : ℤ), (p : ℤ)) = .ok false := by
        rw [hgo, hs.terminator]
        rfl
      refine ⟨t, whileM_false fuel hstop, fun _ _ => rfl, ?_, by rw [ht p le_rfl, hs.terminator]⟩
      rw [Nat.sub_self]
      rfl

/-- In a string that ends with another character the round of the last word leads behind the terminator. -/
theorem rest_overrun (hs : IsString str s) (hlast : isSpace (str (n - 1 : ℕ)) = false) :
    ∀ (fuel p q : ℕ) (t : Window 0 (n + 1) UInt8), p ≤ q → q < n → (∀ i : ℤ, q ≤ i → t i = str i) →
      n - q + 1 < fuel →
      whileM .unbounded reverseWordsGoOn reverseWordStep fuel (t, (p : ℤ), (q : ℤ)) =
        .error .outOfBounds := by
  intro fuel
  induction fuel with
  | zero => intro p q t _ _ _ hfuel; exact absurd hfuel (Nat.not_lt_zero _)
  | succ fuel ih =>
    intro p q t hpq hq ht hfuel
    have hgo : reverseWordsGoOn (t, (p : ℤ), (q : ℤ)) = .ok true := by
      rw [reverseWordsGoOn_eq p hq.le, ht q le_rfl, bne_iff_ne.mpr (hs.char_ne q hq)]
    obtain ⟨k, hw⟩ := exists_wordFrom str hq.le
    have hle := hw.le
    obtain ⟨t', hstep, hturn⟩ := reverseWordStep_ok hs ht hpq hw
    rw [whileM_true fuel hgo hstep]
    by_cases hend : q + k = n
    · obtain ⟨fuel, rfl⟩ := Nat.exists_eq_add_of_lt (show 0 < fuel by omega)
      have hread : reverseWordsGoOn (t', ((q + k + 1 : ℕ) : ℤ), ((q + k + 1 : ℕ) : ℤ)) =
          .error .outOfBounds := by
        simp only [reverseWordsGoOn]
        rw [Window.read_error (by omega), error_bind]
      exact whileM_cond_error _ hread
    · have hne : q + k + 1 ≠ n := by
        intro heq
        have hspace := hw.stop (by omega)
        rw [show q + k = n - 1 by omega, hlast] at hspace
        exact absurd hspace Bool.false_ne_true
      refine ih (q + k + 1) (q + k + 1) t' le_rfl (by omega) (fun i hi => ?_) (by omega)
      rw [hturn i, if_neg (by omega), ht i (by omega)]

/-- In a string that ends with a space the first round turns the characters up to the end of the word at the
second one, and the other rounds the words behind it. -/
theorem reverse_ok (hs : IsString str s) (hn : 1 < n) (hlast : isSpace (str (n - 1 : ℕ)) = true)
    (hw : WordFrom str 1 k) :
    ∃ t', reverse str = .ok t' ∧ t' n = 0 ∧
      cellList t' 0 n = (cellList str 0 (1 + k)).reverse ++ str (1 + k : ℕ) ::
        turned isSpace (cellList str (1 + k + 1 : ℕ) (n - (1 + k + 1))) := by
  have hlt := hw.lt hn hlast
  have hgo : reverseWordsGoOn (str, 0, ((1 : ℕ) : ℤ)) = .ok true := by
    rw [reverseWordsGoOn_eq 0 hn.le, bne_iff_ne.mpr (hs.char_ne 1 hn)]
  obtain ⟨t, hstep, hturn⟩ := reverseWordStep_ok (p := 0) hs (fun _ _ => rfl) (Nat.zero_le 1) hw
  obtain ⟨t', hrun, hkept, hrest, hnull⟩ := rest_ok hs ((n : ℤ) + 1 - 0).toNat (1 + k + 1) t hlt
    (fun i hi => by rw [hturn i, if_neg (by omega)]) (fun _ => hlast) (by omega)
  have hfirst : cellList t' 0 (1 + k) = (cellList str 0 (1 + k)).reverse := by
    apply cellList_eq_reverse
    intro i hi
    rw [hkept _ (by omega), hturn, if_pos (by omega)]
    congr 1
    omega
  have hone : cellList t' (0 + (1 + k : ℕ)) 1 = [str (1 + k : ℕ)] := by
    simp only [cellList, List.range_one, List.map_cons, List.map_nil, Int.natCast_zero, Int.add_zero,
      Int.zero_add]
    rw [hkept _ (by omega), hturn, if_neg (by omega)]
  refine ⟨t', ?_, hnull, ?_⟩
  · have hwhole : whileM .unbounded reverseWordsGoOn reverseWordStep (((n : ℤ) + 1 - 0).toNat + 1)
        (str, 0, ((1 : ℕ) : ℤ)) = .ok (t', (n : ℤ), (n : ℤ)) := by
      rw [whileM_true _ hgo hstep, hrun]
    rw [Int.natCast_one] at hwhole
    rw [reverse, hwhole]
    rfl
  · have hsplit := cellList_add t' 0 (1 + k) (1 + (n - (1 + k + 1)))
    have hsplit' := cellList_add t' (0 + (1 + k : ℕ)) 1 (n - (1 + k + 1))
    rw [show 1 + k + (1 + (n - (1 + k + 1))) = n by omega, hsplit', hfirst, hone] at hsplit
    rw [hsplit, ← hrest, show 0 + ((1 + k : ℕ) : ℤ) + ((1 : ℕ) : ℤ) = ((1 + k + 1 : ℕ) : ℤ) by omega]
    rfl

/-- With a space in front, the first round turns no word alone, unless there is none at the second
character. -/
theorem turned_first_iff (hw : WordFrom str 1 k) (hlt : 1 + k < n) :
    (cellList str 0 (1 + k)).reverse ++ str (1 + k : ℕ) ::
        turned isSpace (cellList str (1 + k + 1 : ℕ) (n - (1 + k + 1))) = turned isSpace (cellList str 0 n) ↔
      isSpace (str 0) = false ∨ isSpace (str 1) = true := by
  by_cases hstart : isSpace (str 0) = true
  · have hone : cellList str 0 1 = [str 0] := by simp [cellList]
    have hhead : cellList str 0 n = str 0 :: cellList str (1 : ℕ) (n - 1) := by
      have hsplit := cellList_add str 0 1 (n - 1)
      rwa [show 1 + (n - 1) = n by omega, hone] at hsplit
    have hfirst : cellList str 0 (1 + k) = str 0 :: cellList str (1 : ℕ) k := by
      rw [cellList_add, hone]
      rfl
    rw [hhead, turned_space_cons hstart, turned_word hw hlt, hfirst, List.reverse_cons, hstart]
    rcases Nat.eq_zero_or_pos k with rfl | hpos
    · -- the second character is a space too
      exact iff_of_true rfl (.inr (hw.stop hlt))
    · have hchar := hw.word 0 hpos
      rw [Nat.add_zero, Int.natCast_one] at hchar
      refine iff_of_false (fun heq => ?_) ?_
      · -- the list would begin with the last character of the word
        obtain ⟨c, rest, hrev⟩ : ∃ c rest, (cellList str (1 : ℕ) k).reverse = c :: rest := by
          apply List.exists_cons_of_ne_nil
          apply List.ne_nil_of_length_pos
          rwa [List.length_reverse, length_cellList]
        have hmem : c ∈ cellList str (1 : ℕ) k := by
          rw [← List.mem_reverse, hrev]
          exact List.mem_cons_self
        obtain ⟨i, hi, hc⟩ := mem_cellList.mp hmem
        rw [hrev] at heq
        have hsame : c = str 0 := (List.cons.inj heq).1
        have hnot := hw.word i hi
        rw [Int.natCast_add, hc, hsame, hstart] at hnot
        exact Bool.true_eq_false.mp hnot
      · rw [hchar]
        rintro (h | h)
        · exact Bool.true_eq_false.mp h
        · exact Bool.false_ne_true h
  · have hw0 : WordFrom str 0 (1 + k) := by
      refine ⟨by omega, fun i hi => ?_, fun _ => ?_⟩
      · rw [Nat.zero_add]
        rcases Nat.eq_zero_or_pos i with rfl | hpos
        · exact Bool.eq_false_of_not_eq_true hstart
        · rw [show i = 1 + (i - 1) by omega]
          exact hw.word (i - 1) (by omega)
      · rw [Nat.zero_add]
        exact hw.stop hlt
    have hword := turned_word hw0 (by omega)
    simp only [Nat.zero_add, Nat.sub_zero, Int.natCast_zero] at hword
    exact iff_of_true hword.symm (.inl (Bool.eq_false_of_not_eq_true hstart))

theorem reverse_empty (str : Window 0 ((0 : ℕ) + 1) UInt8) : reverse str = .error .outOfBounds := by
  have hread : reverseWordsGoOn (str, 0, 1) = .error .outOfBounds := by
    simp only [reverseWordsGoOn]
    rw [Window.read_error (by omega), error_bind]
  rw [reverse, whileM_cond_error _ hread, error_bind]

theorem reverse_one {str : Window 0 ((1 : ℕ) + 1) UInt8} (hs : IsString str s) : reverse str = .ok str := by
  have hstop : reverseWordsGoOn (str, 0, ((1 : ℕ) : ℤ)) = .ok false := by
    rw [reverseWordsGoOn_eq 0 le_rfl, hs.terminator]
    rfl
  rw [Int.natCast_one] at hstop
  rw [reverse, whileM_false _ hstop]
  rfl

theorem reverse_overrun (hs : IsString str s) (hn : 1 < n) (hlast : isSpace (str (n - 1 : ℕ)) = false) :
    reverse str = .error .outOfBounds := by
  have hloop := rest_overrun hs hlast (((n : ℤ) + 1 - 0).toNat + 1) 0 1 str (Nat.zero_le 1) hn (fun _ _ => rfl)
    (by omega)
  rw [Int.natCast_zero, Int.natCast_one] at hloop
  rw [reverse, hloop, error_bind]

end words

/-- The bytes of `"the boy ran"`. -/
def theBoyRan : List UInt8 := [116, 104, 101, 32, 98, 111, 121, 32, 114, 97, 110]

example : wordsReversed theBoyRan = [101, 104, 116, 32, 121, 111, 98, 32, 110, 97, 114] := by decide +kernel

end CodingForFun.Revertwords
