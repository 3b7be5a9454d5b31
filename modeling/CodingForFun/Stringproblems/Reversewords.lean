import CodingForFun.Lib.CellList
import CodingForFun.Lib.Stretches
import CodingForFun.Lib.Window

/-!
# `reversewords`

`reversestring` and `reversewords` of `src/stringproblems.c`. A `char` is its byte, as `^` and `==` take it,
and a `char *` is an index into the string, so it is never null. The loop of `reversewords` turns one word
after the other and leaves the gaps, which are the same backwards; so it turns the maximal runs of spaces
and of other characters one by one (`turned`), and with the whole string turned in the end the runs stand
in the opposite order.
-/

namespace CodingForFun.Stringproblems

open Lib

variable {lo hi : ℤ}

/-- `' '` -/
def space : UInt8 := 32

/-- `ptrb > ptra` -/
def reverseGoesOn (s : Window lo hi UInt8 × ℤ × ℤ) : Except Fault Bool := pure (decide (s.2.2 > s.2.1))

/-- The loop body of `reversestring`, with `ptra` and `ptrb`. -/
def reverseStep (s : Window lo hi UInt8 × ℤ × ℤ) : Except Fault (Window lo hi UInt8 × ℤ × ℤ) := do
  let (str, ptra, ptrb) := s
  let str ← str.write ptra ((← str.read ptra) ^^^ (← str.read ptrb))
  let str ← str.write ptrb ((← str.read ptrb) ^^^ (← str.read ptra))
  let str ← str.write ptra ((← str.read ptra) ^^^ (← str.read ptrb))
  pure (str, ptra + 1, ptrb - 1)

/-- `reversestring`; the assertion stops the program when `ptrb` is before `ptra`. -/
def reversestring (str : Window lo hi UInt8) (ptra ptrb : ℤ) : Except Fault (Window lo hi UInt8) := do
  if ptrb ≥ ptra then
    let (str, _) ← whileM .unbounded reverseGoesOn reverseStep ((ptrb - ptra + 1).toNat + 1)
      (str, ptra, ptrb)
    pure str
  else
    .error .exit

/-- `*ptr != '\0' && *ptr == ' '` -/
def gapChar (c : UInt8) : Bool := c != 0 && c == space

/-- `*ptr != '\0' && *ptr != ' '` -/
def wordChar (c : UInt8) : Bool := c != 0 && c != space

def inGap (str : Window lo hi UInt8) (ptr : ℤ) : Except Fault Bool := do
  pure (gapChar (← str.read ptr))

def inWord (str : Window lo hi UInt8) (ptr : ℤ) : Except Fault Bool := do
  pure (wordChar (← str.read ptr))

/-- `while (goesOn) ptr++;` -/
def skip (goesOn : ℤ → Except Fault Bool) (fuel : ℕ) (ptr : ℤ) : Except Fault ℤ :=
  whileM .unbounded goesOn (fun ptr => pure (ptr + 1)) fuel ptr

/-- `ptra && *ptra != '\0'` -/
def wordsGoOn (s : Window lo hi UInt8 × ℤ × ℤ) : Except Fault Bool := do
  pure ((← s.1.read s.2.1) != 0)

/-- The body of the outer loop of `reversewords`. -/
def wordStep (s : Window lo hi UInt8 × ℤ × ℤ) : Except Fault (Window lo hi UInt8 × ℤ × ℤ) := do
  let (str, ptra, ptrb) := s
  let ptrb ← skip (inWord str) ((hi - lo).toNat + 1) ptrb
  let str ← reversestring str ptra (ptrb - 1)
  let ptrb ← skip (inGap str) ((hi - lo).toNat + 1) ptrb
  pure (str, ptrb, ptrb)

def reversewords (str : Window lo hi UInt8) : Except Fault (Window lo hi UInt8) := do
  -- skip first whitespaces
  let ptra ← skip (inGap str) ((hi - lo).toNat + 1) 0
  let (str, _, ptrb) ← whileM .unbounded wordsGoOn wordStep ((hi - lo).toNat + 1) (str, ptra, ptra)
  reversestring str 0 (ptrb - 1)

/-! ### Turning a part of the string -/

section reversestring

variable {str t : Window lo hi UInt8} {a b i ptra ptrb : ℤ}

theorem xor_exchange (x y : UInt8) : y ^^^ (x ^^^ y) = x ∧ x ^^^ y ^^^ x = y := by
  constructor
  · rw [UInt8.xor_comm x y, ← UInt8.xor_assoc, UInt8.xor_self, UInt8.zero_xor]
  · rw [UInt8.xor_comm x y, UInt8.xor_assoc, UInt8.xor_self, UInt8.xor_zero]

theorem reverseStep_ok (hlo : lo ≤ a) (hab : a < b) (hhi : b < hi) :
    reverseStep (t, a, b) = .ok (Function.update (Function.update t a (t b)) b (t a), a + 1, b - 1) := by
  have hread : ∀ (t : Window lo hi UInt8) i, lo ≤ i → i < hi → t.read i = .ok (t i) := fun t i =>
    Window.read_ok
  have hwrite : ∀ (t : Window lo hi UInt8) i x, lo ≤ i → i < hi →
      t.write i x = .ok (Function.update t i x) := fun t i x hlow hhigh => Window.write_ok hlow hhigh x
  obtain ⟨hx, hy⟩ := xor_exchange (t a) (t b)
  have ha : a < hi := hab.trans hhi
  have hb : lo ≤ b := hlo.trans hab.le
  simp only [reverseStep, hread _ _ hlo ha, hread _ _ hb hhi, hwrite _ _ _ hlo ha, hwrite _ _ _ hb hhi,
    ok_bind, pure_eq_ok, Function.update_self, Function.update_of_ne hab.ne, Function.update_of_ne hab.ne',
    hx, hy]
  rw [Function.update_comm hab.ne', Function.update_idem]

/-- The cells from `ptra` to the one pointer and from the other one to `ptrb` are exchanged. -/
structure Exchanged (str : Window lo hi UInt8) (ptra ptrb : ℤ) (s : Window lo hi UInt8 × ℤ × ℤ) : Prop where
  sum : s.2.1 + s.2.2 = ptra + ptrb
  low : ptra ≤ s.2.1
  near : s.2.1 ≤ s.2.2 + 1
  cell : ∀ i, s.1 i =
    if (ptra ≤ i ∧ i < s.2.1) ∨ (s.2.2 < i ∧ i ≤ ptrb) then str (ptra + ptrb - i) else str i

theorem Exchanged.step (h : Exchanged str ptra ptrb (t, a, b)) (hab : a < b) :
    Exchanged str ptra ptrb (Function.update (Function.update t a (t b)) b (t a), a + 1, b - 1) := by
  obtain ⟨hsum, hlow, -, hcell⟩ := h
  simp only at hsum hlow hcell
  refine ⟨by simp only; omega, by simp only; omega, by simp only; omega, fun i => ?_⟩
  simp only
  by_cases hib : i = b
  · rw [hib, Function.update_self, hcell a, if_neg (by omega), if_pos (by omega)]
    congr 1
    omega
  · rw [Function.update_of_ne hib]
    by_cases hia : i = a
    · rw [hia, Function.update_self, hcell b, if_neg (by omega), if_pos (by omega)]
      congr 1
      omega
    · rw [Function.update_of_ne hia, hcell i]
      have hiff : (ptra ≤ i ∧ i < a) ∨ (b < i ∧ i ≤ ptrb) ↔
          (ptra ≤ i ∧ i < a + 1) ∨ (b - 1 < i ∧ i ≤ ptrb) := by omega
      simp only [hiff]

theorem exchange_ok {goesOn : Window lo hi UInt8 × ℤ × ℤ → Except Fault Bool}
    (hgo : ∀ s, Exchanged str ptra ptrb s → goesOn s = .ok (decide (s.2.2 > s.2.1)))
    (hlo : lo ≤ ptra) (hle : ptra ≤ ptrb + 1) (hhi : ptrb < hi) :
    ∃ s, whileM .unbounded goesOn reverseStep ((ptrb - ptra + 1).toNat + 1) (str, ptra, ptrb) = .ok s ∧
      ∀ i, s.1 i = if ptra ≤ i ∧ i ≤ ptrb then str (ptra + ptrb - i) else str i := by
  obtain ⟨⟨t, a, b⟩, hs, h, hexit⟩ : ∃ s, whileM .unbounded goesOn reverseStep
      ((ptrb - ptra + 1).toNat + 1) (str, ptra, ptrb) = .ok s ∧ Exchanged str ptra ptrb s ∧
        ¬s.2.2 > s.2.1 := by
    refine whileM_ok (Exchanged str ptra ptrb) (fun s => (s.2.2 - s.2.1 + 1).toNat) ?_ _ _ ?_ ?_
    · rintro ⟨t, a, b⟩ h
      have hsum := h.sum
      have hlow := h.low
      simp only at hsum hlow
      rw [hgo _ h]
      by_cases hgt : b > a
      · exact .inl ⟨_, by rw [decide_eq_true hgt], reverseStep_ok (by omega) hgt (by omega), h.step hgt,
          by simp only; omega⟩
      · exact .inr ⟨by rw [decide_eq_false hgt], h, hgt⟩
    · exact ⟨rfl, le_rfl, by simp only; omega, fun i => (if_neg (by simp only; omega)).symm⟩
    · exact Nat.lt_succ_self _
  obtain ⟨hsum, hlow, hnear, hcell⟩ := h
  simp only at hsum hlow hnear hcell hexit
  refine ⟨_, hs, fun i => ?_⟩
  simp only
  rw [hcell i]
  by_cases hin : ptra ≤ i ∧ i ≤ ptrb
  · rw [if_pos hin]
    by_cases hmid : (ptra ≤ i ∧ i < a) ∨ (b < i ∧ i ≤ ptrb)
    · rw [if_pos hmid]
    · -- the cell in the middle
      rw [if_neg hmid]
      congr 1
      omega
  · rw [if_neg hin, if_neg (by omega)]

theorem reversestring_ok (hlo : lo ≤ ptra) (hle : ptra ≤ ptrb) (hhi : ptrb < hi) :
    ∃ t, reversestring str ptra ptrb = .ok t ∧
      ∀ i, t i = if ptra ≤ i ∧ i ≤ ptrb then str (ptra + ptrb - i) else str i := by
  obtain ⟨⟨t, ptrs⟩, hrun, ht⟩ :=
    @exchange_ok lo hi str ptra ptrb reverseGoesOn (fun _ _ => rfl) hlo (by omega) hhi
  exact ⟨t, by rw [reversestring, if_pos hle, hrun]; rfl, ht⟩

end reversestring

/-! ### Words and gaps -/

def isSpace (c : UInt8) : Bool := c == space

theorem gapChar_eq (c : UInt8) : gapChar c = isSpace c := by
  by_cases hc : c = space
  · subst hc
    rfl
  · rw [gapChar, isSpace, beq_false_of_ne hc, Bool.and_false]

theorem wordChar_of_ne {c : UInt8} (hc : c ≠ 0) : wordChar c = !isSpace c := by
  rw [wordChar, bne_iff_ne.mpr hc, Bool.true_and, isSpace, bne]

theorem wordChar_of_isSpace {c : UInt8} (h : isSpace c = true) : wordChar c = false := by
  rw [wordChar, bne, bne, show (c == space) = true from h, Bool.not_true, Bool.and_false]

/-- The string is `s`, up to the terminator. -/
structure IsString {n : ℕ} (str : Window 0 (n + 1) UInt8) (s : List UInt8) : Prop where
  chars : cellList str 0 n = s
  nonzero : ∀ c ∈ s, c ≠ 0
  terminator : str n = 0

section words

variable {n p k j : ℕ} {str t : Window 0 (n + 1) UInt8}

theorem IsString.char_ne {s : List UInt8} (h : IsString str s) : ∀ i : ℕ, i < n → str i ≠ 0 := by
  intro i hi
  apply h.nonzero
  rw [← h.chars]
  exact mem_cellList.mpr ⟨i, hi, by rw [Int.zero_add]⟩

theorem IsString.length_eq {s : List UInt8} (h : IsString str s) : s.length = n := by
  rw [← h.chars, length_cellList]

theorem IsString.getElem?_eq {s : List UInt8} (h : IsString str s) {i : ℕ} (hi : i < n) :
    s[i]? = some (str i) := by
  rw [← h.chars, cellList, List.getElem?_map, List.getElem?_range hi, Option.map_some, Int.zero_add]

theorem IsString.getLast?_eq_space_iff {s : List UInt8} (h : IsString str s) (hn : 0 < n) :
    s.getLast? = some space ↔ isSpace (str (n - 1 : ℕ)) = true := by
  obtain ⟨m, rfl⟩ := Nat.exists_eq_succ_of_ne_zero hn.ne'
  have hsplit := cellList_add str 0 m 1
  rw [h.chars] at hsplit
  have hone : cellList str (0 + m) 1 = [str m] := by simp [cellList]
  rw [hsplit, hone, List.getLast?_concat, Option.some_inj, Nat.succ_sub_one, isSpace, beq_iff_eq]

theorem skip_eq {goesOn : ℤ → Except Fault Bool} {fuel : ℕ}
    (hall : ∀ i < k, goesOn ((p + i : ℕ) : ℤ) = .ok true) (hstop : goesOn ((p + k : ℕ) : ℤ) = .ok false)
    (hfuel : k < fuel) : skip goesOn fuel p = .ok ((p + k : ℕ) : ℤ) := by
  rw [skip]
  refine whileM_states (fun i : ℕ => ((p + i : ℕ) : ℤ)) k (fun i hi => ⟨hall i hi, ?_⟩) hstop hfuel
  simp only [pure_eq_ok, Int.natCast_add, Int.natCast_succ, Int.add_assoc]

theorem inWord_eq {i : ℕ} (hi : i ≤ n) : inWord t i = .ok (wordChar (t i)) := by
  rw [inWord, Window.read_ok (by omega) (by omega), ok_bind, pure_eq_ok]

theorem inGap_eq {i : ℕ} (hi : i ≤ n) : inGap t i = .ok (gapChar (t i)) := by
  rw [inGap, Window.read_ok (by omega) (by omega), ok_bind, pure_eq_ok]

theorem reverse_spaces {g : List UInt8} (hg : ∀ c ∈ g, isSpace c = true) : g.reverse = g := by
  have hspaces : g = List.replicate g.length space :=
    List.eq_replicate_of_mem fun c hc => eq_of_beq (hg c hc)
  rw [hspaces, List.reverse_replicate]

theorem turned_gap {g m : List UInt8} (hg : ∀ c ∈ g, isSpace c = true)
    (hm : ∀ c, m.head? = some c → isSpace c = false) :
    turned isSpace (g ++ m) = g ++ turned isSpace m := by
  rw [turned_append hg fun c hc => by rw [hm c hc]; exact Bool.false_ne_true, reverse_spaces hg]

/-- At the index `p`, where a word starts or the string ends: the runs before it are turned, the rest of
the string has not been touched. -/
structure Turning (str t : Window 0 (n + 1) UInt8) (p : ℕ) : Prop where
  le : p ≤ n
  ahead : ∀ i : ℤ, p ≤ i → t i = str i
  start : p < n → isSpace (str p) = false
  behind : cellList t 0 p ++ turned isSpace (cellList str p (n - p)) = turned isSpace (cellList str 0 n)

theorem head?_rest {c : UInt8} (hc : (cellList str p (n - p)).head? = some c) : p < n ∧ c = str p := by
  by_cases hp : p < n
  · rw [head?_cellList (by omega)] at hc
    exact ⟨hp, (Option.some.inj hc).symm⟩
  · rw [show n - p = 0 by omega, cellList_zero] at hc
    exact absurd hc (by simp)

theorem cellList_split (str : ℤ → UInt8) (hk : p + k ≤ n) :
    cellList str p (n - p) = cellList str p k ++ cellList str (p + k : ℕ) (n - (p + k)) := by
  have hsplit := cellList_add str p k (n - (p + k))
  rwa [show k + (n - (p + k)) = n - p by omega, ← Int.natCast_add] at hsplit

/-- The string begins with a gap of `k` spaces. -/
structure GapAtStart (str : Window 0 (n + 1) UInt8) (k : ℕ) : Prop where
  le : k ≤ n
  gap : ∀ i < k, isSpace (str (i : ℕ)) = true
  stop : k < n → isSpace (str k) = false

theorem exists_gapAtStart (str : Window 0 (n + 1) UInt8) : ∃ k, GapAtStart str k := by
  obtain ⟨k, hk, hall, hstop⟩ := exists_stretch isSpace str 0 n
  exact ⟨k, hk, fun i hi => by simpa using hall i hi, fun hkn => by simpa using hstop hkn⟩

/-- At `p` there is a word of `k` characters with a gap of `j` spaces behind it. -/
structure WordAt (str : Window 0 (n + 1) UInt8) (p k j : ℕ) : Prop where
  pos : 0 < k
  le : p + k + j ≤ n
  word : ∀ i < k, isSpace (str (p + i : ℕ)) = false
  gap : ∀ i < j, isSpace (str (p + k + i : ℕ)) = true
  stop : p + k + j < n → isSpace (str (p + k + j : ℕ)) = false
  apart : p + k < n → 0 < j

theorem exists_wordAt (hp : p < n) (hstart : isSpace (str p) = false) : ∃ k j, WordAt str p k j := by
  obtain ⟨k, hk, hword, hend⟩ := exists_stretch (fun c => !isSpace c) str p (n - p)
  obtain ⟨j, hj, hgap, hstop⟩ := exists_stretch isSpace str (p + k : ℕ) (n - (p + k))
  refine ⟨k, j, ?_, by omega, fun i hi => ?_, fun i hi => ?_, fun hlt => ?_, fun hlt => ?_⟩
  · -- the word is not empty
    rcases Nat.eq_zero_or_pos k with rfl | hpos
    · have hnot := hend (by omega)
      simp [hstart] at hnot
    · exact hpos
  · have hnot := hword i hi
    rw [Int.natCast_add]
    simpa using hnot
  · have hspace := hgap i hi
    rwa [← Int.natCast_add] at hspace
  · have hnot := hstop (by omega)
    rwa [← Int.natCast_add] at hnot
  · -- the word ends at a space, so the gap is not empty
    rcases Nat.eq_zero_or_pos j with rfl | hpos
    · have hnot := hstop (by omega)
      have hspace := hend (by omega)
      rw [Int.natCast_zero, Int.add_zero, Int.natCast_add] at hnot
      simp [hnot] at hspace
    · exact hpos

theorem Turning.begin (hg : GapAtStart str k) : Turning str str k := by
  refine ⟨hg.le, fun _ _ => rfl, hg.stop, ?_⟩
  have hsplit := cellList_split (p := 0) str (show 0 + k ≤ n from (Nat.zero_add k).symm ▸ hg.le)
  rw [Int.natCast_zero, Nat.sub_zero, Nat.zero_add] at hsplit
  rw [hsplit]
  refine (turned_gap (fun c hc => ?_) fun c hc => ?_).symm
  · obtain ⟨i, hi, rfl⟩ := mem_cellList.mp hc
    rw [Int.zero_add]
    exact hg.gap i hi
  · obtain ⟨hkn, rfl⟩ := head?_rest hc
    exact hg.stop hkn

theorem turned_rest (hw : WordAt str p k j) :
    turned isSpace (cellList str p (n - p)) = (cellList str p k).reverse ++
      (cellList str (p + k : ℕ) j ++ turned isSpace (cellList str (p + k + j : ℕ) (n - (p + k + j)))) := by
  have hle := hw.le
  have hword : turned isSpace (cellList str p (n - p)) =
      (cellList str p k).reverse ++ turned isSpace (cellList str (p + k : ℕ) (n - (p + k))) := by
    rw [cellList_split str (show p + k ≤ n by omega)]
    apply turned_append (c := false)
    · intro c hc
      obtain ⟨i, hi, rfl⟩ := mem_cellList.mp hc
      rw [← Int.natCast_add]
      exact hw.word i hi
    · intro c hc
      obtain ⟨hlt, rfl⟩ := head?_rest hc
      have hspace := hw.gap 0 (hw.apart hlt)
      rw [Nat.add_zero] at hspace
      rw [hspace]
      exact Bool.true_eq_false.mp
  have hgap : turned isSpace (cellList str (p + k : ℕ) (n - (p + k))) = cellList str (p + k : ℕ) j ++
      turned isSpace (cellList str (p + k + j : ℕ) (n - (p + k + j))) := by
    rw [cellList_split str hle]
    apply turned_gap
    · intro c hc
      obtain ⟨i, hi, rfl⟩ := mem_cellList.mp hc
      rw [← Int.natCast_add]
      exact hw.gap i hi
    · intro c hc
      obtain ⟨hlt, rfl⟩ := head?_rest hc
      exact hw.stop hlt
  rw [hword, hgap]

theorem Turning.word {t' : Window 0 (n + 1) UInt8} (h : Turning str t p) (hw : WordAt str p k j)
    (hturn : ∀ i : ℤ, t' i = if (p : ℤ) ≤ i ∧ i ≤ ((p + k : ℕ) : ℤ) - 1
      then t (p + (((p + k : ℕ) : ℤ) - 1) - i) else t i) :
    Turning str t' (p + k + j) := by
  have hahead : ∀ i : ℤ, (p : ℤ) + k ≤ i → t' i = str i := by
    intro i hi
    rw [hturn i, if_neg (by omega), h.ahead i (by omega)]
  refine ⟨hw.le, fun i hi => hahead i (by omega), hw.stop, ?_⟩
  have hbefore : cellList t' 0 p = cellList t 0 p := by
    apply cellList_congr
    intro i _ hi
    rw [hturn i, if_neg (by omega)]
  have hturned : cellList t' p k = (cellList str p k).reverse := by
    apply cellList_eq_reverse
    intro i hi
    rw [hturn, if_pos (by omega), h.ahead _ (by omega)]
    congr 1
    omega
  have hbehind : cellList t' (p + k : ℕ) j = cellList str (p + k : ℕ) j := by
    apply cellList_congr
    intro i hi _
    exact hahead i (by omega)
  have hdone : cellList t' 0 (p + k + j) =
      cellList t 0 p ++ (cellList str p k).reverse ++ cellList str (p + k : ℕ) j := by
    rw [cellList_add t' 0 (p + k) j, cellList_add t' 0 p k, Int.zero_add, Int.zero_add, hbefore, hturned,
      hbehind]
  rw [hdone, ← h.behind, turned_rest hw]
  simp only [List.append_assoc]

theorem WordAt.skip_word (hw : WordAt str p k j) (hchars : ∀ i : ℕ, i < n → str i ≠ 0)
    (hnull : str n = 0) (ht : ∀ i : ℤ, p ≤ i → t i = str i) :
    skip (inWord t) ((((n : ℤ) + 1) - 0).toNat + 1) p = .ok ((p + k : ℕ) : ℤ) := by
  have hle := hw.le
  refine skip_eq (fun i hi => ?_) ?_ (by omega)
  · rw [inWord_eq (by omega), ht _ (by omega), wordChar_of_ne (hchars _ (by omega)), hw.word i hi]
    rfl
  · rw [inWord_eq (by omega), ht _ (by omega)]
    by_cases hlt : p + k < n
    · have hspace := hw.gap 0 (hw.apart hlt)
      rw [Nat.add_zero] at hspace
      rw [wordChar_of_isSpace hspace]
    · rw [show p + k = n by omega, hnull]
      rfl

theorem inGap_stop (hle : p ≤ n) (hnull : str n = 0) (hstop : p < n → isSpace (str p) = false)
    (ht : t p = str p) : inGap t p = .ok false := by
  rw [inGap_eq hle, ht, gapChar_eq]
  by_cases hlt : p < n
  · rw [hstop hlt]
  · rw [show p = n by omega, hnull]
    rfl

theorem GapAtStart.skip_gap (hg : GapAtStart str k) (hnull : str n = 0) :
    skip (inGap str) ((((n : ℤ) + 1) - 0).toNat + 1) 0 = .ok (k : ℤ) := by
  have hle := hg.le
  have hskip : skip (inGap str) ((((n : ℤ) + 1) - 0).toNat + 1) (0 : ℕ) = .ok ((0 + k : ℕ) : ℤ) := by
    refine skip_eq (fun i hi => ?_) ?_ (by omega)
    · rw [Nat.zero_add, inGap_eq (by omega), gapChar_eq, hg.gap i hi]
    · rw [Nat.zero_add]
      exact inGap_stop hle hnull hg.stop rfl
  rwa [Nat.zero_add] at hskip

theorem wordStep_ok (h : Turning str t p) (hchars : ∀ i : ℕ, i < n → str i ≠ 0) (hnull : str n = 0)
    (hw : WordAt str p k j) :
    ∃ t', wordStep (t, (p : ℤ), (p : ℤ)) = .ok (t', ((p + k + j : ℕ) : ℤ), ((p + k + j : ℕ) : ℤ)) ∧
      Turning str t' (p + k + j) := by
  have hpos := hw.pos
  have hle := hw.le
  obtain ⟨t', ht', hturn⟩ := @reversestring_ok 0 (n + 1) t p ((p + k : ℕ) - 1) (by omega) (by omega)
    (by omega)
  have hahead : ∀ i : ℤ, (p : ℤ) + k ≤ i → t' i = str i := by
    intro i hi
    rw [hturn i, if_neg (by omega), h.ahead i (by omega)]
  have hgap : skip (inGap t') ((((n : ℤ) + 1) - 0).toNat + 1) (p + k : ℕ) =
      .ok ((p + k + j : ℕ) : ℤ) := by
    refine skip_eq (fun i hi => ?_) (inGap_stop hle hnull hw.stop (hahead _ (by omega))) (by omega)
    rw [inGap_eq (by omega), hahead _ (by omega), gapChar_eq, hw.gap i hi]
  refine ⟨t', ?_, h.word hw hturn⟩
  simp only [wordStep, hw.skip_word hchars hnull h.ahead, ok_bind, ht', hgap, pure_eq_ok]

theorem Turning.words (h : Turning str t p) (hchars : ∀ i : ℕ, i < n → str i ≠ 0) (hnull : str n = 0)
    {goesOn : Window 0 (n + 1) UInt8 × ℤ × ℤ → Except Fault Bool}
    {step : Window 0 (n + 1) UInt8 × ℤ × ℤ → Except Fault (Window 0 (n + 1) UInt8 × ℤ × ℤ)}
    (hgo : ∀ t : Window 0 (n + 1) UInt8, ∀ p : ℕ, p ≤ n →
      goesOn (t, (p : ℤ), (p : ℤ)) = .ok (t p != 0))
    (hstep : ∀ t p k j, Turning str t p → WordAt str p k j →
      ∃ t', step (t, (p : ℤ), (p : ℤ)) = .ok (t', ((p + k + j : ℕ) : ℤ), ((p + k + j : ℕ) : ℤ)) ∧
        Turning str t' (p + k + j)) :
    ∃ t', whileM .unbounded goesOn step ((((n : ℤ) + 1) - 0).toNat + 1) (t, (p : ℤ), (p : ℤ)) =
      .ok (t', (n : ℤ), (n : ℤ)) ∧ Turning str t' n := by
  obtain ⟨⟨t', ptrs⟩, hrun, hptrs, ht'⟩ : ∃ x : Window 0 (n + 1) UInt8 × ℤ × ℤ,
      whileM .unbounded goesOn step ((((n : ℤ) + 1) - 0).toNat + 1) (t, (p : ℤ), (p : ℤ)) = .ok x ∧
        x.2 = ((n : ℤ), (n : ℤ)) ∧ Turning str x.1 n := by
    refine whileM_ok (fun x : Window 0 (n + 1) UInt8 × ℤ × ℤ =>
        ∃ p : ℕ, x.2 = ((p : ℤ), (p : ℤ)) ∧ Turning str x.1 p) (fun x => n - x.2.1.toNat) ?_ _ _
      ⟨p, rfl, h⟩ (by simp only; omega)
    rintro ⟨t, ptrs⟩ ⟨p, hptrs, ht⟩
    simp only at hptrs ht
    subst hptrs
    have hle := ht.le
    rw [hgo t p hle, ht.ahead p le_rfl]
    by_cases hp : p < n
    · obtain ⟨k, j, hw⟩ := exists_wordAt hp (ht.start hp)
      obtain ⟨t', hround, ht'⟩ := hstep t p k j ht hw
      have hpos := hw.pos
      refine .inl ⟨_, by rw [bne_iff_ne.mpr (hchars p hp)], hround, ⟨_, rfl, ht'⟩, ?_⟩
      simp only [Int.toNat_natCast]
      omega
    · obtain rfl : p = n := by omega
      exact .inr ⟨by rw [hnull]; rfl, rfl, ht⟩
  simp only at hptrs ht'
  subst hptrs
  exact ⟨t', hrun, ht'⟩

theorem wordsGoOn_eq (t : Window 0 (n + 1) UInt8) (p : ℕ) (hp : p ≤ n) :
    wordsGoOn (t, (p : ℤ), (p : ℤ)) = .ok (t p != 0) := by
  simp only [wordsGoOn]
  rw [Window.read_ok (by omega) (by omega), ok_bind, pure_eq_ok]

theorem Turning.whole {s : List UInt8} (ht : Turning str t n) (h : IsString str s) :
    cellList t 0 n = turned isSpace s := by
  have hwhole := ht.behind
  rwa [Nat.sub_self, cellList_zero, h.chars, show turned isSpace [] = [] from rfl, List.append_nil]
    at hwhole

theorem Turning.isString {s : List UInt8} {t' : Window 0 (n + 1) UInt8} (ht : Turning str t n)
    (h : IsString str s)
    (hturn : ∀ i : ℤ, t' i = if 0 ≤ i ∧ i ≤ (n : ℤ) - 1 then t (0 + ((n : ℤ) - 1) - i) else t i) :
    IsString t' (stretches isSpace s).reverse.flatten := by
  refine ⟨?_, fun c hc => h.nonzero c ((mem_stretches_flatten isSpace s).mp hc), ?_⟩
  · rw [← reverse_turned, ← ht.whole h]
    apply cellList_eq_reverse
    intro i hi
    rw [hturn, if_pos (by omega)]
    congr 1
    omega
  · rw [hturn, if_neg (by omega), ht.ahead n le_rfl, h.terminator]

end words

/-- `reversewords` runs into no assertion, stays inside the string, and leaves the runs of spaces and of
other characters in the opposite order. -/
theorem reversewords_runs {n : ℕ} {str : Window 0 (n + 1) UInt8} {s : List UInt8} (h : IsString str s)
    (hne : s ≠ []) :
    ∃ str', reversewords str = .ok str' ∧ IsString str' (stretches isSpace s).reverse.flatten := by
  have hchars := h.char_ne
  have hpos : 0 < n := by
    rw [← h.length_eq]
    exact List.length_pos_iff.mpr hne
  have hnull := h.terminator
  obtain ⟨k, hg⟩ := exists_gapAtStart str
  have hskip := hg.skip_gap hnull
  obtain ⟨t, hrun, ht⟩ := (Turning.begin hg).words hchars hnull wordsGoOn_eq
    fun t p k j h hw => wordStep_ok h hchars hnull hw
  obtain ⟨t', ht', hturn⟩ := @reversestring_ok 0 (n + 1) t 0 ((n : ℤ) - 1) (by omega) (by omega) (by omega)
  refine ⟨t', ?_, ht.isString h hturn⟩
  rw [reversewords, hskip, ok_bind, hrun, ok_bind]
  exact ht'

/-- The bytes of `"  this  is a test "`. -/
def sentence : List UInt8 :=
  [32, 32, 116, 104, 105, 115, 32, 32, 105, 115, 32, 97, 32, 116, 101, 115, 116, 32]

/-- A string in an array of its own. -/
def ofList (s : List UInt8) : Window 0 (s.length + 1) UInt8 := fun i => s.getD i.toNat 0

theorem ofList_isString {s : List UInt8} (hs : ∀ c ∈ s, c ≠ 0) : IsString (ofList s) s := by
  refine ⟨List.ext_getElem (length_cellList _ _ _) fun i hi hi' => ?_, hs, ?_⟩
  · simp [cellList, ofList, List.getD_eq_getElem?_getD, List.getElem?_eq_getElem hi']
  · simp [ofList, List.getD_eq_getElem?_getD]

theorem reversewords_runs_example : ∃ str', reversewords (ofList sentence) = .ok str' ∧
    IsString str' (stretches isSpace sentence).reverse.flatten :=
  reversewords_runs (ofList_isString (by decide +kernel)) (List.cons_ne_nil _ _)

example : (stretches isSpace sentence).reverse.flatten =
    [32, 116, 101, 115, 116, 32, 97, 32, 105, 115, 32, 32, 116, 104, 105, 115, 32, 32] := by decide +kernel

example : reversewords (ofList []) = .error .exit := rfl

end CodingForFun.Stringproblems
