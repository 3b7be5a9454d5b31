import CodingForFun.Lib.Cells

/-!
# The diamonds of `printdiamond.c`

Each of the three functions prints the lines down to the middle one and then the lines below it. A line is some
spaces and some stars (`line`), and both numbers change by a fixed amount from line to line. Below the middle
`diamond2` starts with `(lines+1)/2+1` stars where `lines-2` are left, which is the same for the size 7 only.
Sizes are exact integers.
-/

namespace CodingForFun.Printdiamond

open Lib

/-- `for (j = n; j; j--) printf(c);` -/
def printDown (c : Char) (n : ℤ) (out : List Char) : Except Fault (List Char) := do
  let (_, out) ← whileM .unbounded (fun s : ℤ × List Char => pure (decide (s.1 ≠ 0)))
    (fun s => pure (s.1 - 1, s.2 ++ [c])) (n.toNat + 1) (n, out)
  pure out

/-- `for (i = 1; i <= n; i++) printf(c);` -/
def printUp (c : Char) (n : ℤ) (out : List Char) : Except Fault (List Char) :=
  forUp 1 (n + 1) (fun _ out => pure (out ++ [c])) out

/-- The text that has been printed, and the variables `spaces` and `stars` (or `starts`). -/
structure Drawing where
  out : List Char
  spaces : ℤ
  stars : ℤ

/-- A line with both numbers of characters, and a new line. -/
def printLine (print : Char → ℤ → List Char → Except Fault (List Char)) (spaces stars : ℤ) (out : List Char) :
    Except Fault (List Char) := do
  let out ← print ' ' spaces out
  let out ← print '*' stars out
  pure (out ++ ['\n'])

/-- The body of a loop that widens (`spaces--; stars+=2;`). -/
def widen (print : Char → ℤ → List Char → Except Fault (List Char)) (s : Drawing) : Except Fault Drawing := do
  let out ← printLine print s.spaces s.stars s.out
  pure ⟨out, s.spaces - 1, s.stars + 2⟩

/-- The body of a loop that narrows (`spaces++; stars-=2;`). -/
def narrow (print : Char → ℤ → List Char → Except Fault (List Char)) (s : Drawing) : Except Fault Drawing := do
  let out ← printLine print s.spaces s.stars s.out
  pure ⟨out, s.spaces + 1, s.stars - 2⟩

/-- `if (lines%2 == 0) lines++;` -/
def makeOdd (lines : ℤ) : ℤ := if lines.tmod 2 = 0 then lines + 1 else lines

def diamondEasier (lines : ℤ) : Except Fault (List Char) := do
  let lines := makeOdd lines
  let s ← forUp 1 ((lines + 1).tdiv 2 + 1) (fun _ => widen printDown) ⟨[], (lines - 1).tdiv 2, 1⟩
  let s ← forUp 1 ((lines - 1).tdiv 2 + 1) (fun _ => narrow printDown) ⟨s.out, 1, lines - 2⟩
  pure s.out

def diamond1 (lines : ℤ) : Except Fault (List Char) := do
  let lines := makeOdd lines
  let out ← forUp 1 ((lines + 1).tdiv 2 + 1)
    (fun l => printLine printUp ((lines - 2 * l + 1).tdiv 2) (2 * l - 1)) []
  -- the second loop goes on with `l`
  forUp (max 1 ((lines + 1).tdiv 2 + 1)) (lines + 1)
    (fun l => printLine printUp ((2 * l - lines - 1).tdiv 2) (2 * (lines - l) + 1)) out

def diamond2 (lines : ℤ) : Except Fault (List Char) := do
  let lines := makeOdd lines
  let stars := 1
  let s ← forUp 1 ((lines + 1).tdiv 2 + 1) (fun _ => widen printUp) ⟨[], (lines - stars).tdiv 2, stars⟩
  let s ← forUp (max 1 ((lines + 1).tdiv 2 + 1)) (lines + 1) (fun _ => narrow printUp)
    ⟨s.out, 1, (lines + 1).tdiv 2 + 1⟩
  pure s.out

/-- The three functions print the same text. -/
def PrintSame (lines : ℤ) : Prop :=
  ∃ text, diamondEasier lines = .ok text ∧ diamond1 lines = .ok text ∧ diamond2 lines = .ok text

/-! ### Lines -/

/-- A line as text; a negative number of characters is none. -/
def line (spaces stars : ℤ) : List Char :=
  List.replicate spaces.toNat ' ' ++ List.replicate stars.toNat '*' ++ ['\n']

/-- The first `n` of some lines. -/
def picture (spaces stars : ℕ → ℤ) (n : ℕ) : List Char := (List.range n).flatMap fun k => line (spaces k) (stars k)

theorem picture_succ (spaces stars : ℕ → ℤ) (n : ℕ) :
    picture spaces stars (n + 1) = picture spaces stars n ++ line (spaces n) (stars n) := by
  rw [picture, List.range_succ, List.flatMap_append, List.flatMap_singleton, ← picture]

theorem picture_first (spaces stars : ℕ → ℤ) (n : ℕ) :
    ∃ rest, picture spaces stars (n + 1) = line (spaces 0) (stars 0) ++ rest := by
  rw [picture, List.range_succ_eq_map, List.flatMap_cons]
  exact ⟨_, rfl⟩

variable {print : Char → ℤ → List Char → Except Fault (List Char)} {spaces stars : ℤ} {out : List Char} {n : ℕ}

/-- The loop that prints characters prints `n` of them. -/
def Prints (print : Char → ℤ → List Char → Except Fault (List Char)) (n : ℤ) : Prop :=
  ∀ c out, print c n out = .ok (out ++ List.replicate n.toNat c)

theorem prints_printUp (n : ℤ) : Prints printUp n := by
  intro c out
  have hrun := @forUp_states Fault _ (fun _ out => pure (out ++ [c])) 1
    (fun k => out ++ List.replicate k c) n.toNat (by
      intro k _
      rw [pure_eq_ok, List.replicate_succ', List.append_assoc])
  rw [List.replicate_zero, List.append_nil] at hrun
  rw [printUp]
  rcases Int.le_total 0 n with hn | hn
  · rwa [Int.toNat_of_nonneg hn, Int.add_comm] at hrun
  · rw [forUp_of_le _ (by omega), Int.toNat_of_nonpos hn, List.replicate_zero, List.append_nil]

theorem prints_printDown {n : ℤ} (hn : 0 ≤ n) : Prints printDown n := by
  intro c out
  have hrun : whileM Fault.unbounded (fun s : ℤ × List Char => pure (decide (s.1 ≠ 0)))
      (fun s => pure (s.1 - 1, s.2 ++ [c])) (n.toNat + 1) (n - (0 : ℕ), out ++ List.replicate 0 c) =
        .ok (n - n.toNat, out ++ List.replicate n.toNat c) := by
    apply whileM_states (fun k : ℕ => (n - k, out ++ List.replicate k c))
    · intro k hk
      have hne : n - k ≠ 0 := by omega
      refine ⟨?_, ?_⟩
      · rw [pure_eq_ok, decide_eq_true hne]
      · rw [pure_eq_ok, List.replicate_succ', List.append_assoc, Int.natCast_succ, Int.sub_sub]
    · rw [pure_eq_ok, decide_eq_false]
      omega
    · exact Nat.lt_succ_self _
  rw [Int.natCast_zero, Int.sub_zero, List.replicate_zero, List.append_nil] at hrun
  rw [printDown, hrun]
  rfl

theorem printLine_ok (hspaces : Prints print spaces) (hstars : Prints print stars) (out : List Char) :
    printLine print spaces stars out = .ok (out ++ line spaces stars) := by
  rw [printLine, hspaces, ok_bind, hstars, ok_bind, pure_eq_ok, line, List.append_assoc, List.append_assoc,
    List.append_assoc]

theorem printLines_ok {draw : ℤ → List Char → Except Fault (List Char)} {lo : ℤ} {p q : ℕ → ℤ}
    (hdraw : ∀ k < n, ∀ out, draw (lo + k) out = .ok (out ++ line (p k) (q k))) (out : List Char) :
    forUp lo (lo + n) draw out = .ok (out ++ picture p q n) := by
  have hrun := @forUp_states _ _ draw lo (fun k => out ++ picture p q k) n (by
    intro k hk
    rw [hdraw k hk, picture_succ, List.append_assoc])
  rwa [show picture p q 0 = [] from rfl, List.append_nil] at hrun

theorem widen_ok (hspaces : Prints print spaces) (hstars : Prints print stars) (out : List Char) :
    widen print ⟨out, spaces, stars⟩ = .ok ⟨out ++ line spaces stars, spaces - 1, stars + 2⟩ := by
  rw [widen, printLine_ok hspaces hstars, ok_bind, pure_eq_ok]

theorem narrow_ok (hspaces : Prints print spaces) (hstars : Prints print stars) (out : List Char) :
    narrow print ⟨out, spaces, stars⟩ = .ok ⟨out ++ line spaces stars, spaces + 1, stars - 2⟩ := by
  rw [narrow, printLine_ok hspaces hstars, ok_bind, pure_eq_ok]

theorem drawingLoop_ok {draw : Drawing → Except Fault Drawing} {p q : ℕ → ℤ}
    (hdraw : ∀ k < n, ∀ out, draw ⟨out, p k, q k⟩ = .ok ⟨out ++ line (p k) (q k), p (k + 1), q (k + 1)⟩) (lo : ℤ)
    (out : List Char) :
    forUp lo (lo + n) (fun _ => draw) ⟨out, p 0, q 0⟩ = .ok ⟨out ++ picture p q n, p n, q n⟩ := by
  have hrun := @forUp_states _ _ (fun _ => draw) lo (fun k => ⟨out ++ picture p q k, p k, q k⟩) n (by
    intro k hk
    rw [hdraw k hk, picture_succ, List.append_assoc])
  rwa [show picture p q 0 = [] from rfl, List.append_nil] at hrun

theorem widenLoop_ok (hprint : ∀ k < n, Prints print (spaces - k) ∧ Prints print (stars + 2 * k)) (lo : ℤ)
    (out : List Char) :
    forUp lo (lo + n) (fun _ => widen print) ⟨out, spaces, stars⟩ =
      .ok ⟨out ++ picture (fun k => spaces - k) (fun k => stars + 2 * k) n, spaces - n, stars + 2 * n⟩ := by
  have hrun := @drawingLoop_ok n (widen print) (fun k => spaces - k) (fun k => stars + 2 * k) (by
    intro k hk out
    obtain ⟨hspaces, hstars⟩ := hprint k hk
    rw [widen_ok hspaces hstars, Int.natCast_succ, Int.sub_sub, Int.mul_add, Int.mul_one, Int.add_assoc]) lo out
  simpa using hrun

theorem narrowLoop_ok (hprint : ∀ k < n, Prints print (spaces + k) ∧ Prints print (stars - 2 * k)) (lo : ℤ)
    (out : List Char) :
    forUp lo (lo + n) (fun _ => narrow print) ⟨out, spaces, stars⟩ =
      .ok ⟨out ++ picture (fun k => spaces + k) (fun k => stars - 2 * k) n, spaces + n, stars - 2 * n⟩ := by
  have hrun := @drawingLoop_ok n (narrow print) (fun k => spaces + k) (fun k => stars - 2 * k) (by
    intro k hk out
    obtain ⟨hspaces, hstars⟩ := hprint k hk
    rw [narrow_ok hspaces hstars, Int.natCast_succ, Int.sub_sub, Int.mul_add, Int.mul_one, Int.add_assoc]) lo out
  simpa using hrun

/-! ### The three functions -/

/-- The lines down to the middle one, of `2 * h + 1` lines. -/
def upper (h : ℕ) : List Char := picture (fun k => h - k) (fun k => 1 + 2 * k) (h + 1)

/-- The lines below it, with `m` stars in the first one. -/
def lower (m : ℤ) (h : ℕ) : List Char := picture (fun k => 1 + k) (fun k => m - 2 * k) h

theorem exists_half {lines : ℤ} (hl : 1 ≤ lines) :
    ∃ h : ℕ, makeOdd lines = 2 * h + 1 ∧ (lines = 2 * h ∨ lines = 2 * h + 1) := by
  refine ⟨(lines / 2).toNat, ?_⟩
  rw [makeOdd, Int.tmod_eq_emod_of_nonneg (by omega)]
  split_ifs <;> omega

variable {lines : ℤ} {h : ℕ}

theorem tdiv_two {a : ℤ} (n : ℕ) (ha : a = 2 * n) : a.tdiv 2 = n := by
  rw [ha, Int.mul_tdiv_cancel_left _ (by decide)]

theorem diamondEasier_ok (hodd : makeOdd lines = 2 * h + 1) :
    diamondEasier lines = .ok (upper h ++ lower (2 * h - 1) h) := by
  have hupper : forUp 1 (1 + (h + 1 : ℕ)) (fun _ => widen printDown) ⟨[], h, 1⟩ = _ := widenLoop_ok (by
    intro k hk
    exact ⟨prints_printDown (by omega), prints_printDown (by omega)⟩) 1 []
  have hlower : forUp 1 (1 + (h : ℤ)) (fun _ => narrow printDown) ⟨upper h, 1, 2 * h - 1⟩ = _ := narrowLoop_ok (by
    intro k hk
    exact ⟨prints_printDown (by omega), prints_printDown (by omega)⟩) 1 (upper h)
  rw [diamondEasier, hodd, tdiv_two (h + 1) (by omega), tdiv_two h (by omega), Int.add_comm _ 1, hupper]
  simp only [ok_bind, List.nil_append]
  rw [show (2 * h + 1 - 2 : ℤ) = 2 * h - 1 by omega, Int.add_comm _ 1, ← upper, hlower]
  rfl

theorem diamond2_ok (hodd : makeOdd lines = 2 * h + 1) :
    diamond2 lines = .ok (upper h ++ lower (h + 2) h) := by
  have hupper : forUp 1 (1 + (h + 1 : ℕ)) (fun _ => widen printUp) ⟨[], h, 1⟩ = _ :=
    widenLoop_ok (fun k _ => ⟨prints_printUp _, prints_printUp _⟩) 1 []
  have hlower : forUp (h + 2) (h + 2 + (h : ℤ)) (fun _ => narrow printUp) ⟨upper h, 1, h + 2⟩ = _ :=
    narrowLoop_ok (fun k _ => ⟨prints_printUp _, prints_printUp _⟩) (h + 2) (upper h)
  rw [diamond2, hodd, tdiv_two (h + 1) (by omega), tdiv_two h (by omega), Int.add_comm _ 1, hupper]
  simp only [ok_bind, List.nil_append]
  rw [← upper, show max 1 (1 + ((h + 1 : ℕ) : ℤ)) = h + 2 by omega, show (1 + ((h + 1 : ℕ) : ℤ)) = h + 2 by omega,
    show (2 * h + 1 + 1 : ℤ) = h + 2 + h by omega, hlower]
  rfl

theorem diamond1_ok (hodd : makeOdd lines = 2 * h + 1) :
    diamond1 lines = .ok (upper h ++ lower (2 * h - 1) h) := by
  have hupper : forUp 1 (1 + (h + 1 : ℕ))
      (fun l => printLine printUp ((2 * h + 1 - 2 * l + 1 : ℤ).tdiv 2) (2 * l - 1)) [] = .ok ([] ++ upper h) := by
    apply printLines_ok
    intro k hk out
    rw [printLine_ok (prints_printUp _) (prints_printUp _), tdiv_two (h - k) (by omega), Int.ofNat_sub (by omega)]
    congr 3
    omega
  have hlower : forUp (h + 2) (h + 2 + (h : ℤ)) (fun l => printLine printUp
      ((2 * l - (2 * h + 1) - 1 : ℤ).tdiv 2) (2 * (2 * h + 1 - l) + 1)) (upper h) =
        .ok (upper h ++ lower (2 * h - 1) h) := by
    apply printLines_ok
    intro k hk out
    rw [printLine_ok (prints_printUp _) (prints_printUp _), tdiv_two (1 + k) (by omega)]
    congr 3
    omega
  rw [diamond1, hodd, tdiv_two (h + 1) (by omega), Int.add_comm _ 1, hupper]
  simp only [ok_bind, List.nil_append]
  rw [show max 1 (1 + ((h + 1 : ℕ) : ℤ)) = h + 2 by omega, show (2 * h + 1 + 1 : ℤ) = h + 2 + h by omega, hlower]

theorem diamondEasier_eq_diamond1 (hl : 1 ≤ lines) : diamondEasier lines = diamond1 lines := by
  obtain ⟨h, hodd, -⟩ := exists_half hl
  rw [diamondEasier_ok hodd, diamond1_ok hodd]

/-! ### When all are the same -/

theorem stars_inj {m n : ℕ} {s t : List Char}
    (h : List.replicate m '*' ++ '\n' :: s = List.replicate n '*' ++ '\n' :: t) : m = n := by
  have htake : ∀ (n : ℕ) (t : List Char),
      (List.replicate n '*' ++ '\n' :: t).takeWhile (· == '*') = List.replicate n '*' := by
    intro n t
    rw [List.takeWhile_append_of_pos]
    · rw [List.takeWhile_cons_of_neg (by decide), List.append_nil]
    · intro c hc
      rw [List.eq_of_mem_replicate hc]
      rfl
  have hrun := congrArg (List.takeWhile (· == '*')) h
  rw [htake, htake] at hrun
  simpa using congrArg List.length hrun

theorem lower_inj {m m' : ℤ} (hh : 0 < h) (hm : 0 ≤ m) (hm' : 0 ≤ m') (heq : lower m h = lower m' h) : m = m' := by
  obtain ⟨k, rfl⟩ := Nat.exists_eq_succ_of_ne_zero hh.ne'
  obtain ⟨rest, hrest⟩ := picture_first (fun k => 1 + k) (fun k => m - 2 * k) k
  obtain ⟨rest', hrest'⟩ := picture_first (fun k => 1 + k) (fun k => m' - 2 * k) k
  rw [lower, lower, hrest, hrest'] at heq
  simp only [line, List.append_assoc] at heq
  have hstars := stars_inj (List.append_cancel_left heq)
  omega

/-- All three print the same for the sizes 1 and 7, to which 6 is made odd, and for no other ones. -/
theorem printSame_iff (hl : 1 ≤ lines) : PrintSame lines ↔ lines = 1 ∨ lines = 6 ∨ lines = 7 := by
  obtain ⟨h, hodd, hlines⟩ := exists_half hl
  have hsame : PrintSame lines ↔ lower (2 * h - 1) h = lower (h + 2) h := by
    rw [PrintSame, diamondEasier_ok hodd, diamond1_ok hodd, diamond2_ok hodd]
    constructor
    · intro hsame
      obtain ⟨text, htext, -, htext'⟩ := hsame
      exact List.append_cancel_left (Except.ok.inj (htext.trans htext'.symm))
    · intro heq
      exact ⟨_, rfl, rfl, by rw [heq]⟩
  rw [hsame]
  constructor
  · intro heq
    by_cases hh : h = 0
    · omega
    · have hm := lower_inj (Nat.pos_of_ne_zero hh) (by omega) (by omega) heq
      omega
  · intro hor
    by_cases hh : h = 0
    · subst hh
      rfl
    · rw [show (2 * h - 1 : ℤ) = h + 2 by omega]

theorem printSame_iff_seven : PrintSame 7 := (printSame_iff (by decide)).mpr (.inr (.inr rfl))

/-- Below the middle of a diamond of three lines `diamond2` prints three stars, too. -/
theorem not_printSame_three : ¬PrintSame 3 := by
  intro h
  obtain ⟨text, -, htext, htext'⟩ := h
  have hdiffer : diamond1 3 ≠ diamond2 3 := by decide
  exact hdiffer (htext.trans htext'.symm)

end CodingForFun.Printdiamond
