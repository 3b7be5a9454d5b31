import CodingForFun.Allpermutations
import CodingForFun.Stringproblems.Reversewords
import Mathlib.Data.List.TakeWhile

/-!
# `permutations_backtracking`

`swap` and `permutations_backtracking` of `src/recursionproblems.c`, its call of `permute` read as the call of
itself. All levels of the recursion work on one array. What a call prints is a function of the array it is
called with (`lines`), and it returns that array (`permute_ok`): a round exchanges two characters, the call in
it leaves the array as that, so the second exchange undoes the first one.
-/

namespace CodingForFun.Recursionproblems

open Lib Stringproblems Allpermutations

variable {hi : ℤ}

/-- The array and the lines that have been printed. -/
structure State (hi : ℤ) where
  a : Window 0 hi UInt8
  out : List (List UInt8)

/-- `swap((a+i), (a+j))` -/
def swap (a : Window 0 hi UInt8) (i j : ℤ) : Except Fault (Window 0 hi UInt8) := do
  let t ← a.read i
  let a ← a.write i (← a.read j)
  a.write j t

/-- The characters from `a[i]` up to the terminator. -/
def stringFrom (a : Window 0 hi UInt8) : ℕ → ℤ → Except Fault (List UInt8)
  | 0, _ => .error .unbounded
  | fuel + 1, i => do
    let c ← a.read i
    if c = 0 then
      pure []
    else
      let rest ← stringFrom a fuel (i + 1)
      pure (c :: rest)

/-- `printf("%s\n", a)` -/
def printString (s : State hi) : Except Fault (State hi) := do
  let line ← stringFrom s.a (hi.toNat + 1) 0
  pure { s with out := s.out ++ [line] }

/-- The body of the loop, `call` being the call in it. -/
def permuteStep (call : State hi → Except Fault (State hi)) (i j : ℤ) (s : State hi) :
    Except Fault (State hi) := do
  let a ← swap s.a i j
  let s ← call { s with a }
  -- backtrack and undo original swap
  let a ← swap s.a i j
  pure { s with a }

/-- The recursion, cut off after some levels. -/
def permute (n : ℤ) : ℕ → ℤ → State hi → Except Fault (State hi)
  | 0, _, _ => .error .unbounded
  | fuel + 1, i, s =>
    -- if last letter, print string
    if i = n - 1 then
      printString s
    else
      forUp i n (permuteStep (permute n fuel (i + 1)) i) s

def permutationsBacktracking (a : Window 0 hi UInt8) (i n : ℤ) : Except Fault (State hi) :=
  permute n ((n - i).toNat + 1) i ⟨a, []⟩

/-! ### Printing -/

/-- The characters in front of the first terminator. -/
def text (a : Window 0 hi UInt8) : List UInt8 := (cellList a 0 hi.toNat).takeWhile (· != 0)

/-- There is a terminator. -/
def HasEnd (a : Window 0 hi UInt8) : Prop := ∃ m, (0 ≤ m ∧ m < hi) ∧ a m = 0

variable {a : Window 0 hi UInt8} {i j n : ℤ}

theorem stringFrom_ok (k : ℕ) (hi₀ : 0 ≤ i) (hk : i + k = hi) (hend : ∃ m, (i ≤ m ∧ m < hi) ∧ a m = 0) :
    stringFrom a (k + 1) i = .ok ((cellList a i k).takeWhile (· != 0)) := by
  induction k generalizing i with
  | zero =>
    obtain ⟨m, hm, -⟩ := hend
    omega
  | succ k ih =>
    have hcells : cellList a i (k + 1) = a i :: cellList a (i + 1) k := by
      rw [Nat.add_comm, cellList_add]
      simp [cellList]
    rw [stringFrom, Window.read_ok hi₀ (by omega), ok_bind, hcells]
    by_cases hc : a i = 0
    · rw [if_pos hc, List.takeWhile_cons_of_neg (by simp [hc])]
      rfl
    · rw [if_neg hc, List.takeWhile_cons_of_pos (by simp [hc])]
      obtain ⟨m, hm, hzero⟩ := hend
      have hne : m ≠ i := fun h => hc (h ▸ hzero)
      rw [ih (by omega) (by omega) ⟨m, by omega, hzero⟩]
      rfl

theorem printString_ok (hend : HasEnd a) (out : List (List UInt8)) :
    printString ⟨a, out⟩ = .ok ⟨a, out ++ [text a]⟩ := by
  have hpos : 0 ≤ hi := by
    obtain ⟨m, hm, -⟩ := hend
    omega
  rw [printString, stringFrom_ok hi.toNat le_rfl (by omega) hend]
  rfl

/-! ### What a call does -/

/-- The array with two characters exchanged. -/
def exchanged (a : Window 0 hi UInt8) (i j : ℤ) : Window 0 hi UInt8 := a ∘ Equiv.swap i j

theorem exchanged_exchanged (a : Window 0 hi UInt8) (i j : ℤ) : exchanged (exchanged a i j) i j = a := by
  funext k
  simp only [exchanged, Function.comp_apply, Equiv.swap_apply_self]

theorem exchanged_of_lt {k : ℤ} (a : Window 0 hi UInt8) (hki : k < i) (hkj : k < j) :
    exchanged a i j k = a k := by
  rw [exchanged, Function.comp_apply, Equiv.swap_apply_of_ne_of_ne hki.ne hkj.ne]

theorem swap_ok (a : Window 0 hi UInt8) (hi₁ : 0 ≤ i) (hi₂ : i < hi) (hj₁ : 0 ≤ j) (hj₂ : j < hi) :
    swap a i j = .ok (exchanged a i j) := Window.swap_ok a hi₁ hi₂ hj₁ hj₂

theorem HasEnd.exchanged (hend : HasEnd a) (hi₁ : 0 ≤ i) (hi₂ : i < hi) (hj₁ : 0 ≤ j) (hj₂ : j < hi) :
    HasEnd (exchanged a i j) := by
  obtain ⟨m, hm, hzero⟩ := hend
  refine ⟨Equiv.swap i j m, ?_, ?_⟩
  · rw [Equiv.swap_apply_def]
    split_ifs <;> omega
  · rw [Recursionproblems.exchanged, Function.comp_apply, Equiv.swap_apply_self, hzero]

/-- The lines that a call prints for which `k` characters are behind the one at `i`. -/
def lines : ℕ → ℤ → Window 0 hi UInt8 → List (List UInt8)
  | 0, _, a => [text a]
  | k + 1, i, a => (List.range (k + 2)).flatMap fun x : ℕ => lines k (i + 1) (exchanged a i (i + x))

/-- The ones of its first `m` rounds. -/
def linesUpTo (k : ℕ) (i : ℤ) (a : Window 0 hi UInt8) (m : ℕ) : List (List UInt8) :=
  (List.range m).flatMap fun x : ℕ => lines k (i + 1) (exchanged a i (i + x))

theorem linesUpTo_succ (k : ℕ) (i : ℤ) (a : Window 0 hi UInt8) (m : ℕ) :
    linesUpTo k i a (m + 1) = linesUpTo k i a m ++ lines k (i + 1) (exchanged a i (i + m)) := by
  rw [linesUpTo, List.range_succ, List.flatMap_append, List.flatMap_singleton]
  rfl

theorem permuteStep_ok {call : State hi → Except Fault (State hi)} {out more : List (List UInt8)}
    (hi₁ : 0 ≤ i) (hi₂ : i < hi) (hj₁ : 0 ≤ j) (hj₂ : j < hi)
    (hcall : call ⟨exchanged a i j, out⟩ = .ok ⟨exchanged a i j, out ++ more⟩) :
    permuteStep call i j ⟨a, out⟩ = .ok ⟨a, out ++ more⟩ := by
  rw [permuteStep, swap_ok a hi₁ hi₂ hj₁ hj₂, ok_bind, hcall, ok_bind, swap_ok _ hi₁ hi₂ hj₁ hj₂,
    exchanged_exchanged]
  rfl

theorem permute_ok (k : ℕ) {fuel : ℕ} (out : List (List UInt8)) (hi₀ : 0 ≤ i) (hk : i + k + 1 = n)
    (hn : n ≤ hi) (hend : HasEnd a) (hfuel : k < fuel) :
    permute n fuel i ⟨a, out⟩ = .ok ⟨a, out ++ lines k i a⟩ := by
  induction k generalizing i fuel a out with
  | zero =>
    obtain ⟨fuel, rfl⟩ := Nat.exists_eq_add_of_lt hfuel
    rw [permute, if_pos (by omega), printString_ok hend]
    rfl
  | succ k ih =>
    obtain ⟨fuel, rfl⟩ := Nat.exists_eq_add_of_lt hfuel
    rw [permute, if_neg (by omega)]
    -- after the rounds up to `j` their lines are printed and the array is as it was
    obtain ⟨s, hs, hinv⟩ := forUp_ok (s := State.mk a out) (permuteStep (permute n (k + 1 + fuel) (i + 1)) i)
      (fun j s => s = ⟨a, out ++ linesUpTo k i a (j - i).toNat⟩) (show i ≤ n by omega)
      (by simp [linesUpTo]) (by
        intro j s hij hjn hinv
        obtain ⟨x, rfl⟩ := Int.exists_add_of_le hij
        rw [hinv, show (i + x + 1 - i).toNat = x + 1 by omega, show (i + x - i).toNat = x by omega,
          linesUpTo_succ, ← List.append_assoc]
        have hx : i + x < hi := by omega
        refine ⟨_, permuteStep_ok hi₀ (by omega) (by omega) hx ?_, rfl⟩
        exact ih _ (by omega) (by omega) (hend.exchanged hi₀ (by omega) (by omega) hx) (by omega))
    rw [hs, hinv, show (n - i).toNat = k + 2 by omega]
    rfl

theorem permutationsBacktracking_ok (hi₀ : 0 ≤ i) (hin : i < n) (hn : n ≤ hi) (hend : HasEnd a) :
    permutationsBacktracking a i n = .ok ⟨a, lines (n - 1 - i).toNat i a⟩ :=
  permute_ok _ [] hi₀ (by omega) hn hend (by omega)

/-! ### What is in front of `i` -/

theorem take_text (a : Window 0 hi UInt8) {m : ℕ} (hm : m ≤ hi) :
    (text a).take m = (cellList a 0 m).takeWhile (· != 0) := by
  obtain ⟨r, hr⟩ := Nat.exists_eq_add_of_le (show m ≤ hi.toNat by omega)
  rw [text, List.take_takeWhile, hr, cellList_add, List.take_left' (length_cellList a 0 m)]

theorem take_lines {t : List UInt8} (k : ℕ) {m : ℕ} (ht : t ∈ lines k i a) (hm : m ≤ i) (hmi : m ≤ hi) :
    t.take m = (cellList a 0 m).takeWhile (· != 0) := by
  induction k generalizing i a with
  | zero => rw [List.mem_singleton.mp ht, take_text a hmi]
  | succ k ih =>
    obtain ⟨x, -, hx⟩ := List.mem_flatMap.mp ht
    rw [ih hx (by omega)]
    congr 1
    exact cellList_congr fun j _ hj => exchanged_of_lt a (by omega) (by omega)

/-! ### All lines -/

theorem cellList_exchanged (a : Window 0 hi UInt8) (p x : ℕ) :
    cellList (exchanged a p (p + x)) 0 (p + 1) = cellList a 0 p ++ [a (p + x)] := by
  rw [cellList_add, cellList_congr fun j _ hj => exchanged_of_lt a (by omega) (by omega)]
  congr 1
  simp [cellList, exchanged]

theorem exchanged_eq_others (a : Window 0 hi UInt8) (p k : ℕ) (x : Fin (k + 2)) (y : Fin (k + 1)) :
    exchanged a p (p + x.val) ((p + 1 : ℕ) + y.val) = others (fun z : Fin (k + 2) => a (p + z.val)) x y := by
  have hplace : Equiv.swap (p : ℤ) (p + x.val) ((p + 1 : ℕ) + y.val) = p + (Equiv.swap 0 x y.succ).val := by
    simp only [Equiv.swap_apply_def, Fin.ext_iff, apply_ite Fin.val, Fin.val_succ, Fin.coe_ofNat_eq_mod,
      Nat.zero_mod, Nat.succ_ne_zero, if_false]
    split_ifs <;> omega
  rw [exchanged, Function.comp_apply, hplace, others]

/-- `a` is a string of `n` characters. -/
structure Holds (a : Window 0 hi UInt8) (n : ℕ) : Prop where
  room : n < hi
  chars : ∀ j : ℤ, 0 ≤ j → j < n → a j ≠ 0
  terminator : a n = 0

theorem Holds.text_eq {n : ℕ} (h : Holds a n) : text a = cellList a 0 n := by
  obtain ⟨r, hr⟩ := Nat.exists_eq_add_of_le (show n + 1 ≤ hi.toNat by have := h.room; omega)
  have hnonzero : ∀ c ∈ cellList a 0 n, (c != 0) = true := by
    intro c hc
    obtain ⟨j, hj, rfl⟩ := mem_cellList.mp hc
    rw [Int.zero_add, bne_iff_ne]
    exact h.chars j (Int.natCast_nonneg j) (by omega)
  rw [text, hr, cellList_add, cellList_add, List.append_assoc, List.takeWhile_append_of_pos hnonzero]
  simp [cellList, h.terminator]

theorem Holds.exchanged {n : ℕ} (h : Holds a n) (hi₁ : 0 ≤ i) (hi₂ : i < n) (hj₁ : 0 ≤ j) (hj₂ : j < n) :
    Holds (exchanged a i j) n := by
  refine ⟨h.room, fun m hm hmn => ?_, ?_⟩
  · rw [Recursionproblems.exchanged, Function.comp_apply, Equiv.swap_apply_def]
    split_ifs
    · exact h.chars j hj₁ hj₂
    · exact h.chars i hi₁ hi₂
    · exact h.chars m hm hmn
  · rw [Recursionproblems.exchanged, Function.comp_apply, Equiv.swap_apply_of_ne_of_ne hi₂.ne' hj₂.ne',
      h.terminator]

/-- The lines of a call are the arrangements of the characters from `p` on, behind those in front of `p`. -/
theorem Holds.coe_lines {n : ℕ} (h : Holds a n) (k : ℕ) {p : ℕ} (hk : p + k + 1 = n) :
    (lines k p a : Multiset (List UInt8)) =
      (arrangements fun x : Fin (k + 1) => a (p + x.val)).map (cellList a 0 p ++ ·) := by
  induction k generalizing p a with
  | zero =>
    rw [lines, h.text_eq, arrangements_single, Multiset.map_singleton, ← hk, cellList_add]
    simp [cellList]
  | succ k ih =>
    have hround : ∀ x : Fin (k + 2), (lines k (p + 1) (Recursionproblems.exchanged a p (p + x.val)) :
        Multiset (List UInt8)) =
          ((arrangements (others (fun z : Fin (k + 2) => a (p + z.val)) x)).map (a (p + x.val) :: ·)).map
            (cellList a 0 p ++ ·) := by
      intro x
      have hcall := ih (h.exchanged (i := p) (j := p + x.val) (by omega) (by omega) (by omega) (by omega))
        (p := p + 1) (by omega)
      rw [Int.natCast_succ] at hcall
      rw [hcall, Multiset.map_map, cellList_exchanged]
      simp only [← Int.natCast_succ, exchanged_eq_others]
      apply Multiset.map_congr rfl
      intro s _
      rw [Function.comp_apply, List.append_assoc, List.singleton_append]
    rw [lines, coe_flatMap_range, arrangements_succ, ← Multiset.coe_mapAddMonoidHom, map_sum]
    exact Finset.sum_congr rfl fun x _ => hround x

theorem holds_of_isString {n : ℕ} {a : Window 0 (n + 1) UInt8} {word : List UInt8} (h : IsString a word) :
    Holds a n := by
  refine ⟨Int.lt_succ _, fun j hj hjn => ?_, h.terminator⟩
  obtain ⟨j, rfl⟩ := Int.eq_ofNat_of_zero_le hj
  exact h.char_ne j (by omega)

theorem lines_perm {word : List UInt8} (hword : word ≠ []) {a : Window 0 (word.length + 1) UInt8}
    (h : IsString a word) : (lines (word.length - 1) 0 a).Perm (allpermutations word) := by
  obtain ⟨k, hk⟩ := Nat.exists_eq_succ_of_ne_zero (List.length_pos_iff.mpr hword).ne'
  have hcells : word = List.ofFn fun x : Fin (k + 1) => a ((0 : ℕ) + x.val) := by
    apply List.ext_getElem
    · rw [List.length_ofFn, hk]
    · intro x hx _
      have hchar := h.getElem?_eq hx
      rw [List.getElem?_eq_getElem hx, Option.some_inj] at hchar
      rw [hchar, List.getElem_ofFn]
      simp
  have hlines := (holds_of_isString h).coe_lines k (p := 0) (by omega)
  rw [← coe_allpermutations, ← hcells] at hlines
  rw [← Multiset.coe_eq_coe, show word.length - 1 = k by omega, ← Int.natCast_zero, hlines]
  simp

/-- The lines of `permutations_backtracking(word, 0, n)` are the words of `allpermutations(word)`: every
permutation, as often as there are ways to rearrange the positions that give it. -/
theorem permutations_agree (word : List UInt8) (hword : word ≠ []) :
    (allpermutations word).length = word.length.factorial ∧
      (∀ s, s ∈ allpermutations word ↔ s.Perm word) ∧
      (∀ s, (allpermutations word).count s =
        (Finset.univ.filter fun σ : Equiv.Perm (Fin word.length) => (List.ofFn fun i => word.get (σ i)) = s).card) ∧
      (word.Nodup → (allpermutations word).Nodup) ∧
      ∀ a : Window 0 (word.length + 1) UInt8, IsString a word →
        ∃ out, permutationsBacktracking a 0 word.length = .ok ⟨a, out⟩ ∧ out.Perm (allpermutations word) := by
  have hlen : 0 < word.length := List.length_pos_iff.mpr hword
  refine ⟨?_, fun s => ?_, count_allpermutations word, fun hnodup => ?_, fun a ha => ?_⟩
  · rw [allpermutations_eq, length_permutations']
  · rw [allpermutations_eq, List.mem_permutations']
  · rw [allpermutations_eq, ← (List.permutations_perm_permutations' word).nodup_iff]
    exact List.nodup_permutations word hnodup
  · refine ⟨_, permutationsBacktracking_ok le_rfl (by omega) (by omega)
      ⟨word.length, by omega, ha.terminator⟩, ?_⟩
    rw [show ((word.length : ℤ) - 1 - 0).toNat = word.length - 1 by omega]
    exact lines_perm hword ha

theorem permutations_agree_abc :
    (allpermutations [97, 98, 97]).length = 6 ∧
      ∃ out, permutationsBacktracking (Window.ofList [97, 98, 97, (0 : UInt8)]) 0 3 =
        .ok ⟨Window.ofList [97, 98, 97, 0], out⟩ ∧ out.Perm (allpermutations [97, 98, 97]) := by
  obtain ⟨hlen, -, -, -, hprinted⟩ := permutations_agree [97, 98, 97] (List.cons_ne_nil _ _)
  exact ⟨hlen, hprinted (Window.ofList [97, 98, 97, 0]) ⟨rfl, by decide +kernel, rfl⟩⟩

/-- A call leaves the array as it was, and every line it prints agrees with the array in front of `i`, up to
the end of the string if it ends there. -/
theorem permutationsBacktracking_frame {i n : ℤ} (a : Window 0 hi UInt8) (hi₀ : 0 ≤ i) (hin : i < n)
    (hn : n ≤ hi) (hend : HasEnd a) :
    ∃ out, permutationsBacktracking a i n = .ok ⟨a, out⟩ ∧ ∀ t ∈ out,
      t.take i.toNat = (cellList a 0 i.toNat).takeWhile (· != 0) ∧
        ((∀ k, 0 ≤ k → k < i → a k ≠ 0) → ∀ k : ℕ, k < i → t[k]? = some (a k)) := by
  refine ⟨_, permutationsBacktracking_ok hi₀ hin hn hend, fun t ht => ?_⟩
  have htake : t.take i.toNat = _ := take_lines _ ht (by omega) (by omega)
  refine ⟨htake, fun hchars k hk => ?_⟩
  have hall : ∀ c ∈ cellList a 0 i.toNat, (c != 0) = true := by
    intro c hc
    obtain ⟨j, hj, rfl⟩ := mem_cellList.mp hc
    rw [bne_iff_ne]
    exact hchars _ (by omega) (by omega)
  rw [List.takeWhile_eq_self_iff.mpr hall] at htake
  rw [← List.getElem?_take_of_lt (show k < i.toNat by omega), htake, cellList, List.getElem?_map,
    List.getElem?_range (by omega), Option.map_some, Int.zero_add]

theorem permutationsBacktracking_frame_abc :
    ∃ out, permutationsBacktracking (Window.ofList [97, 98, 99, (0 : UInt8)]) 1 3 =
      .ok ⟨Window.ofList [97, 98, 99, 0], out⟩ ∧ ∀ t ∈ out, t[0]? = some 97 := by
  obtain ⟨out, hcall, hlines⟩ := permutationsBacktracking_frame (i := 1) (n := 3)
    (Window.ofList [97, 98, 99, (0 : UInt8)]) (by decide) (by decide) (by decide) ⟨3, by decide, rfl⟩
  refine ⟨out, hcall, fun t ht => ?_⟩
  refine (hlines t ht).2 (fun k hk₀ hk₁ => ?_) 0 (by decide)
  obtain rfl : k = 0 := by omega
  decide

end CodingForFun.Recursionproblems
