import CodingForFun.Lib.CellList
import CodingForFun.Lib.Sequence
import CodingForFun.Lib.ZerosLast

/-!
# `pushzeros`

The functions of `src/careercup/pushzeros.c` and `src/careercup/pushzeros.py` that keep the order. In the C
program `j` is not declared; it is read as another `int`. It shifts the cells behind a zero to the left and goes
on with the next cell, so the value that has come to the place of the zero is not looked at; and the last cell
keeps its value, so a zero at the end is counted again in every round that is left. What the rounds leave of a
list is `squeezed`, after so many shifts as `shifts` says.
-/

namespace CodingForFun.Pushzeros

open Lib Sequence

variable {n : ℕ}

/-- `array[j] = array[j+1];` -/
def shiftStep (j : ℤ) (array : Window 0 n ℤ) : Except Fault (Window 0 n ℤ) := do
  array.write j (← array.read (j + 1))

/-- The body of the first loop, with `array` and `zeros`. -/
def pushStep (i : ℤ) (s : Window 0 n ℤ × ℤ) : Except Fault (Window 0 n ℤ × ℤ) := do
  let (array, zeros) := s
  if (← array.read i) = 0 then
    let array ← forUp i (n - 1) shiftStep array
    pure (array, zeros + 1)
  else
    pure (array, zeros)

/-- `pushzeros` of the C program, for an array of `n` cells. -/
def pushzeros (array : Window 0 n ℤ) : Except Fault (Window 0 n ℤ) := do
  let (array, zeros) ← forUp 0 n pushStep (array, 0)
  forUp (n - zeros) n (fun i array => array.write i 0) array

/-- The body of the first loop of the Python program, with `seq` and `zi`. -/
def keepStep (i : ℤ) (s : List ℤ × ℤ) : Except PyError (List ℤ × ℤ) := do
  let (seq, zi) := s
  if (← index seq i) ≠ 0 then
    let seq ← setItem seq zi (← index seq i)
    pure (seq, zi + 1)
  else
    pure (seq, zi)

/-- `pushzeros` of the Python program. -/
def pushzerosSeq (seq : List ℤ) : Except PyError (List ℤ) := do
  let (seq, zi) ← forUp 0 seq.length keepStep (seq, 0)
  forUp zi seq.length (fun i seq => setItem seq i 0) seq

/-- Both programs leave the values other than zero in order and the zeros behind them. -/
def Agree (array : Window 0 n ℤ) : Prop :=
  ∃ array', pushzeros array = .ok array' ∧ pushzerosSeq (cellList array 0 n) = .ok (cellList array' 0 n) ∧
    cellList array' 0 n = zerosMoved (cellList array 0 n)

/-! ### The Python program -/

theorem keepStep_ne {x : ℤ} (hx : x ≠ 0) (kept gap rest : List ℤ) :
    keepStep (kept ++ gap).length (kept ++ gap ++ x :: rest, kept.length) =
      .ok (kept ++ [x] ++ (gap ++ [x]).tail ++ rest, (kept ++ [x]).length) := by
  have hset : setItem (kept ++ gap ++ x :: rest) kept.length x =
      .ok (kept ++ [x] ++ (gap ++ [x]).tail ++ rest) := by
    cases gap with
    | nil =>
      rw [List.append_nil, setItem_append]
      simp
    | cons y gap =>
      rw [List.append_assoc, List.cons_append, setItem_append]
      simp
  rw [keepStep]
  simp only [index_append, ok_bind]
  rw [if_pos hx, hset, ok_bind, pure_eq_ok, natCast_length_concat]

theorem keepStep_zero (kept gap rest : List ℤ) :
    keepStep (kept ++ gap).length (kept ++ gap ++ 0 :: rest, kept.length) =
      .ok (kept ++ gap ++ 0 :: rest, kept.length) := by
  rw [keepStep]
  simp only [index_append, ok_bind]
  rw [if_neg (not_not.mpr rfl), pure_eq_ok]

theorem keepLoop_ok (rest kept gap : List ℤ) :
    ∃ gap', gap'.length = gap.length + rest.count 0 ∧
      rounds 1 keepStep rest.length (kept ++ gap).length (kept ++ gap ++ rest, kept.length) =
        .ok (kept ++ nonzeros rest ++ gap', (kept ++ nonzeros rest).length) := by
  induction rest generalizing kept gap with
  | nil => exact ⟨gap, rfl, by simp [rounds, nonzeros]⟩
  | cons x rest ih =>
    have hnext : ((kept ++ gap).length : ℤ) + 1 = (kept ++ gap ++ [x]).length := by
      exact (natCast_length_concat _ x).symm
    by_cases hx : x = 0
    · subst hx
      obtain ⟨gap', hlen, hrest⟩ := ih kept (gap ++ [0])
      refine ⟨gap', ?_, ?_⟩
      · rw [hlen, List.length_append, List.length_singleton, List.count_cons_self]
        omega
      · rw [List.length_cons, rounds, keepStep_zero, ok_bind, hnext, nonzeros_cons_zero, ← hrest]
        simp
    · obtain ⟨gap', hlen, hrest⟩ := ih (kept ++ [x]) (gap ++ [x]).tail
      refine ⟨gap', ?_, ?_⟩
      · rw [hlen, List.length_tail, List.length_append, List.length_singleton, List.count_cons_of_ne hx]
        rfl
      · have hplace : (kept ++ gap ++ [x]).length = (kept ++ [x] ++ (gap ++ [x]).tail).length := by
          simp
        rw [List.length_cons, rounds, keepStep_ne hx, ok_bind, hnext, hplace, hrest, nonzeros_cons_of_ne hx]
        simp

theorem clearLoop_ok (rest front : List ℤ) :
    rounds 1 (fun i seq => setItem seq i 0) rest.length front.length (front ++ rest) =
      .ok (front ++ List.replicate rest.length 0) := by
  induction rest generalizing front with
  | nil => rfl
  | cons x rest ih =>
    have hrest := ih (front ++ [0])
    rw [natCast_length_concat, List.append_assoc] at hrest
    rw [List.length_cons, rounds, setItem_append, ok_bind, List.replicate_succ]
    rw [List.singleton_append] at hrest
    rw [hrest, List.append_assoc, List.singleton_append]

theorem pushzerosSeq_ok (seq : List ℤ) : pushzerosSeq seq = .ok (zerosMoved seq) := by
  obtain ⟨gap, hlen, hloop⟩ := keepLoop_ok seq [] []
  have hfirst : forUp 0 seq.length keepStep (seq, 0) = .ok (nonzeros seq ++ gap, ((nonzeros seq).length : ℤ)) := by
    rw [forUp, Int.sub_zero, Int.toNat_natCast]
    exact hloop
  have hgap : (((nonzeros seq ++ gap).length : ℤ) - (nonzeros seq).length).toNat = gap.length := by
    rw [List.length_append]
    omega
  rw [pushzerosSeq, hfirst]
  simp only [ok_bind]
  rw [forUp, hgap, clearLoop_ok, hlen, List.length_nil, Nat.zero_add, zerosMoved]

/-! ### The C program -/

/-- What is left of a list when the cell behind each zero that is found is not looked at. -/
def squeezed : List ℤ → List ℤ
  | [] => []
  | x :: r =>
    if x ≠ 0 then x :: squeezed r
    else match r with
      | [] => []
      | y :: r => y :: squeezed r

/-- The zeros that are found before the rest of the list is at its end. -/
def shifts : List ℤ → ℕ
  | [] => 0
  | x :: r =>
    if x ≠ 0 then shifts r
    else match r with
      | [] => 0
      | _ :: r => shifts r + 1

@[elab_as_elim] theorem scan_induction {p : List ℤ → Prop} (nil : p []) (single : p [0])
    (keep : ∀ x r, x ≠ 0 → p r → p (x :: r)) (skip : ∀ y r, p r → p (0 :: y :: r)) (l : List ℤ) : p l := by
  induction l using squeezed.induct with
  | case1 => exact nil
  | case2 x r hx ih => exact keep x r hx ih
  | case3 x hx => 
    rw [not_not] at hx
    rwa [hx]
  | case4 x hx y r ih =>
    rw [not_not] at hx
    rw [hx]
    exact skip y r ih

theorem squeezed_keep {x : ℤ} (hx : x ≠ 0) (r : List ℤ) : squeezed (x :: r) = x :: squeezed r := by
  cases r <;> exact if_pos hx

theorem squeezed_skip (y : ℤ) (r : List ℤ) : squeezed (0 :: y :: r) = y :: squeezed r := by
  simp [squeezed]

theorem shifts_keep {x : ℤ} (hx : x ≠ 0) (r : List ℤ) : shifts (x :: r) = shifts r := by
  cases r <;> exact if_pos hx

theorem shifts_skip (y : ℤ) (r : List ℤ) : shifts (0 :: y :: r) = shifts r + 1 := by
  simp [shifts]

theorem length_squeezed_le (l : List ℤ) : (squeezed l).length ≤ l.length := by
  induction l using scan_induction with
  | nil => exact le_rfl
  | single => exact Nat.zero_le _
  | keep x r hx ih =>
    rw [squeezed_keep hx, List.length_cons, List.length_cons]
    exact Nat.succ_le_succ ih
  | skip y r ih =>
    rw [squeezed_skip, List.length_cons, List.length_cons, List.length_cons]
    omega

variable {a : Window 0 n ℤ} {front : List ℤ} {x : ℤ}

theorem shiftLoop_ok (rest front : List ℤ) (x : ℤ) (h : cellList a 0 n = front ++ x :: rest) :
    ∃ a', rounds 1 shiftStep rest.length front.length a = .ok a' ∧
      cellList a' 0 n = front ++ (rest ++ [rest.getLastD x]) := by
  induction rest generalizing front x a with
  | nil => exact ⟨a, rfl, h⟩
  | cons y rest ih =>
    have hread : a.read (front.length + 1) = .ok y := by
      have hcell : cellList a 0 n = (front ++ [x]) ++ y :: rest := by
        rw [h, List.append_cons]
      have := Window.read_cells hcell
      rwa [natCast_length_concat] at this
    obtain ⟨a₁, hwrite, hcells⟩ := Window.write_cells h y
    have hcells' : cellList a₁ 0 n = (front ++ [y]) ++ y :: rest := by
      rw [hcells, List.append_cons]
    obtain ⟨a', ha', hcells''⟩ := ih (front ++ [y]) y hcells'
    rw [natCast_length_concat] at ha'
    refine ⟨a', ?_, ?_⟩
    · rw [List.length_cons, rounds, shiftStep, hread, ok_bind, hwrite, ok_bind, ha']
    · rw [hcells'', List.append_assoc, List.singleton_append, List.cons_append, List.getLastD_cons]

theorem pushStep_zero (rest : List ℤ) (zeros : ℤ) (h : cellList a 0 n = front ++ 0 :: rest) :
    ∃ a', pushStep front.length (a, zeros) = .ok (a', zeros + 1) ∧
      cellList a' 0 n = front ++ (rest ++ [rest.getLastD 0]) := by
  obtain ⟨a', ha', hcells⟩ := shiftLoop_ok rest front 0 h
  obtain ⟨hlen, -⟩ := Window.cells_at h
  refine ⟨a', ?_, hcells⟩
  rw [pushStep]
  simp only [Window.read_cells h, ok_bind]
  rw [if_pos trivial, forUp, show ((n : ℤ) - 1 - front.length).toNat = rest.length by omega, ha']
  rfl

theorem pushStep_ne (hx : x ≠ 0) (rest : List ℤ) (zeros : ℤ) (h : cellList a 0 n = front ++ x :: rest) :
    pushStep front.length (a, zeros) = .ok (a, zeros) := by
  rw [pushStep]
  simp only [Window.read_cells h, ok_bind]
  rw [if_neg hx]
  rfl

/-- The zeros that are found in `m` cells which all hold `last`. -/
def foundIn (last : ℤ) (m : ℕ) : ℕ := if last = 0 then m else 0

theorem foundIn_add (last : ℤ) (k m : ℕ) : foundIn last (k + m) = foundIn last k + foundIn last m := by
  rw [foundIn, foundIn, foundIn]
  split_ifs
  · rfl
  · rfl

theorem getLastD_append_replicate {last y : ℤ} {r : List ℤ} (h : r.getLastD y = last) (k : ℕ) :
    (r ++ List.replicate k last).getLastD y = last := by
  cases k with
  | zero => rwa [List.replicate_zero, List.append_nil]
  | succ k => rw [List.replicate_succ', ← List.append_assoc, List.getLastD_concat]

theorem getLastD_self {last x : ℤ} {r : List ℤ} (h : r.getLastD x = last) : r.getLastD last = last := by
  cases r with
  | nil => rfl
  | cons y r => rwa [List.getLastD_cons] at h ⊢

theorem copiesLoop_ok (last : ℤ) (k : ℕ) (front : List ℤ) (zeros : ℤ)
    (h : cellList a 0 n = front ++ List.replicate k last) :
    ∃ a', rounds 1 pushStep k front.length (a, zeros) = .ok (a', zeros + (foundIn last k : ℕ)) ∧
      cellList a' 0 n = cellList a 0 n := by
  induction k generalizing front zeros a with
  | zero => exact ⟨a, by simp [rounds, foundIn], rfl⟩
  | succ k ih =>
    rw [List.replicate_succ] at h
    have hstep : ∃ a₁, pushStep front.length (a, zeros) = .ok (a₁, zeros + (foundIn last 1 : ℕ)) ∧
        cellList a₁ 0 n = cellList a 0 n := by
      by_cases hzero : last = 0
      · subst hzero
        obtain ⟨a₁, ha₁, hcells⟩ := pushStep_zero _ zeros h
        refine ⟨a₁, ha₁, ?_⟩
        have hlast : (List.replicate k (0 : ℤ)).getLastD 0 = 0 := getLastD_append_replicate (r := []) rfl k
        rw [hcells, hlast, h, ← List.replicate_succ, List.replicate_succ']
      · refine ⟨a, ?_, rfl⟩
        rw [pushStep_ne hzero _ zeros h, foundIn, if_neg hzero, Int.natCast_zero, Int.add_zero]
    obtain ⟨a₁, ha₁, hsame⟩ := hstep
    have hcells : cellList a₁ 0 n = (front ++ [last]) ++ List.replicate k last := by
      rw [hsame, h, List.append_cons]
    obtain ⟨a', ha', hsame'⟩ := ih (front ++ [last]) (zeros + (foundIn last 1 : ℕ)) hcells
    rw [natCast_length_concat] at ha'
    refine ⟨a', ?_, hsame'.trans hsame⟩
    rw [rounds, ha₁, ok_bind, ha', Nat.add_comm k 1, foundIn_add, Int.natCast_add,
      Int.add_assoc]

/-- The cells that the first loop leaves behind a place where `r` and `k` copies of the last value are. -/
def scanned (last : ℤ) (r : List ℤ) (k : ℕ) : List ℤ :=
  squeezed r ++ List.replicate (r.length + k - (squeezed r).length) last

/-- The zeros it finds there. -/
def found (last : ℤ) (r : List ℤ) (k : ℕ) : ℕ := shifts r + foundIn last (r.length + k - (squeezed r).length)

theorem scanned_keep (last : ℤ) {x : ℤ} (hx : x ≠ 0) (r : List ℤ) (k : ℕ) :
    scanned last (x :: r) k = x :: scanned last r k ∧ found last (x :: r) k = found last r k := by
  have hlen : (x :: r).length + k - (squeezed (x :: r)).length = r.length + k - (squeezed r).length := by
    rw [squeezed_keep hx, List.length_cons, List.length_cons]
    omega
  constructor
  · rw [scanned, hlen, squeezed_keep hx, List.cons_append, ← scanned]
  · rw [found, hlen, shifts_keep hx, ← found]

theorem scanned_skip (last y : ℤ) (r : List ℤ) (k : ℕ) :
    scanned last (0 :: y :: r) k = y :: scanned last r (k + 1) ∧
      found last (0 :: y :: r) k = 1 + found last r (k + 1) := by
  have hlen : (0 :: y :: r).length + k - (squeezed (0 :: y :: r)).length =
      r.length + (k + 1) - (squeezed r).length := by
    rw [squeezed_skip, List.length_cons, List.length_cons, List.length_cons]
    omega
  constructor
  · rw [scanned, hlen, squeezed_skip, List.cons_append, ← scanned]
  · rw [found, hlen, shifts_skip, found]
    omega

theorem scanLoop_ok (last : ℤ) (r : List ℤ) (k : ℕ) (front : List ℤ) (zeros : ℤ) (hlast : r.getLastD last = last)
    (h : cellList a 0 n = front ++ (r ++ List.replicate k last)) :
    ∃ a', rounds 1 pushStep (r.length + k) front.length (a, zeros) = .ok (a', zeros + (found last r k : ℕ)) ∧
      cellList a' 0 n = front ++ scanned last r k := by
  induction r using scan_induction generalizing k front zeros a with
  | nil =>
    obtain ⟨a', ha', hsame⟩ := copiesLoop_ok last k front zeros h
    refine ⟨a', ?_, ?_⟩
    · rw [List.length_nil, Nat.zero_add, ha', found]
      simp [shifts, squeezed]
    · rw [hsame, h, scanned]
      simp [squeezed]
  | single =>
    have hzero : last = 0 := hlast.symm
    subst hzero
    have hcells : cellList a 0 n = front ++ List.replicate (k + 1) 0 := by
      rw [h, List.replicate_succ, List.singleton_append]
    obtain ⟨a', ha', hsame⟩ := copiesLoop_ok 0 (k + 1) front zeros hcells
    have hrounds : [(0 : ℤ)].length + k = k + 1 := by
      rw [List.length_singleton, Nat.add_comm]
    refine ⟨a', ?_, ?_⟩
    · rw [found, hrounds, ha']
      simp [shifts, squeezed]
    · rw [hsame, hcells, scanned, hrounds]
      simp [squeezed]
  | keep x r hx ih =>
    rw [List.getLastD_cons] at hlast
    rw [List.cons_append] at h
    have hcells : cellList a 0 n = (front ++ [x]) ++ (r ++ List.replicate k last) := by
      rw [h, List.append_cons]
    obtain ⟨a', ha', hcells'⟩ := ih k (front ++ [x]) zeros (getLastD_self hlast) hcells
    rw [natCast_length_concat] at ha'
    obtain ⟨hscanned, hfound⟩ := scanned_keep last hx r k
    refine ⟨a', ?_, ?_⟩
    · rw [List.length_cons, Nat.add_right_comm, rounds, pushStep_ne hx _ zeros h, ok_bind, ha', hfound]
    · rw [hcells', hscanned, List.append_assoc, List.singleton_append]
  | skip y r ih =>
    rw [List.getLastD_cons, List.getLastD_cons] at hlast
    rw [List.cons_append, List.cons_append] at h
    obtain ⟨a₁, ha₁, hshifted⟩ := pushStep_zero _ zeros h
    have hcells : cellList a₁ 0 n = (front ++ [y]) ++ (r ++ List.replicate (k + 1) last) := by
      rw [hshifted, List.getLastD_cons, getLastD_append_replicate hlast, List.replicate_succ']
      simp
    obtain ⟨a', ha', hcells'⟩ := ih (k + 1) (front ++ [y]) (zeros + 1) (getLastD_self hlast) hcells
    rw [natCast_length_concat] at ha'
    obtain ⟨hscanned, hfound⟩ := scanned_skip last y r k
    refine ⟨a', ?_, ?_⟩
    · have hrounds : (0 :: y :: r).length + k = r.length + (k + 1) + 1 := by
        rw [List.length_cons, List.length_cons]
        omega
      rw [hrounds, rounds, ha₁, ok_bind, ha', hfound, Int.natCast_add, Int.natCast_one, Int.add_assoc]
    · rw [hcells', hscanned, List.append_assoc, List.singleton_append]

theorem zeroLoop_ok (rest front : List ℤ) (h : cellList a 0 n = front ++ rest) :
    ∃ a', rounds 1 (fun i (array : Window 0 n ℤ) => array.write i 0) rest.length front.length a = .ok a' ∧
      cellList a' 0 n = front ++ List.replicate rest.length 0 := by
  induction rest generalizing front a with
  | nil => exact ⟨a, rfl, h⟩
  | cons x rest ih =>
    obtain ⟨a₁, ha₁, hcells⟩ := Window.write_cells h 0
    obtain ⟨a', ha', hcells'⟩ := ih (front ++ [0]) (by rw [hcells, List.append_cons])
    rw [natCast_length_concat] at ha'
    refine ⟨a', ?_, ?_⟩
    · rw [List.length_cons, rounds, ha₁, ok_bind, ha']
    · rw [hcells', List.length_cons, List.replicate_succ, List.append_assoc, List.singleton_append]

theorem shifts_le (l : List ℤ) : shifts l ≤ (squeezed l).length := by
  induction l using scan_induction with
  | nil => exact le_rfl
  | single => exact Nat.zero_le _
  | keep x r hx ih =>
    rw [shifts_keep hx, squeezed_keep hx, List.length_cons]
    omega
  | skip y r ih =>
    rw [shifts_skip, squeezed_skip, List.length_cons]
    omega

/-- What the C program makes of a list. -/
def pushed (l : List ℤ) : List ℤ :=
  (scanned (l.getLastD 0) l 0).take (l.length - found (l.getLastD 0) l 0) ++
    List.replicate (found (l.getLastD 0) l 0) 0

theorem length_scanned (last : ℤ) (l : List ℤ) : (scanned last l 0).length = l.length := by
  have hle := length_squeezed_le l
  rw [scanned, List.length_append, List.length_replicate]
  omega

theorem found_le (last : ℤ) (l : List ℤ) : found last l 0 ≤ l.length := by
  have hle := length_squeezed_le l
  have hshifts := shifts_le l
  rw [found, foundIn]
  split_ifs <;> omega

theorem pushzeros_ok (a : Window 0 n ℤ) :
    ∃ a', pushzeros a = .ok a' ∧ cellList a' 0 n = pushed (cellList a 0 n) := by
  have hlen : (cellList a 0 n).length = n := length_cellList a 0 n
  generalize hl : cellList a 0 n = l at hlen ⊢
  have hlast : l.getLastD (l.getLastD 0) = l.getLastD 0 := getLastD_self rfl
  obtain ⟨a₁, ha₁, hscanned⟩ := scanLoop_ok (l.getLastD 0) l 0 [] 0 hlast (by rw [hl]; simp)
  rw [List.nil_append] at hscanned
  rw [List.length_nil, Int.zero_add, Nat.add_zero, hlen] at ha₁
  have hscan : forUp 0 n pushStep (a, 0) = .ok (a₁, ((found (l.getLastD 0) l 0 : ℕ) : ℤ)) := by
    rw [forUp, Int.sub_zero, Int.toNat_natCast]
    exact ha₁
  -- the cells that the first loop has left, and those that the last loop sets
  have hsplit := List.take_append_drop (l.length - found (l.getLastD 0) l 0) (scanned (l.getLastD 0) l 0)
  have hle := found_le (l.getLastD 0) l
  have hfront : ((scanned (l.getLastD 0) l 0).take (l.length - found (l.getLastD 0) l 0)).length =
      l.length - found (l.getLastD 0) l 0 := by
    rw [List.length_take, length_scanned]
    omega
  have hback : ((scanned (l.getLastD 0) l 0).drop (l.length - found (l.getLastD 0) l 0)).length =
      found (l.getLastD 0) l 0 := by
    rw [List.length_drop, length_scanned]
    omega
  obtain ⟨a', ha', hcells⟩ := zeroLoop_ok _ _ (hscanned.trans hsplit.symm)
  rw [hfront, hback] at ha'
  rw [hback] at hcells
  refine ⟨a', ?_, hcells⟩
  rw [pushzeros, hscan]
  simp only [ok_bind]
  rw [forUp, show ((n : ℤ) - (n - (found (l.getLastD 0) l 0 : ℕ))).toNat = found (l.getLastD 0) l 0 by omega,
    show (n : ℤ) - (found (l.getLastD 0) l 0 : ℕ) = (l.length - found (l.getLastD 0) l 0 : ℕ) by omega, ha']

/-! ### When the C program is right -/

/-- No two zeros are next to each other. -/
def NoTwoZeros (l : List ℤ) : Prop := l.IsChain fun x y => x ≠ 0 ∨ y ≠ 0

instance (l : List ℤ) : Decidable (NoTwoZeros l) := inferInstanceAs (Decidable (l.IsChain _))

theorem nonzeros_squeezed (l : List ℤ) : nonzeros (squeezed l) = nonzeros l := by
  induction l using scan_induction with
  | nil => rfl
  | single => rfl
  | keep x r hx ih => rw [squeezed_keep hx, nonzeros_cons_of_ne hx, nonzeros_cons_of_ne hx, ih]
  | skip y r ih =>
    rw [squeezed_skip, nonzeros_cons_zero]
    by_cases hy : y = 0
    · rw [hy, nonzeros_cons_zero, nonzeros_cons_zero, ih]
    · rw [nonzeros_cons_of_ne hy, nonzeros_cons_of_ne hy, ih]

theorem count_squeezed_le (l : List ℤ) : (squeezed l).count 0 ≤ shifts l := by
  induction l using scan_induction with
  | nil => exact le_rfl
  | single => exact le_rfl
  | keep x r hx ih => rwa [squeezed_keep hx, shifts_keep hx, List.count_cons_of_ne hx]
  | skip y r ih =>
    rw [squeezed_skip, shifts_skip, List.count_cons]
    split_ifs <;> omega

theorem noTwoZeros_keep {x : ℤ} (hx : x ≠ 0) (r : List ℤ) : NoTwoZeros (x :: r) ↔ NoTwoZeros r := by
  cases r with
  | nil => simp [NoTwoZeros]
  | cons y r => rw [NoTwoZeros, List.isChain_cons_cons, and_iff_right (.inl hx), ← NoTwoZeros]

theorem noTwoZeros_skip (y : ℤ) (r : List ℤ) : NoTwoZeros (0 :: y :: r) ↔ y ≠ 0 ∧ NoTwoZeros r := by
  rw [NoTwoZeros, List.isChain_cons_cons, or_iff_right (not_not.mpr rfl), ← NoTwoZeros]
  exact and_congr_right fun hy => noTwoZeros_keep hy r

theorem noTwoZeros_iff (l : List ℤ) : NoTwoZeros l ↔ ∀ x ∈ squeezed l, x ≠ 0 := by
  induction l using scan_induction with
  | nil => simp [NoTwoZeros, squeezed]
  | single => simp [NoTwoZeros, squeezed]
  | keep x r hx ih => rw [squeezed_keep hx, List.forall_mem_cons, and_iff_right hx, ← ih, noTwoZeros_keep hx]
  | skip y r ih => rw [squeezed_skip, List.forall_mem_cons, ← ih, noTwoZeros_skip]

theorem squeezed_of_zerosLast {l : List ℤ} (h : ZerosLast l) :
    squeezed l = nonzeros l ++ List.replicate (shifts l) 0 := by
  induction l using scan_induction with
  | nil => rfl
  | single => rfl
  | keep x r hx ih =>
    rw [squeezed_keep hx, shifts_keep hx, nonzeros_cons_of_ne hx, ih ((zerosLast_cons_of_ne hx).mp h),
      List.cons_append]
  | skip y r ih =>
    have hall := zerosLast_cons_zero.mp h
    obtain ⟨rfl, hr⟩ := List.forall_mem_cons.mp hall
    rw [squeezed_skip, shifts_skip, nonzeros_cons_zero, nonzeros_cons_zero, ih (zerosLast_of_forall hr),
      nonzeros_eq_nil_iff.mpr hr, List.nil_append, List.nil_append, List.replicate_succ]

theorem zerosLast_of_squeezed {l : List ℤ} (h : ZerosLast (squeezed l))
    (hcount : shifts l ≤ (squeezed l).count 0) : ZerosLast l := by
  induction l using scan_induction with
  | nil => exact h
  | single => exact List.pairwise_singleton _ _
  | keep x r hx ih =>
    rw [squeezed_keep hx] at h hcount
    rw [shifts_keep hx, List.count_cons_of_ne hx] at hcount
    exact (zerosLast_cons_of_ne hx).mpr (ih ((zerosLast_cons_of_ne hx).mp h) hcount)
  | skip y r ih =>
    have hle := count_squeezed_le r
    rw [squeezed_skip] at h hcount
    rw [shifts_skip] at hcount
    have hy : y = 0 := by
      by_contra hne
      rw [List.count_cons_of_ne hne] at hcount
      omega
    rw [hy] at h ⊢
    have hr : nonzeros r = [] := by
      rw [← nonzeros_squeezed, nonzeros_eq_nil_iff]
      exact zerosLast_cons_zero.mp h
    refine zerosLast_cons_zero.mpr (List.forall_mem_cons.mpr ⟨rfl, nonzeros_eq_nil_iff.mp hr⟩)

section last

variable {l : List ℤ}

theorem getLast?_rest {x : ℤ} (h : (x :: l).getLast? ≠ some 0) : l.getLast? ≠ some 0 := by
  intro hzero
  rw [List.getLast?_cons, hzero] at h
  exact h rfl

theorem getLast?_squeezed (h : l.getLast? ≠ some 0) : (squeezed l).getLast? = l.getLast? := by
  induction l using scan_induction with
  | nil => rfl
  | single => exact absurd rfl h
  | keep x r hx ih => rw [squeezed_keep hx, List.getLast?_cons, List.getLast?_cons, ih (getLast?_rest h)]
  | skip y r ih =>
    rw [squeezed_skip, List.getLast?_cons, List.getLast?_cons, List.getLast?_cons,
      ih (getLast?_rest (getLast?_rest h))]
    rfl

theorem length_squeezed (h : l.getLast? ≠ some 0) : (squeezed l).length + shifts l = l.length := by
  induction l using scan_induction with
  | nil => rfl
  | single => exact absurd rfl h
  | keep x r hx ih =>
    have hr := ih (getLast?_rest h)
    rw [squeezed_keep hx, shifts_keep hx, List.length_cons, List.length_cons]
    omega
  | skip y r ih =>
    have hr := ih (getLast?_rest (getLast?_rest h))
    rw [squeezed_skip, shifts_skip, List.length_cons, List.length_cons, List.length_cons]
    omega

theorem ne_zero_of_zerosLast (h : ZerosLast l) (hlast : l.getLast? ≠ some 0) : ∀ x ∈ l, x ≠ 0 := by
  intro x hx
  obtain ⟨front, y, rfl⟩ := (List.eq_nil_or_concat' l).resolve_left (List.ne_nil_of_mem hx)
  rw [List.getLast?_concat, Ne, Option.some_inj] at hlast
  rcases List.mem_append.mp hx with hx | hx
  · intro hzero
    exact hlast ((List.pairwise_append.mp h).2.2 x hx y (List.mem_singleton_self y) hzero)
  · rwa [List.mem_singleton.mp hx]

theorem pushed_of_last_ne (h : l.getLastD 0 ≠ 0) : pushed l = squeezed l ++ List.replicate (shifts l) 0 := by
  have hlast : l.getLast? ≠ some 0 := by
    intro hzero
    rw [List.getLastD_eq_getLast?, hzero] at h
    exact h rfl
  have hlen := length_squeezed hlast
  have hfound : found (l.getLastD 0) l 0 = shifts l := by
    rw [found, foundIn, if_neg h, Nat.add_zero]
  rw [pushed, hfound, scanned, List.take_left' (by omega)]

theorem pushed_of_last_zero (h : l.getLastD 0 = 0) :
    pushed l = (squeezed l).take ((squeezed l).length - shifts l) ++
      List.replicate (l.length - ((squeezed l).length - shifts l)) 0 := by
  have hle := length_squeezed_le l
  have hshifts := shifts_le l
  have hfound : found (l.getLastD 0) l 0 = l.length - ((squeezed l).length - shifts l) := by
    rw [found, foundIn, if_pos h]
    omega
  rw [pushed, hfound, scanned, List.take_append_of_le_length (by omega)]
  congr 2
  omega

theorem pushed_eq_iff_of_last_zero (h : l.getLastD 0 = 0) : pushed l = zerosMoved l ↔ ZerosLast l := by
  have hshifts := shifts_le l
  rw [pushed_of_last_zero h]
  constructor
  · intro heq
    -- all values other than zero are in the part that is kept, so what is cut off are zeros
    have hsplit := List.take_append_drop ((squeezed l).length - shifts l) (squeezed l)
    have hkept := congrArg nonzeros heq
    rw [nonzeros_append, nonzeros_replicate, List.append_nil, nonzeros_zerosMoved] at hkept
    have hcut : nonzeros ((squeezed l).drop ((squeezed l).length - shifts l)) = [] := by
      have hall := congrArg nonzeros hsplit
      rw [nonzeros_append, hkept, nonzeros_squeezed] at hall
      exact List.append_right_eq_self.mp hall
    have hzeros : (squeezed l).drop ((squeezed l).length - shifts l) = List.replicate (shifts l) 0 := by
      rw [List.eq_replicate_iff]
      refine ⟨?_, nonzeros_eq_nil_iff.mp hcut⟩
      rw [List.length_drop]
      omega
    rw [hzeros] at hsplit
    have hlast := zerosLast_zerosMoved l
    rw [← heq, zerosLast_append_replicate] at hlast
    apply zerosLast_of_squeezed
    · rw [← hsplit]
      exact zerosLast_append_replicate.mpr hlast
    · rw [← hsplit, List.count_append, List.count_replicate_self]
      exact Nat.le_add_left _ _
  · intro hzeros
    have hlen := length_nonzeros l
    have hsq : (squeezed l).length = (nonzeros l).length + shifts l := by
      rw [squeezed_of_zerosLast hzeros, List.length_append, List.length_replicate]
    rw [hsq, Nat.add_sub_cancel, squeezed_of_zerosLast hzeros, List.take_left, zerosMoved]
    congr 2
    omega

theorem pushed_eq_iff_of_last_ne (h : l.getLastD 0 ≠ 0) (hlast : l.getLast? ≠ some 0) :
    pushed l = zerosMoved l ↔ NoTwoZeros l := by
  rw [pushed_of_last_ne h, noTwoZeros_iff]
  constructor
  · intro heq
    have hzeros := zerosLast_zerosMoved l
    rw [← heq, zerosLast_append_replicate] at hzeros
    apply ne_zero_of_zerosLast hzeros
    rwa [getLast?_squeezed hlast]
  · intro hne
    apply ZerosLast.eq_zerosMoved
    · rw [zerosLast_append_replicate]
      apply List.pairwise_of_forall_mem_list
      intro x hx y _ hzero
      exact absurd hzero (hne x hx)
    · rw [List.length_append, List.length_replicate, length_squeezed hlast]
    · rw [nonzeros_append, nonzeros_replicate, List.append_nil, nonzeros_squeezed]

theorem pushed_eq_iff :
    pushed l = zerosMoved l ↔ ZerosLast l ∨ (l.getLast? ≠ some 0 ∧ NoTwoZeros l) := by
  rcases List.eq_nil_or_concat' l with rfl | ⟨front, y, hl⟩
  · exact iff_of_true rfl (.inl List.Pairwise.nil)
  · have hlast : l.getLast? = some y := by rw [hl, List.getLast?_concat]
    have hlastD : l.getLastD 0 = y := by rw [hl, List.getLastD_concat]
    by_cases hy : y = 0
    · rw [pushed_eq_iff_of_last_zero (hlastD.trans hy)]
      constructor
      · exact Or.inl
      · intro hor
        rcases hor with hzeros | ⟨hne, -⟩
        · exact hzeros
        · rw [hlast, hy] at hne
          exact absurd rfl hne
    · have hne : l.getLast? ≠ some 0 := by
        rw [hlast]
        exact fun h => hy (Option.some.inj h)
      rw [pushed_eq_iff_of_last_ne (hlastD.trans_ne hy) hne, and_iff_right hne]
      constructor
      · exact Or.inr
      · intro hor
        rcases hor with hzeros | hchain
        · -- with another value at the end there are no zeros at all
          apply List.Pairwise.isChain
          apply List.pairwise_of_forall_mem_list
          intro x hx z _
          exact Or.inl (ne_zero_of_zerosLast hzeros hne x hx)
        · exact hchain

end last

end CodingForFun.Pushzeros
