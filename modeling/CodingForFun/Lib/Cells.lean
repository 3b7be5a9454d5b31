import CodingForFun.Lib.Loop
import Mathlib.Logic.Equiv.Basic
import Mathlib.Order.Basic
import Mathlib.Order.Nat

/-!
# Allocated memory, cell by cell

An array of a C program is the list of its allocated cells, and a cell that was never written is
`none`. Reads and writes are checked: outside the block, or of a cell without a value, they fault,
so that an operation proved to end in `.ok` has stayed inside its storage and read only what was
written.

`Holds blk a m` reads the first `m` cells as the values `a 0, …, a (m - 1)`; `HoldsOff` leaves one
cell (the hole of a shifting loop) unconstrained. Shifting a value into the hole is the
transposition of the two positions (`HoldsOff.move`).
-/

namespace CodingForFun.Lib

/-- How a C function may fail to return. -/
inductive Fault
  /-- an index outside the allocated cells, or a dangling pointer -/
  | outOfBounds
  /-- a read of a cell that was never written -/
  | uninitialised
  /-- a call of `exit` -/
  | exit
  /-- a loop or a recursion that was cut off -/
  | unbounded
  /-- a result that its type cannot hold -/
  | overflow
  /-- the end of a function without the value it has to return -/
  | noReturn
  deriving DecidableEq, Repr

section checked

variable {α : Type} [LE α] {max : Option α} {n : α}

/-- `INT_MAX` -/
def intMax : ℕ := 2147483647

/-- `n` is not above the greatest value of a type; where there is none, the type is taken as unbounded. -/
def InRange (max : Option α) (n : α) : Prop := ∀ m ∈ max, n ≤ m

instance [DecidableLE α] (max : Option α) (n : α) : Decidable (InRange max n) :=
  inferInstanceAs (Decidable (∀ m ∈ max, n ≤ m))

/-- The result of an operation, if its type can hold it. -/
def checked [DecidableLE α] (max : Option α) (n : α) : Except Fault α :=
  if InRange max n then .ok n else .error .overflow

theorem inRange_none (n : α) : InRange none n := nofun

theorem inRange_some {m : α} : InRange (some m) n ↔ n ≤ m := by
  simp [InRange]

theorem checked_ok [DecidableLE α] (h : InRange max n) : checked max n = .ok n := if_pos h

theorem checked_overflow [DecidableLE α] (h : ¬InRange max n) : checked max n = .error .overflow := if_neg h

end checked

/-- An allocated block. -/
abbrev Cells (α : Type) := List (Option α)

namespace Cells

variable {α : Type}

/-- `malloc` of `n` cells. -/
def malloc (n : ℕ) : Cells α := List.replicate n none

/-- `realloc` to `n` cells: the common prefix survives, new cells hold nothing. -/
def realloc (blk : Cells α) (n : ℕ) : Cells α := blk.take n ++ List.replicate (n - blk.length) none

/-- The value of cell `i`. -/
def read (blk : Cells α) (i : ℕ) : Except Fault α :=
  match blk[i]? with
  | none => .error .outOfBounds
  | some none => .error .uninitialised
  | some (some x) => .ok x

/-- The block with `x` in cell `i`. -/
def write (blk : Cells α) (i : ℕ) (x : α) : Except Fault (Cells α) :=
  if i < blk.length then .ok (blk.set i (some x)) else .error .outOfBounds

theorem read_eq_ok_iff {blk : Cells α} {i : ℕ} {x : α} :
    blk.read i = .ok x ↔ blk[i]? = some (some x) := by
  rw [read]
  rcases blk[i]? with _ | _ | y <;> simp

theorem read_eq_ok {blk : Cells α} {i : ℕ} {x : α} (h : blk[i]? = some (some x)) :
    blk.read i = .ok x := read_eq_ok_iff.mpr h

theorem write_eq_ok_iff {blk blk' : Cells α} {i : ℕ} {x : α} :
    blk.write i x = .ok blk' ↔ i < blk.length ∧ blk.set i (some x) = blk' := by
  by_cases h : i < blk.length <;> simp [write, h]

theorem write_eq_ok {blk : Cells α} {i : ℕ} (h : i < blk.length) (x : α) :
    blk.write i x = .ok (blk.set i (some x)) := write_eq_ok_iff.mpr ⟨h, rfl⟩

@[simp] theorem length_malloc (n : ℕ) : (malloc n : Cells α).length = n := by simp [malloc]

@[simp] theorem length_realloc (blk : Cells α) (n : ℕ) : (blk.realloc n).length = n := by
  simp [realloc]; omega

theorem getElem?_realloc (blk : Cells α) {n i : ℕ} (hi : i < n) (hc : i < blk.length) :
    (blk.realloc n)[i]? = blk[i]? := by
  rw [realloc, List.getElem?_append_left (by simp; omega), List.getElem?_take_of_lt hi]

/-- The first `m` cells hold `a 0, …, a (m - 1)`. -/
def Holds (blk : Cells α) (a : ℕ → α) (m : ℕ) : Prop :=
  m ≤ blk.length ∧ ∀ i < m, blk[i]? = some (some (a i))

/-- The first `m` cells hold `a`, the one at `hole` excepted. -/
def HoldsOff (blk : Cells α) (a : ℕ → α) (m hole : ℕ) : Prop :=
  m ≤ blk.length ∧ ∀ i < m, i ≠ hole → blk[i]? = some (some (a i))

variable {blk : Cells α} {a b : ℕ → α} {m s f : ℕ}

theorem Holds.read (h : Holds blk a m) {i : ℕ} (hi : i < m) : blk.read i = .ok (a i) :=
  read_eq_ok (h.2 i hi)

theorem HoldsOff.read (h : HoldsOff blk a m s) {i : ℕ} (hi : i < m) (hne : i ≠ s) :
    blk.read i = .ok (a i) := read_eq_ok (h.2 i hi hne)

theorem Holds.off (h : Holds blk a m) (s : ℕ) : HoldsOff blk a m s := ⟨h.1, fun i hi _ => h.2 i hi⟩

theorem Holds.mono (h : Holds blk a m) {k : ℕ} (hk : k ≤ m) : Holds blk a k :=
  ⟨hk.trans h.1, fun i hi => h.2 i (hi.trans_le hk)⟩

theorem Holds.congr (h : Holds blk a m) (hab : ∀ i < m, a i = b i) : Holds blk b m :=
  ⟨h.1, fun i hi => hab i hi ▸ h.2 i hi⟩

theorem HoldsOff.congr (h : HoldsOff blk a m s) (hab : ∀ i < m, i ≠ s → a i = b i) :
    HoldsOff blk b m s := ⟨h.1, fun i hi hne => hab i hi hne ▸ h.2 i hi hne⟩

theorem Holds.realloc (h : Holds blk a m) {n : ℕ} (hn : m ≤ n) : Holds (blk.realloc n) a m :=
  ⟨by simpa using hn, fun i hi => by
    rw [getElem?_realloc blk (hi.trans_le hn) (hi.trans_le h.1)]; exact h.2 i hi⟩

theorem Holds.extend (h : Holds blk a m) (hlt : m < blk.length) (x : α) :
    HoldsOff blk (Function.update a m x) (m + 1) m :=
  ⟨hlt, fun i hi hne => by
    rw [Function.update_of_ne hne]; exact h.2 i (by omega)⟩

theorem HoldsOff.move (h : HoldsOff blk a m s) (hs : s < m) :
    HoldsOff (blk.set s (some (a f))) (a ∘ Equiv.swap s f) m f := by
  refine ⟨by simpa using h.1, fun i hi hne => ?_⟩
  by_cases his : i = s
  · subst his
    rw [List.getElem?_set_self (hi.trans_le h.1)]
    simp
  · rw [List.getElem?_set_ne (Ne.symm his), h.2 i hi his, Function.comp_apply,
      Equiv.swap_apply_of_ne_of_ne his hne]

theorem HoldsOff.fill (h : HoldsOff blk a m s) : Holds (blk.set s (some (a s))) a m := by
  refine ⟨by simpa using h.1, fun i hi => ?_⟩
  by_cases his : i = s
  · subst his
    rw [List.getElem?_set_self (hi.trans_le h.1)]
  · rw [List.getElem?_set_ne (Ne.symm his), h.2 i hi his]

/-! ### Cells that start with the values of a list -/

theorem read_map_append {l : List α} {i : ℕ} (hi : i < l.length) (rest : Cells α) :
    read (l.map some ++ rest) i = .ok l[i] := by
  apply read_eq_ok
  rw [List.getElem?_append_left (by simpa using hi), List.getElem?_map, List.getElem?_eq_getElem hi,
    Option.map_some]

theorem write_append (front : Cells α) (y : Option α) (rest : Cells α) (x : α) {i : ℕ}
    (hi : i = front.length) : write (front ++ y :: rest) i x = .ok (front ++ some x :: rest) := by
  subst hi
  rw [write_eq_ok (by simp)]
  simp

theorem write_error (blk : Cells α) {i : ℕ} (h : blk.length ≤ i) (x : α) :
    blk.write i x = .error .outOfBounds := by
  rw [write, if_neg (Nat.not_lt.mpr h)]

/-! ### Cells that are filled from the front -/

/-- `blk[k++] = x` -/
def push (x : Cells α × ℕ) (y : α) : Except Fault (Cells α × ℕ) := do
  let blk ← x.1.write x.2 y
  pure (blk, x.2 + 1)

theorem push_all (l front : List α) (rest : Cells α) :
    l.foldlM push (front.map some ++ rest, front.length) = if l.length ≤ rest.length
      then .ok ((front ++ l).map some ++ rest.drop l.length, (front ++ l).length)
      else .error .outOfBounds := by
  induction l generalizing front rest with
  | nil => simp
  | cons y l ih =>
    rw [List.foldlM_cons, push]
    cases rest with
    | nil =>
      rw [write_error _ (by simp), error_bind, if_neg (by simp)]
      rfl
    | cons cell rest =>
      have hround := ih (front ++ [y]) rest
      rw [List.length_append, List.length_singleton, List.map_append, List.append_assoc] at hround
      rw [write_append _ _ _ _ (List.length_map _).symm, ok_bind, pure_eq_ok, ok_bind]
      simp only [List.map_cons, List.map_nil, List.cons_append, List.nil_append] at hround
      rw [hround]
      simp only [List.length_cons, Nat.add_le_add_iff_right, List.append_assoc, List.cons_append,
        List.nil_append, List.drop_succ_cons]

end Cells

end CodingForFun.Lib
