import CodingForFun.Lib.Binary64
import CodingForFun.Lib.Loop
import CodingForFun.Lib.Sequence
import Mathlib.Data.Fin.VecNotation
import Mathlib.Data.List.FinRange

/-!
# `random_mini_batches`

The function of `src/coursera/improving_deepnn/assign4_optimization.py`. Shuffled alike, the columns of `X` and
`Y` are cut into slices of one width; what is left over is a batch of its own. All of that depends on the number
of complete batches, the integral part of `m / mini_batch_size`, which is a division of floating point numbers
while `m % mini_batch_size` is exact. The batches are a partition when that number is the quotient
(`partitions_iff_num`), and rounding leaves it so below `2 ^ 53` examples (`randomMiniBatches_partitions`).
-/

namespace CodingForFun.Assign4Optimization

open Lib Sequence

/-- How the function may end without a value. -/
inductive NumericError
  | zeroDivisionError
  | overflowError
  | indexError
  | valueError
  deriving DecidableEq, Repr

/-- An array of two dimensions, column by column: the length is `shape[1]`. -/
abbrev Columns (rows : ℕ) (α : Type) := List (Fin rows → α)

variable {α β Seed : Type} {rows rows' : ℕ}

/-- `A[:, indices]` -/
def columnsAt (A : List α) (indices : List ℕ) : Except NumericError (List α) :=
  indices.mapM fun j => (A[j]?).elim (.error .indexError) .ok

/-- `A.reshape((1, m))`: the elements row by row, in one row. -/
def reshapeRow (A : Columns rows α) (m : ℕ) : Except NumericError (Columns 1 α) :=
  if rows * A.length = m then
    .ok (((List.finRange rows).flatMap fun i => A.map fun column => column i).map fun x _ => x)
  else
    .error .valueError

/-- `m / n`: the exact quotient, rounded once. -/
def truediv (m n : ℕ) : Except NumericError ℚ :=
  if n = 0 then .error .zeroDivisionError
  else if toDouble (m / n) < 2 ^ 1024 then .ok (toDouble (m / n))
  else .error .overflowError

def miniBatch (shuffledX : List α) (shuffledY : List β) (start stop : ℕ) : List α × List β :=
  (slice shuffledX start stop, slice shuffledY start stop)

/-- Step 2, with the end case. -/
def partition (shuffledX : List α) (shuffledY : List β) (m miniBatchSize numCompleteMinibatches : ℕ) :
    List (List α × List β) :=
  let miniBatches := (List.range numCompleteMinibatches).map fun k =>
    miniBatch shuffledX shuffledY (miniBatchSize * k) (miniBatchSize * (k + 1))
  if m % miniBatchSize ≠ 0 then
    miniBatches ++ [miniBatch shuffledX shuffledY (miniBatchSize * numCompleteMinibatches) m]
  else
    miniBatches

/-- `permutation seed m` is what `np.random.permutation(m)` returns after `np.random.seed(seed)`. -/
def randomMiniBatches (permutation : Seed → ℕ → List ℕ) (X : Columns rows α) (Y : Columns rows' β)
    (miniBatchSize : ℕ) (seed : Seed) : Except NumericError (List (Columns rows α × Columns 1 β)) := do
  let m := X.length
  let permutation := permutation seed m
  let shuffledX ← columnsAt X permutation
  let shuffledY ← reshapeRow (← columnsAt Y permutation) m
  -- not negative, so the floor is a natural number
  let numCompleteMinibatches := ⌊← truediv m miniBatchSize⌋₊
  pure (partition shuffledX shuffledY m miniBatchSize numCompleteMinibatches)

/-- What is asked of the batches: together they have every column of `X` once, in any order, with the label
that it has in `Y`, and all of them are full but the last, which is not empty. -/
structure Partitions (X : List α) (Y : List β) (size : ℕ) (batches : List (List α × List β)) : Prop where
  aligned : ∀ batch ∈ batches, batch.1.length = batch.2.length
  rearranged : (batches.flatMap fun batch => batch.1.zip batch.2).Perm (X.zip Y)
  full : ∀ batch ∈ batches.dropLast, batch.1.length = size
  sized : ∀ batch ∈ batches, 0 < batch.1.length ∧ batch.1.length ≤ size

theorem Partitions.congr {X X' : List α} {Y Y' : List β} {size : ℕ} {batches : List (List α × List β)}
    (h : Partitions X Y size batches) (hperm : (X.zip Y).Perm (X'.zip Y')) :
    Partitions X' Y' size batches :=
  ⟨h.aligned, h.rearranged.trans hperm, h.full, h.sized⟩

/-! ### Shuffling -/

section shuffling

variable {A X : List α} {Y : List β} {indices : List ℕ}

theorem columnsAt_ok (h : ∀ j ∈ indices, j < A.length) :
    columnsAt A indices = .ok (indices.filterMap fun j => A[j]?) := by
  induction indices with
  | nil => rfl
  | cons j indices ih =>
    have hj := List.getElem?_eq_getElem (h j List.mem_cons_self)
    have hrest := ih fun i hi => h i (List.mem_cons_of_mem j hi)
    rw [columnsAt] at hrest ⊢
    rw [List.mapM_cons, hrest, List.filterMap_cons, hj]
    rfl

theorem length_columnsAt (h : ∀ j ∈ indices, j < A.length) :
    (indices.filterMap fun j => A[j]?).length = indices.length := by
  induction indices with
  | nil => rfl
  | cons j indices ih =>
    have hj := List.getElem?_eq_getElem (h j List.mem_cons_self)
    rw [List.filterMap_cons, hj, List.length_cons, List.length_cons,
      ih fun i hi => h i (List.mem_cons_of_mem j hi)]

theorem zip_columnsAt (hX : ∀ j ∈ indices, j < X.length) (hY : ∀ j ∈ indices, j < Y.length) :
    (indices.filterMap fun j => X[j]?).zip (indices.filterMap fun j => Y[j]?) =
      indices.filterMap fun j => (X.zip Y)[j]? := by
  induction indices with
  | nil => rfl
  | cons j indices ih =>
    have hjX := hX j List.mem_cons_self
    have hjY := hY j List.mem_cons_self
    have hj : (X.zip Y)[j]? = some (X[j], Y[j]) := by
      rw [List.getElem?_zip_eq_some, List.getElem?_eq_getElem hjX, List.getElem?_eq_getElem hjY]
      exact ⟨rfl, rfl⟩
    rw [List.filterMap_cons, List.filterMap_cons, List.filterMap_cons, hj, List.getElem?_eq_getElem hjX,
      List.getElem?_eq_getElem hjY]
    exact congrArg _ (ih (fun i hi => hX i (List.mem_cons_of_mem j hi)) fun i hi =>
      hY i (List.mem_cons_of_mem j hi))

theorem filterMap_getElem?_range (A : List α) :
    ((List.range A.length).filterMap fun j => A[j]?) = A := by
  induction A with
  | nil => rfl
  | cons a A ih =>
    rw [List.length_cons, List.range_succ_eq_map, List.filterMap_cons, List.getElem?_cons_zero,
      List.filterMap_map]
    exact congrArg (a :: ·) ih

theorem reshapeRow_ok (Y : Columns 1 β) : reshapeRow Y Y.length = .ok Y := by
  have hcolumn : (Y.map fun column => column 0).map (fun (y : β) (_ : Fin 1) => y) = Y := by
    rw [List.map_map]
    refine (List.map_congr_left fun column _ => ?_).trans (List.map_id Y)
    funext i
    rw [Subsingleton.elim i 0]
    rfl
  have hrow : ((List.finRange 1).flatMap fun i => Y.map fun column => column i) =
      Y.map fun column => column 0 := List.flatMap_singleton _ 0
  rw [reshapeRow, if_pos (Nat.one_mul _), hrow, hcolumn]

end shuffling

/-! ### Cutting -/

section cutting

variable {shuffledX : List α} {shuffledY : List β} {m size num : ℕ} {batch : List α × List β}

theorem length_miniBatch (hX : shuffledX.length = m) (start stop : ℕ) :
    (miniBatch shuffledX shuffledY start stop).1.length = min stop m - start := by
  rw [miniBatch, length_slice_nat, hX]

theorem mem_partition :
    batch ∈ partition shuffledX shuffledY m size num ↔
      (∃ k < num, batch = miniBatch shuffledX shuffledY (size * k) (size * (k + 1))) ∨
        m % size ≠ 0 ∧ batch = miniBatch shuffledX shuffledY (size * num) m := by
  have hcomplete : (batch ∈ (List.range num).map fun k =>
      miniBatch shuffledX shuffledY (size * k) (size * (k + 1))) ↔
      ∃ k < num, batch = miniBatch shuffledX shuffledY (size * k) (size * (k + 1)) := by
    simp only [List.mem_map, List.mem_range, eq_comm]
  unfold partition
  split
  · next hrest => rw [List.mem_append, hcomplete, List.mem_singleton, and_iff_right hrest]
  · next hrest => rw [hcomplete, or_iff_left fun h => hrest h.1]

theorem mem_dropLast_partition (h : batch ∈ (partition shuffledX shuffledY m size num).dropLast) :
    ∃ k < num, batch = miniBatch shuffledX shuffledY (size * k) (size * (k + 1)) := by
  unfold partition at h
  split at h
  · rw [List.dropLast_concat, List.mem_map] at h
    obtain ⟨k, hk, rfl⟩ := h
    exact ⟨k, List.mem_range.mp hk, rfl⟩
  · obtain ⟨k, hk, rfl⟩ := List.mem_map.mp (List.mem_of_mem_dropLast h)
    exact ⟨k, List.mem_range.mp hk, rfl⟩

theorem flatMap_partition (shuffledX : List α) (shuffledY : List β) (m size num : ℕ) :
    ((partition shuffledX shuffledY m size num).flatMap fun batch => batch.1.zip batch.2) =
      (shuffledX.zip shuffledY).take (size * num) ++
        if m % size ≠ 0 then slice (shuffledX.zip shuffledY) (size * num : ℕ) m else [] := by
  have hcomplete : (((List.range num).map fun k =>
      miniBatch shuffledX shuffledY (size * k) (size * (k + 1))).flatMap
        fun batch => batch.1.zip batch.2) = (shuffledX.zip shuffledY).take (size * num) := by
    rw [List.flatMap_map, ← flatMap_slice_range]
    refine congrArg (List.flatMap · (List.range num)) (funext fun k => ?_)
    exact zip_slice shuffledX shuffledY _ _
  unfold partition
  split
  · rw [List.flatMap_append, hcomplete, List.flatMap_singleton]
    exact congrArg _ (zip_slice shuffledX shuffledY _ _)
  · rw [hcomplete, List.append_nil]

theorem flatMap_partition_quotient (hX : shuffledX.length = m) (hY : shuffledY.length = m) :
    ((partition shuffledX shuffledY m size (m / size)).flatMap fun batch => batch.1.zip batch.2) =
      shuffledX.zip shuffledY := by
  have hlen : (shuffledX.zip shuffledY).length = m := by rw [List.length_zip, hX, hY, Nat.min_self]
  have hall : (shuffledX.zip shuffledY).take m = shuffledX.zip shuffledY := by
    rw [← hlen, List.take_length]
  have hparts := Nat.div_add_mod m size
  rw [flatMap_partition]
  split
  · rw [take_append_slice (Nat.mul_div_le m size), hall]
  · next hrest =>
    have hwhole : size * (m / size) = m := by omega
    rw [hwhole, hall, List.append_nil]

theorem partitions_quotient (hsize : 1 ≤ size) (hX : shuffledX.length = m) (hY : shuffledY.length = m) :
    Partitions shuffledX shuffledY size (partition shuffledX shuffledY m size (m / size)) := by
  have hparts := Nat.div_add_mod m size
  have hrest := Nat.mod_lt m hsize
  have hcomplete : ∀ k < m / size,
      (miniBatch shuffledX shuffledY (size * k) (size * (k + 1))).1.length = size := by
    intro k hk
    have hle : size * (k + 1) ≤ size * (m / size) := Nat.mul_le_mul_left size hk
    rw [length_miniBatch hX, Nat.min_eq_left (by omega), Nat.mul_succ, Nat.add_sub_cancel_left]
  refine ⟨?_, ?_, ?_, ?_⟩
  · intro batch h
    have hsame : ∀ start stop, (miniBatch shuffledX shuffledY start stop).1.length =
        (miniBatch shuffledX shuffledY start stop).2.length := by
      intro start stop
      rw [length_miniBatch hX, miniBatch, length_slice_nat, hY]
    rcases mem_partition.mp h with ⟨k, -, rfl⟩ | ⟨-, rfl⟩
    · exact hsame _ _
    · exact hsame _ _
  · rw [flatMap_partition_quotient hX hY]
  · intro batch h
    obtain ⟨k, hk, rfl⟩ := mem_dropLast_partition h
    exact hcomplete k hk
  · intro batch h
    rcases mem_partition.mp h with ⟨k, hk, rfl⟩ | ⟨hleft, rfl⟩
    · rw [hcomplete k hk]
      exact ⟨hsize, le_rfl⟩
    · rw [length_miniBatch hX, Nat.min_self]
      omega

theorem num_eq_quotient (hsize : 1 ≤ size) (hX : shuffledX.length = m) (hY : shuffledY.length = m)
    (h : Partitions shuffledX shuffledY size (partition shuffledX shuffledY m size num)) :
    num = m / size := by
  have hparts := Nat.div_add_mod m size
  have hrest := Nat.mod_lt m hsize
  have hlen := h.rearranged.length_eq
  rw [flatMap_partition, List.length_append, List.length_take, List.length_zip, hX, hY, Nat.min_self] at hlen
  rcases lt_trichotomy num (m / size) with hlt | heq | hgt
  · have hle := Nat.mul_le_mul_left size (Nat.succ_le_of_lt hlt)
    rw [Nat.mul_succ] at hle
    by_cases hleft : m % size = 0
    · rw [if_neg (not_not_intro hleft), List.length_nil] at hlen
      omega
    · have hlast := (h.sized _ (mem_partition.mpr (Or.inr ⟨hleft, rfl⟩))).2
      rw [length_miniBatch hX, Nat.min_self] at hlast
      omega
  · exact heq
  · have hle := Nat.mul_le_mul_left size (Nat.succ_le_of_lt hgt)
    rw [Nat.mul_succ] at hle
    by_cases hleft : m % size = 0
    · have hnext := (h.sized _ (mem_partition.mpr (Or.inl ⟨m / size, hgt, rfl⟩))).1
      rw [length_miniBatch hX] at hnext
      omega
    · have hlast := (h.sized _ (mem_partition.mpr (Or.inr ⟨hleft, rfl⟩))).1
      rw [length_miniBatch hX, Nat.min_self] at hlast
      omega

end cutting

/-! ### The number of complete batches -/

theorem floor_truediv_iff {m n : ℕ} (hn : 1 ≤ n) :
    (∃ x, truediv m n = .ok x ∧ ⌊x⌋₊ = m / n) ↔ FloorExact m n ∧ (m / n).size ≤ 1024 := by
  have hnonneg : 0 ≤ (m : ℚ) / n := by positivity
  have hrange := toDouble_lt_two_pow_iff hnonneg 1024
  rw [truediv, if_neg (by omega), ← floor_toDouble_div_iff hn]
  constructor
  · intro h
    obtain ⟨x, hx, hfloor⟩ := h
    split at hx
    · next hlt =>
      cases hx
      rw [hrange, hfloor] at hlt
      exact ⟨hfloor, hlt⟩
    · cases hx
  · intro h
    obtain ⟨hfloor, hlt⟩ := h
    rw [← hfloor, ← hrange] at hlt
    exact ⟨_, if_pos hlt, hfloor⟩

/-! ### The function -/

section function

variable {permutation : Seed → ℕ → List ℕ} {X : Columns rows α} {Y : Columns 1 β} {miniBatchSize : ℕ}
  {seed : Seed}

theorem randomMiniBatches_shuffled (hlen : X.length = Y.length)
    (hperm : (permutation seed X.length).Perm (List.range X.length)) :
    ∃ (shuffledX : Columns rows α) (shuffledY : Columns 1 β),
      shuffledX.length = X.length ∧ shuffledY.length = X.length ∧
      (shuffledX.zip shuffledY).Perm (X.zip Y) ∧
      randomMiniBatches permutation X Y miniBatchSize seed = truediv X.length miniBatchSize >>= fun x =>
        .ok (partition shuffledX shuffledY X.length miniBatchSize ⌊x⌋₊) := by
  have hX : ∀ j ∈ permutation seed X.length, j < X.length := fun j hj =>
    List.mem_range.mp (hperm.mem_iff.mp hj)
  have hY : ∀ j ∈ permutation seed X.length, j < Y.length := hlen ▸ hX
  have hlenX := length_columnsAt hX
  have hlenY := length_columnsAt hY
  rw [hperm.length_eq, List.length_range] at hlenX hlenY
  have hreshape := reshapeRow_ok ((permutation seed X.length).filterMap fun j => Y[j]?)
  rw [hlenY] at hreshape
  refine ⟨_, _, hlenX, hlenY, ?_, ?_⟩
  · have hzip : (X.zip Y).length = X.length := by rw [List.length_zip, ← hlen, Nat.min_self]
    have hall := filterMap_getElem?_range (X.zip Y)
    rw [hzip] at hall
    rw [zip_columnsAt hX hY]
    exact (hperm.filterMap _).trans (List.Perm.of_eq hall)
  · unfold randomMiniBatches
    simp only [columnsAt_ok hX, columnsAt_ok hY, hreshape, ok_bind, pure_eq_ok]

theorem partitions_iff_num (hlen : X.length = Y.length) (hsize : 1 ≤ miniBatchSize)
    (hperm : (permutation seed X.length).Perm (List.range X.length)) :
    (∃ batches, randomMiniBatches permutation X Y miniBatchSize seed = .ok batches ∧
      Partitions X Y miniBatchSize batches) ↔
      ∃ x, truediv X.length miniBatchSize = .ok x ∧ ⌊x⌋₊ = X.length / miniBatchSize := by
  obtain ⟨shuffledX, shuffledY, hlenX, hlenY, hshuffled, hrun⟩ := randomMiniBatches_shuffled hlen hperm
  rw [hrun]
  constructor
  · intro h
    obtain ⟨batches, hok, hbatches⟩ := h
    obtain ⟨x, hx, hok⟩ := exists_of_bind_eq_ok hok
    cases hok
    exact ⟨x, hx, num_eq_quotient hsize hlenX hlenY (hbatches.congr hshuffled.symm)⟩
  · intro h
    obtain ⟨x, hx, hnum⟩ := h
    refine ⟨_, by rw [hx, ok_bind], ?_⟩
    rw [hnum]
    exact (partitions_quotient hsize hlenX hlenY).congr hshuffled

theorem randomMiniBatches_iff (hlen : X.length = Y.length) (hsize : 1 ≤ miniBatchSize)
    (hperm : (permutation seed X.length).Perm (List.range X.length)) :
    (∃ batches, randomMiniBatches permutation X Y miniBatchSize seed = .ok batches ∧
      Partitions X Y miniBatchSize batches) ↔
      FloorExact X.length miniBatchSize ∧ (X.length / miniBatchSize).size ≤ 1024 := by
  rw [partitions_iff_num hlen hsize hperm, floor_truediv_iff hsize]

/-- Rounding does no harm below `2 ^ 53` examples; no address space holds a list of more. -/
theorem randomMiniBatches_partitions (hlen : X.length = Y.length) (hsize : 1 ≤ miniBatchSize)
    (hperm : (permutation seed X.length).Perm (List.range X.length)) (hm : X.length < 2 ^ 53) :
    ∃ batches, randomMiniBatches permutation X Y miniBatchSize seed = .ok batches ∧
      Partitions X Y miniBatchSize batches := by
  have hdigits : (X.length / miniBatchSize).size ≤ 53 := Nat.size_le.mpr ((Nat.div_le_self _ _).trans_lt hm)
  exact (randomMiniBatches_iff hlen hsize hperm).mpr ⟨floorExact_of_lt hsize hm, hdigits.trans (by decide)⟩

/-- Three examples, in batches of two. -/
theorem randomMiniBatches_partitions_example :
    ∃ batches, randomMiniBatches (fun _ m => (List.range m).reverse) [![1, 2], ![3, 4], ![5, 6]]
        [![false], ![true], ![false]] 2 0 = .ok batches ∧
      Partitions [![1, 2], ![3, 4], ![5, 6]] [![false], ![true], ![false]] 2 batches :=
  randomMiniBatches_partitions rfl (by decide) (List.reverse_perm _) (by decide)

end function

end CodingForFun.Assign4Optimization
