import CodingForFun.Lib.Sequence
import CodingForFun.Lib.SearchTree
import CodingForFun.Lib.Writes

/-!
# `distrowcolumn`

The function of `src/careercup/binarytreecolumnwise.py` and the loops behind it. Both children of a node are
put into the next column, so a column is a depth of the tree, and the row is the number of steps to the right
less the one of steps to the left. Two nodes of one depth with equally many steps to the right are stored
under the same key, and only one of them is printed (`columnwise_perm_iff`).
-/

namespace CodingForFun.Binarytreecolumnwise

open Lib Sequence SearchTree

variable {α : Type}

/-- `weights`, by column and row. -/
abbrev Weights (α : Type) := Dict ℤ (Dict ℤ α)

/-- `weights[col][row] = val` -/
def setWeight (weights : Weights α) (col row : ℤ) (val : α) : Except PyError (Weights α) := do
  let column ← weights.getItem col
  pure (weights.setItem col (column.setItem row val))

def distrowcolumn : BinaryTree α → ℤ → ℤ → Weights α → Except PyError (Weights α)
  | .nil, _, _, weights => pure weights
  | .node val left right, col, row, weights => do
    let weights := if col ∉ weights then weights.setItem col ∅ else weights
    let weights ← distrowcolumn left (col - 1) (row - 1) weights
    let weights ← setWeight weights col row val
    distrowcolumn right (col - 1) (row + 1) weights

/-- `print weights[col][row]` -/
def printWeight (weights : Weights α) (col : ℤ) (out : List α) (row : ℤ) : Except PyError (List α) := do
  let column ← weights.getItem col
  pure (out ++ [← column.getItem row])

/-- `for row in sorted(weights[col].keys()): print weights[col][row]` -/
def printColumn (weights : Weights α) (out : List α) (col : ℤ) : Except PyError (List α) := do
  let column ← weights.getItem col
  (sorted column.keys).foldlM (printWeight weights col) out

/-- What the last lines of the file print for a tree. -/
def columnwise (tree : BinaryTree α) : Except PyError (List α) := do
  let weights ← distrowcolumn tree 0 0 ∅
  (sorted weights.keys).foldlM (printColumn weights) []

/-- The ways down to the nodes, `true` for a step to the right, in the order in which they are stored. -/
def paths : BinaryTree α → List (List Bool)
  | .nil => []
  | .node _ left right => (paths left).map (false :: ·) ++ [] :: (paths right).map (true :: ·)

/-! ### What is stored -/

/-- The value in a column and a row. -/
def weight (weights : Weights α) (k : ℤ × ℤ) : Option α := (weights.lookup k.1).bind fun column => column.lookup k.2

variable {weights : Weights α} {col row c r : ℤ} {val : α}

theorem weight_setItem_empty (h : col ∉ weights) : weight (weights.setItem col ∅) = weight weights := by
  funext k
  rw [weight, weight, Dict.setItem]
  by_cases hk : k.1 = col
  · rw [hk, AList.lookup_insert, AList.lookup_eq_none.mpr h, Option.bind_some, AList.lookup_empty, Option.bind_none]
  · rw [AList.lookup_insert_ne hk]

theorem setWeight_ok (h : col ∈ weights) (row : ℤ) (val : α) :
    ∃ weights', setWeight weights col row val = .ok weights' ∧
      weight weights' = Function.update (weight weights) (col, row) (some val) ∧
      ∀ c ∈ weights, c ∈ weights' := by
  obtain ⟨column, hlookup, hcolumn⟩ := Dict.getItem_of_mem h
  refine ⟨weights.setItem col (column.setItem row val), ?_, ?_, ?_⟩
  · rw [setWeight, hcolumn]
    rfl
  · funext ⟨c, r⟩
    rw [weight, Dict.setItem]
    by_cases hc : c = col
    · subst hc
      rw [AList.lookup_insert, Option.bind_some, Dict.setItem]
      by_cases hr : r = row
      · rw [hr, AList.lookup_insert, Function.update_self]
      · rw [AList.lookup_insert_ne hr, Function.update_of_ne (by simp [hr]), weight, hlookup, Option.bind_some]
    · rw [AList.lookup_insert_ne hc, Function.update_of_ne (by simp [hc]), weight]
  · intro c hc
    rw [Dict.setItem, AList.mem_insert]
    exact .inr hc

/-- The writes of a call, from the left to the right. -/
def writes : BinaryTree α → ℤ → ℤ → List ((ℤ × ℤ) × α)
  | .nil, _, _ => []
  | .node val left right, col, row =>
    writes left (col - 1) (row - 1) ++ ((col, row), val) :: writes right (col - 1) (row + 1)

theorem distrowcolumn_ok (tree : BinaryTree α) (col row : ℤ) (weights : Weights α) :
    ∃ weights', distrowcolumn tree col row weights = .ok weights' ∧
      weight weights' = written (weight weights) (writes tree col row) ∧ ∀ c ∈ weights, c ∈ weights' := by
  induction tree generalizing col row weights with
  | nil => exact ⟨weights, rfl, rfl, fun _ hc => hc⟩
  | node val left right ihl ihr =>
    have hcolumn : ∃ weights₀, (if col ∉ weights then weights.setItem col ∅ else weights) = weights₀ ∧
        weight weights₀ = weight weights ∧ col ∈ weights₀ ∧ ∀ c ∈ weights, c ∈ weights₀ := by
      by_cases hcol : col ∈ weights
      · exact ⟨weights, if_neg (not_not.mpr hcol), rfl, hcol, fun _ hc => hc⟩
      · refine ⟨_, if_pos hcol, weight_setItem_empty hcol, ?_, fun c hc => ?_⟩
        · exact (AList.mem_insert _).mpr (.inl rfl)
        · exact (AList.mem_insert _).mpr (.inr hc)
    obtain ⟨weights₀, hweights₀, hsame, hcol, hkeep₀⟩ := hcolumn
    obtain ⟨weights₁, hleft, hwrites₁, hkeep₁⟩ := ihl (col - 1) (row - 1) weights₀
    obtain ⟨weights₂, hset, hwrites₂, hkeep₂⟩ := setWeight_ok (hkeep₁ col hcol) row val
    obtain ⟨weights₃, hright, hwrites₃, hkeep₃⟩ := ihr (col - 1) (row + 1) weights₂
    refine ⟨weights₃, ?_, ?_, fun c hc => hkeep₃ c (hkeep₂ c (hkeep₁ c (hkeep₀ c hc)))⟩
    · rw [distrowcolumn, hweights₀, hleft, ok_bind, hset, ok_bind, hright]
    · rw [hwrites₃, hwrites₂, hwrites₁, hsame, writes, written_append, written_cons]

/-! ### What is printed -/

/-- The keys of a column, by row. -/
def columnKeys (weights : Weights α) (col : ℤ) : List (ℤ × ℤ) :=
  match weights.lookup col with
  | some column => (sorted column.keys).map fun row => (col, row)
  | none => []

/-- All keys in the order in which they are printed. -/
def printedKeys (weights : Weights α) : List (ℤ × ℤ) := (sorted weights.keys).flatMap (columnKeys weights)

theorem sorted_perm (l : List ℤ) : (sorted l).Perm l := List.mergeSort_perm l _

theorem mem_columnKeys {k : ℤ × ℤ} :
    k ∈ columnKeys weights col ↔ k.1 = col ∧ (weight weights k).isSome := by
  obtain ⟨c, r⟩ := k
  rw [columnKeys, weight]
  cases hlookup : weights.lookup col with
  | none =>
    simp only [List.not_mem_nil, false_iff, not_and]
    rintro rfl
    simp [hlookup]
  | some column =>
    simp only [List.mem_map, (sorted_perm _).mem_iff, Prod.mk.injEq]
    constructor
    · intro h
      obtain ⟨row, hrow, rfl, rfl⟩ := h
      rw [hlookup, Option.bind_some, AList.lookup_isSome, AList.mem_keys]
      exact ⟨rfl, hrow⟩
    · intro h
      obtain ⟨rfl, hsome⟩ := h
      rw [hlookup, Option.bind_some, AList.lookup_isSome, AList.mem_keys] at hsome
      exact ⟨r, hsome, rfl, rfl⟩

theorem nodup_printedKeys (weights : Weights α) : (printedKeys weights).Nodup := by
  rw [printedKeys, List.nodup_flatMap]
  constructor
  · intro col _
    rw [columnKeys]
    cases weights.lookup col with
    | none => exact List.nodup_nil
    | some column =>
      apply List.Nodup.map (fun row row' h => (Prod.mk.inj h).2)
      exact (sorted_perm _).nodup_iff.mpr column.keys_nodup
  · apply ((sorted_perm _).nodup_iff.mpr weights.keys_nodup).imp
    intro c c' hne k hk hk'
    exact hne ((mem_columnKeys.mp hk).1.symm.trans (mem_columnKeys.mp hk').1)

theorem mem_printedKeys {k : ℤ × ℤ} : k ∈ printedKeys weights ↔ (weight weights k).isSome := by
  rw [printedKeys, List.mem_flatMap]
  constructor
  · intro h
    obtain ⟨col, -, hk⟩ := h
    exact (mem_columnKeys.mp hk).2
  · intro hk
    refine ⟨k.1, ?_, mem_columnKeys.mpr ⟨rfl, hk⟩⟩
    rw [(sorted_perm _).mem_iff, ← AList.mem_keys, ← AList.lookup_isSome]
    rw [weight] at hk
    cases hlookup : weights.lookup k.1 with
    | none => simp [hlookup] at hk
    | some column => rfl

/-- `values` are what is stored under the keys. -/
def Reads (weights : Weights α) (keys : List (ℤ × ℤ)) (values : List α) : Prop :=
  values.map some = keys.map (weight weights)

theorem Reads.append {keys keys' : List (ℤ × ℤ)} {values values' : List α} (h : Reads weights keys values)
    (h' : Reads weights keys' values') : Reads weights (keys ++ keys') (values ++ values') := by
  rw [Reads, List.map_append, List.map_append, h, h']

theorem printColumn_ok (hcol : col ∈ weights) (out : List α) :
    ∃ values, printColumn weights out col = .ok (out ++ values) ∧
      Reads weights (columnKeys weights col) values := by
  obtain ⟨column, hlookup, hcolumn⟩ := Dict.getItem_of_mem hcol
  obtain ⟨out', hout', values, rfl, hreads⟩ := @foldlM_ok _ _ _ (printWeight weights col)
    (fun done out' => ∃ values, out' = out ++ values ∧ Reads weights (done.map fun row => (col, row)) values)
    (sorted column.keys) out ⟨[], (List.append_nil out).symm, rfl⟩ (by
      intro done row rest out' hdone hinv
      obtain ⟨values, rfl, hreads⟩ := hinv
      have hrow : row ∈ column := by
        rw [AList.mem_keys, ← (sorted_perm _).mem_iff, ← hdone]
        simp
      obtain ⟨val, hval, hget⟩ := Dict.getItem_of_mem hrow
      refine ⟨out ++ values ++ [val], ?_, values ++ [val], List.append_assoc _ _ _, ?_⟩
      · rw [printWeight, hcolumn, ok_bind, hget]
        rfl
      · rw [List.map_append]
        apply hreads.append
        rw [Reads, List.map_singleton, List.map_singleton, List.map_singleton, weight, hlookup, Option.bind_some,
          hval])
  refine ⟨values, ?_, ?_⟩
  · rw [printColumn, hcolumn, ok_bind, hout']
  · rwa [columnKeys, hlookup]

theorem printColumns_ok (weights : Weights α) :
    ∃ out, (sorted weights.keys).foldlM (printColumn weights) [] = .ok out ∧
      Reads weights (printedKeys weights) out := by
  apply foldlM_ok fun done out => Reads weights (done.flatMap (columnKeys weights)) out
  · rfl
  · intro done col rest out hdone hreads
    have hcol : col ∈ weights := by
      rw [AList.mem_keys, ← (sorted_perm _).mem_iff, ← hdone]
      simp
    obtain ⟨values, hvalues, hreads'⟩ := printColumn_ok hcol out
    refine ⟨_, hvalues, ?_⟩
    rw [List.flatMap_append, List.flatMap_singleton]
    exact hreads.append hreads'

/-! ### The keys of the nodes -/

/-- Where the node at the end of a path is stored. -/
def key (col row : ℤ) (path : List Bool) : ℤ × ℤ := (col - path.length, row + 2 * path.count true - path.length)

theorem map_snd_writes (tree : BinaryTree α) (col row : ℤ) :
    (writes tree col row).map Prod.snd = inorder tree := by
  induction tree generalizing col row with
  | nil => rfl
  | node val left right ihl ihr => rw [writes, List.map_append, List.map_cons, ihl, ihr, inorder_node]

theorem key_step (col row : ℤ) (path : List Bool) :
    key (col - 1) (row - 1) path = key col row (false :: path) ∧
      key (col - 1) (row + 1) path = key col row (true :: path) := by
  have hfalse : (false :: path).count true = path.count true := List.count_cons_of_ne (by decide)
  have htrue : (true :: path).count true = path.count true + 1 := List.count_cons_self
  constructor
  · rw [key, key, hfalse, List.length_cons, Prod.mk.injEq]
    omega
  · rw [key, key, htrue, List.length_cons, Prod.mk.injEq]
    omega

theorem map_fst_writes (tree : BinaryTree α) (col row : ℤ) :
    (writes tree col row).map Prod.fst = (paths tree).map (key col row) := by
  induction tree generalizing col row with
  | nil => rfl
  | node val left right ihl ihr =>
    have hroot : key col row [] = (col, row) := by simp [key]
    rw [writes, List.map_append, List.map_cons, ihl, ihr, paths, List.map_append, List.map_cons, List.map_map,
      List.map_map, hroot]
    congr 2
    · funext path
      exact (key_step col row path).1
    · congr 1
      funext path
      exact (key_step col row path).2

theorem nodup_paths (tree : BinaryTree α) : (paths tree).Nodup := by
  induction tree with
  | nil => exact List.nodup_nil
  | node val left right ihl ihr =>
    rw [paths, List.nodup_append, List.nodup_cons]
    refine ⟨ihl.map (List.cons_injective), ⟨?_, ihr.map (List.cons_injective)⟩, ?_⟩
    · simp
    · intro p hp q hq
      obtain ⟨p', -, rfl⟩ := List.mem_map.mp hp
      rcases List.mem_cons.mp hq with rfl | hq
      · exact List.cons_ne_nil _ _
      · obtain ⟨q', -, rfl⟩ := List.mem_map.mp hq
        intro h
        exact absurd (List.cons.inj h).1 (by decide)

theorem key_eq_iff {p q : List Bool} (col row : ℤ) :
    key col row p = key col row q ↔ p.length = q.length ∧ p.count true = q.count true := by
  rw [key, key, Prod.mk.injEq]
  omega

theorem columnwise_ok (tree : BinaryTree α) :
    ∃ out, columnwise tree = .ok out ∧
      (out.Perm (inorder tree) ↔ ((paths tree).map (key 0 0)).Nodup) := by
  obtain ⟨weights, hweights, hwritten, -⟩ := distrowcolumn_ok tree 0 0 (∅ : Weights α)
  obtain ⟨out, hout, hreads⟩ := printColumns_ok weights
  have hempty : weight (∅ : Weights α) = fun _ => none := by
    funext k
    rw [weight, AList.lookup_empty, Option.bind_none]
  rw [hempty] at hwritten
  refine ⟨out, ?_, ?_⟩
  · rw [columnwise, hweights, ok_bind, hout]
  · rw [← map_fst_writes, ← map_snd_writes tree 0 0]
    rw [Reads, hwritten] at hreads
    refine read_perm_iff (nodup_printedKeys weights) (fun k => ?_) hreads
    rw [mem_printedKeys, hwritten]

/-- All values of the tree are printed, each of them once, if and only if no two nodes are in one depth with
equally many steps to the right. -/
theorem columnwise_perm_iff (tree : BinaryTree α) :
    ∃ out, columnwise tree = .ok out ∧ (out.Perm (inorder tree) ↔
      ∀ p ∈ paths tree, ∀ q ∈ paths tree, p.length = q.length → p.count true = q.count true → p = q) := by
  obtain ⟨out, hout, hiff⟩ := columnwise_ok tree
  refine ⟨out, hout, hiff.trans ?_⟩
  rw [List.nodup_map_iff_inj_on (nodup_paths tree)]
  simp only [key_eq_iff, and_imp]

/-- The tree of the file. -/
def root : BinaryTree ℕ :=
  .node 1 (.node 2 (.node 4 .nil .nil) (.node 5 .nil .nil))
    (.node 3 (.node 6 .nil (.node 8 .nil .nil)) (.node 7 .nil .nil))

/-- The nodes 5 and 6 are stored under one key. -/
theorem not_columnwise_root : ¬∃ out, columnwise root = .ok out ∧ out.Perm (inorder root) := by
  intro h
  obtain ⟨out, hout, hperm⟩ := h
  obtain ⟨out', hout', hiff⟩ := columnwise_ok root
  obtain rfl : out = out' := Except.ok.inj (hout.symm.trans hout')
  exact absurd (hiff.mp hperm) (by decide)

end CodingForFun.Binarytreecolumnwise
