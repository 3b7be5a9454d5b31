import CodingForFun.Lib.Cells

/-!
# The B-tree of `btree.c`

The nodes live in a heap: `malloc` puts a node at its end, and a pointer is `NULL` (`none`) or the
position of a node. A node has `M - 1` cells for keys and `M` for pointers, which hold values up to
its `n` only. The functions follow their C namesakes statement by statement; `upKey` and `newnode`,
which `insertHelper` returns through pointers, are there when its result is `InsertIt`. What is
written to the output file is left out, apart from the keys that `traverse` prints.
-/

namespace CodingForFun.Btree

open Lib

/-- `M` -/
abbrev M : ℕ := 5

/-- `struct node *` -/
abbrev Ptr := Option ℕ

/-- `struct node` -/
structure NODE where
  n : ℕ
  keys : Cells Int
  p : Cells Ptr
  deriving DecidableEq, Repr

/-- The nodes allocated so far. -/
abbrev Heap := List NODE

/-- `enum KeyStatus` -/
inductive KeyStatus
  | duplicate
  | searchFailure
  | success
  | insertIt
  | lessKeys
  deriving DecidableEq, Repr

/-- `*ptr` -/
def deref (heap : Heap) (ptr : ℕ) : Except Fault NODE :=
  match heap[ptr]? with
  | some node => .ok node
  | none => .error .outOfBounds

/-- `searchPos` -/
def searchPos (key : Int) (keyArr : Cells Int) (n : ℕ) : Except Fault ℕ :=
  whileM .unbounded
    (fun pos => if pos < n then do
      let k ← keyArr.read pos
      pure (decide (key > k))
    else pure false)
    (fun pos => pure (pos + 1)) (n + 1) 0

/-- `for (…; i>pos; i--)`: the keys and the pointers after `pos` move one cell to the right. -/
def shiftRight (pos : ℕ) : ℕ → NODE → Except Fault NODE
  | 0, node => pure node
  | i + 1, node =>
    if i + 1 > pos then do
      let k ← node.keys.read i
      let keys ← node.keys.write (i + 1) k
      let q ← node.p.read (i + 1)
      let p ← node.p.write (i + 2) q
      shiftRight pos i ⟨node.n, keys, p⟩
    else pure node

/-- The shift that starts at `i`, and the new key and pointer at `pos`. -/
def placeKey (node : NODE) (i pos : ℕ) (newKey : Int) (newPtr : Ptr) : Except Fault NODE := do
  let node ← shiftRight pos i node
  let keys ← node.keys.write pos newKey
  let p ← node.p.write (pos + 1) newPtr
  pure ⟨node.n, keys, p⟩

/-- The key and the pointer that do not fit into a full node: the new ones, or the last ones, to make
room for the new ones. -/
def spill (node : NODE) (pos : ℕ) (newKey : Int) (newPtr : Ptr) : Except Fault (NODE × Int × Ptr) :=
  if pos = M - 1 then
    pure (node, newKey, newPtr)
  else do
    let lastKey ← node.keys.read (M - 2)
    let lastPtr ← node.p.read (M - 1)
    let node ← placeKey node (M - 2) pos newKey newPtr
    pure (node, lastKey, lastPtr)

/-- `splitPos` -/
abbrev splitPos : ℕ := (M - 1) / 2

/-- The body of the loop that fills `*newnode`. -/
def copyToRight (node : NODE) (lastKey : Int) (newnode : NODE) (i : ℕ) : Except Fault NODE := do
  let q ← node.p.read (i + splitPos + 1)
  let p ← newnode.p.write i q
  if i < newnode.n - 1 then
    let k ← node.keys.read (i + splitPos + 1)
    let keys ← newnode.keys.write i k
    pure ⟨newnode.n, keys, p⟩
  else
    let keys ← newnode.keys.write i lastKey
    pure ⟨newnode.n, keys, p⟩

/-- The split of a full node: the left half, `*upKey`, and the right half `**newnode`. -/
def splitNode (node : NODE) (lastKey : Int) (lastPtr : Ptr) : Except Fault (NODE × Int × NODE) := do
  let upKey ← node.keys.read splitPos
  let newnode : NODE := ⟨M - 1 - splitPos, Cells.malloc (M - 1), Cells.malloc M⟩
  let newnode ← (List.range newnode.n).foldlM (copyToRight node lastKey) newnode
  let p ← newnode.p.write newnode.n lastPtr
  pure (⟨splitPos, node.keys, node.p⟩, upKey, ⟨newnode.n, newnode.keys, p⟩)

/-- What `insertHelper` does with a new key and a new child from below: `pos` is the position of the
child that it came from and `n` the number of keys. -/
def addKey (heap : Heap) (ptr n pos : ℕ) (newKey : Int) (newPtr : Ptr) :
    Except Fault (Heap × KeyStatus × Option (Int × Ptr)) := do
  let node ← deref heap ptr
  if n < M - 1 then
    let pos ← searchPos newKey node.keys n
    let node ← placeKey node n pos newKey newPtr
    pure (heap.set ptr ⟨node.n + 1, node.keys, node.p⟩, .success, none)
  else
    let (node, lastKey, lastPtr) ← spill node pos newKey newPtr
    let (left, upKey, newnode) ← splitNode node lastKey lastPtr
    pure (heap.set ptr left ++ [newnode], .insertIt, some (upKey, some heap.length))

/-- `pos < n && key == ptr->keys[pos]` -/
def isDuplicate (key : Int) (keyArr : Cells Int) (n pos : ℕ) : Except Fault Bool :=
  if pos < n then do
    let k ← keyArr.read pos
    pure (decide (key = k))
  else pure false

/-- What `insertHelper` does after the call on child `pos`, with its own `n`. -/
def afterCall (ptr n pos : ℕ) :
    Heap × KeyStatus × Option (Int × Ptr) → Except Fault (Heap × KeyStatus × Option (Int × Ptr))
  | (heap, .insertIt, some (newKey, newPtr)) => addKey heap ptr n pos newKey newPtr
  | (_, .insertIt, none) => .error .uninitialised
  | (heap, value, _) => pure (heap, value, none)

/-- `insertHelper`: the heap it leaves, its result, and `*upKey` and `*newnode`. -/
def insertHelper : ℕ → Heap → Ptr → Int → Except Fault (Heap × KeyStatus × Option (Int × Ptr))
  | 0, _, _, _ => .error .unbounded
  | _ + 1, heap, none, key => pure (heap, .insertIt, some (key, none))
  | fuel + 1, heap, some ptr, key => do
    let node ← deref heap ptr
    let n := node.n
    let pos ← searchPos key node.keys n
    let duplicate ← isDuplicate key node.keys n pos
    if duplicate then
      pure (heap, .duplicate, none)
    else
      let child ← node.p.read pos
      let result ← insertHelper fuel heap child key
      afterCall ptr n pos result

/-- The heap and the global `root`. -/
structure State where
  heap : Heap
  root : Ptr
  deriving DecidableEq, Repr

/-- `insert`. The recursion goes through no more nodes than there are. -/
def insert (st : State) (key : Int) : Except Fault State := do
  let (heap, value, new) ← insertHelper (st.heap.length + 1) st.heap st.root key
  match value, new with
  | .insertIt, none => .error .uninitialised
  | .insertIt, some (upKey, newnode) =>
    let keys ← (Cells.malloc (M - 1)).write 0 upKey
    let p ← (Cells.malloc M).write 0 st.root
    let p ← p.write 1 newnode
    pure ⟨heap ++ [⟨1, keys, p⟩], some heap.length⟩
  | _, _ => pure ⟨heap, st.root⟩

/-- Calls of `insert`, from `root == NULL`. -/
def insertAll (keys : List Int) : Except Fault State := keys.foldlM insert ⟨[], none⟩

/-- `traverse`: the keys it prints. -/
def traverse : ℕ → Heap → Ptr → Except Fault (List Int)
  | 0, _, _ => .error .unbounded
  | _ + 1, _, none => pure []
  | fuel + 1, heap, some ptr => do
    let node ← deref heap ptr
    let out ← (List.range node.n).foldlM (fun out i => do
      let child ← node.p.read i
      let sub ← traverse fuel heap child
      let k ← node.keys.read i
      pure (out ++ sub ++ [k])) []
    let child ← node.p.read node.n
    let sub ← traverse fuel heap child
    pure (out ++ sub)

end CodingForFun.Btree
