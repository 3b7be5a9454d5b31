import CodingForFun.Lib.Cells
import CodingForFun.Lib.Chain
import Mathlib.Data.Finset.Card
import Mathlib.Data.Finset.Range
import Mathlib.Data.List.Perm.Subperm
import Mathlib.Order.Basic

/-!
# Records on the heap

`Memory N` holds the records of one type that a program allocates, by their addresses. A null pointer,
an address that was never allocated and a record that has been freed cannot be followed.

For records that are linked into lists (`LinkedNode`), `Path p l q` says that the links lead from `p`
over the nodes `l`, written down with their values, to `q`: a list that ends for `q = none`, a ring for
`q = p`. A change of the memory off the nodes of a path does not matter (`Path.congr`), and a store to
its last node leads it elsewhere (`Path.redirect`).
-/

namespace CodingForFun.Lib

/-- The records on the heap. The addresses from `fresh` on have never been used. -/
structure Memory (N : Type) where
  node : ℕ → Option N
  fresh : ℕ
  unused : ∀ a, fresh ≤ a → node a = none

namespace Memory

variable {N : Type}

def empty : Memory N := ⟨fun _ => none, 0, fun _ _ => rfl⟩

/-- `malloc` or `new`, at the address `m.fresh`. -/
def alloc (m : Memory N) (n : N) : Memory N where
  node := Function.update m.node m.fresh (some n)
  fresh := m.fresh + 1
  unused := by
    intro a ha
    rw [Function.update_of_ne (Nat.ne_of_gt ha)]
    exact m.unused a (Nat.le_of_succ_le ha)

/-- The memory with the record at `a` changed, if there is one. -/
def update (m : Memory N) (a : ℕ) (f : N → N) : Memory N where
  node := Function.update m.node a ((m.node a).map f)
  fresh := m.fresh
  unused := by
    intro b hb
    by_cases hba : b = a
    · rw [hba, Function.update_self, m.unused a (hba ▸ hb)]
      rfl
    · rw [Function.update_of_ne hba]
      exact m.unused b hb

/-- The memory without the record at `a`. -/
def erase (m : Memory N) (a : ℕ) : Memory N where
  node := Function.update m.node a none
  fresh := m.fresh
  unused := by
    intro b hb
    by_cases hba : b = a
    · rw [hba, Function.update_self]
    · rw [Function.update_of_ne hba]
      exact m.unused b hb

/-- The record behind a pointer. -/
def read (m : Memory N) (p : Option ℕ) : Except Fault N :=
  match p.bind m.node with
  | none => .error .outOfBounds
  | some n => .ok n

/-- A store to the record behind a pointer. -/
def modify (m : Memory N) (p : Option ℕ) (f : N → N) : Except Fault (Memory N) := do
  let _ ← m.read p
  pure (p.elim m fun a => m.update a f)

/-- `free` or `delete`, which do nothing for a null pointer. -/
def free (m : Memory N) : Option ℕ → Except Fault (Memory N)
  | none => pure m
  | some a => do
    let _ ← m.read (some a)
    pure (m.erase a)

section lemmas

variable {m : Memory N} {a b : ℕ} {n : N} {f : N → N}

theorem read_some (h : m.node a = some n) : m.read (some a) = .ok n := by
  simp [read, h]

theorem read_none : m.read none = .error .outOfBounds := rfl

theorem modify_some (h : m.node a = some n) (f : N → N) :
    m.modify (some a) f = .ok (m.update a f) := by
  simp [modify, read_some h]

theorem free_some (h : m.node a = some n) : m.free (some a) = .ok (m.erase a) := by
  simp [free, read_some h]

theorem lt_fresh (h : m.node a = some n) : a < m.fresh := by
  by_contra hle
  rw [m.unused a (not_lt.mp hle)] at h
  exact absurd h (Option.some_ne_none n).symm

theorem length_le_fresh {as : List ℕ} (hnodup : as.Nodup) (h : ∀ a ∈ as, a < m.fresh) :
    as.length ≤ m.fresh := by
  have hsub : as ⊆ List.range m.fresh := fun a ha => List.mem_range.mpr (h a ha)
  have hle := (hnodup.subperm hsub).length_le
  rwa [List.length_range] at hle

theorem ne_fresh (h : m.node a = some n) : a ≠ m.fresh := (lt_fresh h).ne

@[simp] theorem fresh_alloc : (m.alloc n).fresh = m.fresh + 1 := rfl

@[simp] theorem fresh_update : (m.update a f).fresh = m.fresh := rfl

@[simp] theorem fresh_erase : (m.erase a).fresh = m.fresh := rfl

@[simp] theorem alloc_self : (m.alloc n).node m.fresh = some n := Function.update_self ..

theorem alloc_of_ne (h : a ≠ m.fresh) : (m.alloc n).node a = m.node a := Function.update_of_ne h ..

theorem alloc_of_some {n' : N} (h : m.node a = some n') : (m.alloc n).node a = some n' := by
  rw [alloc_of_ne (ne_fresh h), h]

@[simp] theorem update_self : (m.update a f).node a = (m.node a).map f := Function.update_self ..

theorem update_of_ne (h : b ≠ a) : (m.update a f).node b = m.node b := Function.update_of_ne h ..

@[simp] theorem erase_self : (m.erase a).node a = none := Function.update_self ..

theorem erase_of_ne (h : b ≠ a) : (m.erase a).node b = m.node b := Function.update_of_ne h ..

theorem update_congr {g : N → N} (h : m.node a = some n) (hfg : f n = g n) :
    m.update a f = m.update a g := by
  simp only [update, h, Option.map_some, hfg]

theorem update_comm (h : a ≠ b) (f g : N → N) :
    (m.update a f).update b g = (m.update b g).update a f := by
  simp only [update, Function.update_of_ne h, Function.update_of_ne h.symm, Function.update_comm h]

/-- The addresses of the records that are there. -/
def live (m : Memory N) : Finset ℕ := {a ∈ Finset.range m.fresh | (m.node a).isSome}

theorem mem_live : a ∈ m.live ↔ (m.node a).isSome = true := by
  rw [live, Finset.mem_filter, Finset.mem_range, and_iff_right_iff_imp]
  intro h
  obtain ⟨n, hn⟩ := Option.isSome_iff_exists.mp h
  exact lt_fresh hn

theorem card_live_alloc : (m.alloc n).live.card = m.live.card + 1 := by
  have hfresh : m.fresh ∉ m.live := by simp [mem_live, m.unused m.fresh le_rfl]
  rw [← Finset.card_insert_of_notMem hfresh]
  congr 1
  ext b
  rw [Finset.mem_insert, mem_live, mem_live]
  by_cases hb : b = m.fresh
  · simp [hb]
  · simp [hb, alloc_of_ne hb]

theorem card_live_erase (h : m.node a = some n) : (m.erase a).live.card + 1 = m.live.card := by
  have ha : a ∈ m.live := by simp [mem_live, h]
  rw [← Finset.card_erase_add_one ha]
  congr 2
  ext b
  rw [Finset.mem_erase, mem_live, mem_live]
  by_cases hb : b = a
  · simp [hb]
  · simp [hb, erase_of_ne hb]

end lemmas

end Memory

/-! ### Linked nodes -/

/-- Records with a link to the next one and a value. -/
class LinkedNode (N : Type) (V : outParam Type) where
  next : N → Option ℕ
  value : N → V
  setNext : N → Option ℕ → N
  next_setNext (n : N) (q : Option ℕ) : next (setNext n q) = q
  value_setNext (n : N) (q : Option ℕ) : value (setNext n q) = value n

namespace Memory

open LinkedNode

variable {N V : Type} [LinkedNode N V]

/-- The links lead from `p` over the nodes `l` with these values to `q`. -/
def Path (m : Memory N) : Option ℕ → List (ℕ × V) → Option ℕ → Prop
  | p, [], q => p = q
  | p, x :: l, q => p = some x.1 ∧ ∃ n, m.node x.1 = some n ∧ value n = x.2 ∧ Path m (next n) l q

section path

variable {m m' : Memory N} {p q r : Option ℕ} {l l₁ l₂ : List (ℕ × V)} {x : ℕ × V} {a : ℕ} {n : N}

@[simp] theorem path_nil : m.Path p ([] : List (ℕ × V)) q ↔ p = q := Iff.rfl

@[simp] theorem path_cons : m.Path p (x :: l) q ↔
    p = some x.1 ∧ ∃ n, m.node x.1 = some n ∧ value n = x.2 ∧ m.Path (next n) l q := Iff.rfl

theorem path_append : m.Path p (l₁ ++ l₂) q ↔ ∃ r, m.Path p l₁ r ∧ m.Path r l₂ q := by
  induction l₁ generalizing p with
  | nil => simp
  | cons x l₁ ih =>
    simp only [List.cons_append, path_cons, ih]
    constructor
    · intro h
      obtain ⟨hp, n, hn, hv, r, hfront, hback⟩ := h
      exact ⟨r, ⟨hp, n, hn, hv, hfront⟩, hback⟩
    · intro h
      obtain ⟨r, ⟨hp, n, hn, hv, hfront⟩, hback⟩ := h
      exact ⟨hp, n, hn, hv, r, hfront, hback⟩

theorem path_concat : m.Path p (l ++ [x]) q ↔
    m.Path p l (some x.1) ∧ ∃ n, m.node x.1 = some n ∧ value n = x.2 ∧ next n = q := by
  rw [path_append]
  constructor
  · intro h
    obtain ⟨r, hl, rfl, n, hn, hv, hq⟩ := h
    exact ⟨hl, n, hn, hv, hq⟩
  · intro h
    obtain ⟨hl, n, hn, hv, hq⟩ := h
    exact ⟨_, hl, rfl, n, hn, hv, hq⟩

theorem Path.start (h : m.Path p l q) : p = (l.head?.map Prod.fst).or q := by
  cases l with
  | nil => exact h
  | cons x l => exact h.1

theorem Path.start_ne_none (h : m.Path p (x :: l) q) : p ≠ none := by
  rw [h.1]
  exact Option.some_ne_none x.1

theorem Path.node (h : m.Path p l q) (hx : x ∈ l) : ∃ n, m.node x.1 = some n ∧ value n = x.2 := by
  induction l generalizing p with
  | nil => simp at hx
  | cons y l ih =>
    obtain ⟨-, n, hn, hv, hrest⟩ := h
    rcases List.mem_cons.mp hx with rfl | hx
    · exact ⟨n, hn, hv⟩
    · exact ih hrest hx

theorem Path.lt_fresh (h : m.Path p l q) (ha : a ∈ l.map Prod.fst) : a < m.fresh := by
  obtain ⟨x, hx, rfl⟩ := List.mem_map.mp ha
  obtain ⟨n, hn, -⟩ := h.node hx
  exact Memory.lt_fresh hn

theorem Path.congr (h : m.Path p l q) (hl : ∀ a ∈ l.map Prod.fst, m'.node a = m.node a) :
    m'.Path p l q := by
  induction l generalizing p with
  | nil => exact h
  | cons x l ih =>
    obtain ⟨hp, n, hn, hv, hrest⟩ := h
    refine ⟨hp, n, ?_, hv, ?_⟩
    · rw [hl x.1 List.mem_cons_self, hn]
    · exact ih hrest fun a ha => hl a (List.mem_cons_of_mem _ ha)

theorem Path.alloc (h : m.Path p l q) (n : N) : (m.alloc n).Path p l q := by
  apply h.congr
  intro a ha
  exact alloc_of_ne (h.lt_fresh ha).ne

theorem Path.update (h : m.Path p l q) (ha : a ∉ l.map Prod.fst) (f : N → N) :
    (m.update a f).Path p l q := by
  apply h.congr
  intro b hb
  exact update_of_ne (ne_of_mem_of_not_mem hb ha)

theorem Path.erase (h : m.Path p l q) (ha : a ∉ l.map Prod.fst) : (m.erase a).Path p l q := by
  apply h.congr
  intro b hb
  exact erase_of_ne (ne_of_mem_of_not_mem hb ha)

theorem Path.redirect (h : m.Path p (l ++ [x]) q) (hx : x.1 ∉ l.map Prod.fst) (q' : Option ℕ) :
    (m.update x.1 fun n => setNext n q').Path p (l ++ [x]) q' := by
  obtain ⟨hl, n, hn, hv, -⟩ := path_concat.mp h
  refine path_concat.mpr ⟨hl.update hx _, setNext n q', ?_, ?_, ?_⟩
  · rw [update_self, hn]
    rfl
  · rw [value_setNext, hv]
  · exact next_setNext n q'

omit [LinkedNode N V] in
theorem notMem_around (h : ((l₁ ++ [x] ++ l₂).map Prod.fst).Nodup) :
    x.1 ∉ l₁.map Prod.fst ∧ x.1 ∉ l₂.map Prod.fst := by
  rw [List.map_append, List.map_append] at h
  obtain ⟨h₁, -, hcross⟩ := List.nodup_append.mp h
  constructor
  · intro hx
    exact (List.nodup_append.mp h₁).2.2 x.1 hx x.1 List.mem_cons_self rfl
  · intro hx
    exact hcross x.1 (by simp) x.1 hx rfl

omit [LinkedNode N V] in
theorem ne_middle (h : a ∉ (l₁ ++ [x] ++ l₂).map Prod.fst) : a ≠ x.1 := by
  rintro rfl
  simp at h

theorem Path.insertBehind {r' : Option ℕ} (hfront : m.Path p (l₁ ++ [x]) r') (hback : m.Path r l₂ q)
    (hnodup : ((l₁ ++ [x] ++ l₂).map Prod.fst).Nodup) (ha : m.node a = some n)
    (hfresh : a ∉ (l₁ ++ [x] ++ l₂).map Prod.fst) :
    ((m.update x.1 fun n => setNext n (some a)).update a fun n => setNext n r).Path p
      (l₁ ++ [x] ++ (a, value n) :: l₂) q := by
  obtain ⟨hx, hx'⟩ := notMem_around hnodup
  have hne := ne_middle hfresh
  rw [List.map_append, List.mem_append, not_or] at hfresh
  refine path_append.mpr ⟨some a, ?_, rfl, setNext n r, ?_, ?_, ?_⟩
  · exact (hfront.redirect hx _).update hfresh.1 _
  · rw [update_self, update_of_ne hne, ha]
    rfl
  · exact value_setNext n r
  · rw [next_setNext]
    exact (hback.update hx' _).update hfresh.2 _

theorem Path.unlink {y : ℕ × V} (hfront : m.Path p (l₁ ++ [x]) r) (hback : m.Path r (y :: l₂) q)
    (hnodup : ((l₁ ++ [x] ++ y :: l₂).map Prod.fst).Nodup) :
    ∃ n, m.node y.1 = some n ∧ value n = y.2 ∧
      ((m.update x.1 fun k => setNext k (next n)).erase y.1).Path p (l₁ ++ [x] ++ l₂) q := by
  obtain ⟨hx, hx'⟩ := notMem_around hnodup
  have hx' : x.1 ∉ l₂.map Prod.fst := fun hmem => hx' (List.mem_cons_of_mem _ hmem)
  rw [List.append_cons] at hnodup
  obtain ⟨hy, hy'⟩ := notMem_around hnodup
  obtain ⟨-, n, hn, hv, hback⟩ := hback
  refine ⟨n, hn, hv, path_append.mpr ⟨next n, ?_, ?_⟩⟩
  · exact (hfront.redirect hx _).erase hy
  · exact (hback.update hx' _).erase hy'

/-- The links of the memory as a function. -/
def link (m : Memory N) (a : ℕ) : Option ℕ := (m.node a).bind next

theorem Path.seg (h : m.Path p l q) : Seg m.link p (l.map Prod.fst) q := by
  induction l generalizing p with
  | nil => exact h
  | cons x l ih =>
    obtain ⟨hp, n, hn, -, hrest⟩ := h
    refine ⟨hp, ?_⟩
    rw [link, hn]
    exact ih hrest

theorem Path.nodup (h : m.Path p l none) : (l.map Prod.fst).Nodup := h.seg.nodup

theorem Path.length_le_fresh (h : m.Path p l none) : l.length ≤ m.fresh := by
  rw [← List.length_map Prod.fst]
  apply Memory.length_le_fresh h.nodup
  intro a ha
  exact h.lt_fresh ha

theorem Path.unique {l' : List (ℕ × V)} (h : m.Path p l none) (h' : m.Path p l' none) : l = l' := by
  induction l generalizing p l' with
  | nil =>
    obtain rfl : p = none := h
    cases l' with
    | nil => rfl
    | cons y l' => exact absurd h'.1 (Option.some_ne_none y.1).symm
  | cons x l ih =>
    obtain ⟨rfl, n, hn, hv, hrest⟩ := h
    cases l' with
    | nil => exact absurd h' (Option.some_ne_none x.1)
    | cons y l' =>
      obtain ⟨hxy, n', hn', hv', hrest'⟩ := h'
      have hxy := Option.some.inj hxy
      rw [← hxy, hn] at hn'
      obtain rfl := Option.some.inj hn'
      have hsame : x = y := Prod.ext hxy (hv.symm.trans hv')
      rw [hsame, ih hrest hrest']

end path

end Memory

/-! ### Values in order -/

theorem pairwise_le_insert {V : Type} [Preorder V] {v : V} {vs₁ vs₂ : List V}
    (h : (vs₁ ++ vs₂).Pairwise (· ≤ ·)) (hle : ∀ w ∈ vs₁, w ≤ v)
    (hge : ∀ w, vs₂.head? = some w → v ≤ w) : (vs₁ ++ v :: vs₂).Pairwise (· ≤ ·) := by
  obtain ⟨hs₁, hs₂, hcross⟩ := List.pairwise_append.mp h
  have hge' : ∀ w ∈ vs₂, v ≤ w := by
    cases vs₂ with
    | nil => simp
    | cons b vs₂ =>
      have hb := hge b rfl
      intro w hw
      rcases List.mem_cons.mp hw with rfl | hw
      · exact hb
      · exact hb.trans ((List.pairwise_cons.mp hs₂).1 w hw)
  refine List.pairwise_append.mpr ⟨hs₁, List.pairwise_cons.mpr ⟨hge', hs₂⟩, ?_⟩
  intro x hx y hy
  rcases List.mem_cons.mp hy with rfl | hy
  · exact hle x hx
  · exact hcross x hx y hy

end CodingForFun.Lib
